import StyleHoist.Proofs.FirstSeen
import StyleHoist.Proofs.Markup.Grouping

/-! What the classes of an edit stand for. An edit names one class for each
declaration among its attributes, in the order of their first being seen, and
the classes made on the way are those of unknown declarations. -/
namespace StyleHoist.Markup

open Registry

/-- A plan after attributes of a document, begun with some registry. -/
structure Named (document : Text) (first : Registry) (read : List StyleAttr) (plan : Plan) : Prop where
  grouped : Grouped read plan.edits
  grown : Growth first plan.allocated plan.registry
  replayed : ∃ ids, Piece.allocateAll first (declared document (applied (tagsOf plan.edits) read)) =
    .ok (ids,plan.registry)
  standing : ∀ edit ∈ plan.edits,
    plan.registry.StandFor edit.add (declared document edit.styles).eraseDups

namespace TagEdit

@[simp] theorem addClass_tag (edit : TagEdit) (id : ClassId) : (edit.addClass id).tag = edit.tag := by
  unfold addClass
  split <;> rfl

@[simp] theorem addClass_styles (edit : TagEdit) (id : ClassId) :
    (edit.addClass id).styles = edit.styles := by
  unfold addClass
  split <;> rfl

@[simp] theorem addClass_classAttr (edit : TagEdit) (id : ClassId) :
    (edit.addClass id).classAttr = edit.classAttr := by
  unfold addClass
  split <;> rfl

theorem addClass_add (edit : TagEdit) (id : ClassId) :
    (edit.addClass id).add = if id ∈ edit.add then edit.add else edit.add ++ [id] := by
  unfold addClass
  split <;> rfl

theorem foldl_addClass (edit : TagEdit) (ids : List ClassId) :
    ids.foldl addClass edit =
      { edit with add := ids.foldl (fun seen id => if id ∈ seen then seen else seen ++ [id]) edit.add } := by
  induction ids generalizing edit with
  | nil => rfl
  | cons id ids ih =>
    rw [List.foldl_cons,List.foldl_cons,ih,addClass]
    split <;> rfl

end TagEdit

theorem tagsOf_addClass (edit : TagEdit) (older : List TagEdit) (id : ClassId) :
    tagsOf (edit.addClass id :: older) = tagsOf (edit :: older) := by
  rw [tagsOf,List.map_cons,TagEdit.addClass_tag]
  rfl

theorem standFor_addClass {registry : Registry} {edit : TagEdit} {declarations : List Declaration}
    {declaration : Declaration} {id : ClassId} (sound : registry.Sound)
    (standing : registry.StandFor edit.add declarations.eraseDups)
    (bound : ⟨declaration,id⟩ ∈ registry.known) :
    registry.StandFor (edit.addClass id).add (declarations ++ [declaration]).eraseDups := by
  have seen := standing.mem_iff sound bound
  rw [List.mem_eraseDups] at seen
  rw [TagEdit.addClass_add,FirstSeen.eraseDups_concat]
  by_cases old : declaration ∈ declarations
  · rwa [if_pos (seen.mpr old),if_pos old]
  · rw [if_neg (mt seen.mp old),if_neg old]
    exact standing.concat bound

namespace Named

variable {document : Text} {first : Registry} {read : List StyleAttr} {plan next : Plan}
  {attr : StyleAttr}

theorem start (document : Text) (first : Registry) : Named document first [] (Plan.start first) :=
  ⟨Grouped.none,.done _,⟨[],rfl⟩,fun _ member => absurd member List.not_mem_nil⟩

theorem standing_place (named : Named document first read plan) {edit : TagEdit}
    {older : List TagEdit} (placed : Plan.place? plan.edits attr = some (edit,older)) :
    ∃ styles, edit.styles = styles ++ [attr] ∧
      plan.registry.StandFor edit.add (declared document styles).eraseDups ∧
      ∀ other ∈ older, other ∈ plan.edits := by
  rcases Plan.place?_cases placed with ⟨last,opened,-,rfl⟩ | ⟨rfl,rfl,-⟩
  · have member : last ∈ plan.edits := opened ▸ List.mem_cons_self
    exact ⟨last.styles,rfl,named.standing last member,fun other earlier =>
      opened ▸ List.mem_cons_of_mem _ earlier⟩
  · exact ⟨[],rfl,.nil,fun _ member => member⟩

theorem add (named : Named document first read plan) (sound : first.Sound)
    (follows : Follows read attr) (added : plan.add document attr = .ok next) :
    Named document first (read ++ [attr]) next := by
  rcases Plan.add_cases added with ⟨unplaced,position,-,rfl⟩ | ⟨edit,older,placed,assigned⟩
  · obtain ⟨grouped,other⟩ := named.grouped.skip follows unplaced
    refine ⟨grouped,named.grown,?_,named.standing⟩
    dsimp only
    rw [applied_concat_of_not_mem other]
    exact named.replayed
  · obtain ⟨grouped,more⟩ := named.grouped.place follows placed
    obtain ⟨ids,replayed⟩ := named.replayed
    obtain ⟨styles,joined,standing,kept⟩ := named.standing_place placed
    have single := declared_singleton document attr
    rcases Plan.assign_cases assigned with ⟨empty,rfl⟩ | ⟨filled,allocation,registry,allocated,rfl⟩
    · rw [empty,if_pos rfl] at single
      refine ⟨grouped,named.grown,⟨ids,?_⟩,fun other member => ?_⟩
      · dsimp only
        rw [more,declared_append,single,List.append_nil]
        exact replayed
      · rcases List.mem_cons.mp member with rfl | earlier
        · rw [joined,declared_append,single,List.append_nil]
          exact standing
        · exact named.standing other (kept other earlier)
    · rw [filled,if_neg Bool.false_ne_true] at single
      have step := Growth.of_allocate allocated
      have bound := Piece.mem_known_of_allocate allocated
      have grown := named.grown.trans step
      refine ⟨grouped.rename (TagEdit.addClass_tag _ _) (TagEdit.addClass_styles _ _),grown,
        ⟨ids ++ [allocation.id],?_⟩,fun other member => ?_⟩
      · dsimp only
        rw [tagsOf_addClass,more,declared_append,single]
        exact Piece.allocateAll_append_ok.mpr ⟨ids,_,[allocation.id],replayed,
          Piece.allocateAll_cons_ok.mpr ⟨allocation,registry,[],allocated,rfl,rfl⟩,rfl⟩
      · rcases List.mem_cons.mp member with rfl | earlier
        · rw [TagEdit.addClass_styles,joined,declared_append,single]
          exact standFor_addClass (grown.sound sound) (standing.grow step) bound
        · exact (named.standing other (kept other earlier)).grow step

end Named

end StyleHoist.Markup
