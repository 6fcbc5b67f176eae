import StyleHoist.Proofs.FirstSeen
import StyleHoist.Proofs.Markup.Naming

/-! How the planning goes on. Attributes whose values can be cut out either lead to
another plan or stop the planning at a collision; which of them is the case, and which
classes the last edit gets, is decided by the allocation of what they declare. -/
namespace StyleHoist.Markup

open Text

namespace Plan

variable {document : Text} {plan : Plan} {attr : StyleAttr} {edit : TagEdit} {older : List TagEdit}

/-- Attributes after which the planning goes on from another plan. -/
def Continues (document : Text) (plan : Plan) (attrs : List StyleAttr) (next : Plan) : Prop :=
  ∀ more, plan.addAll document (attrs ++ more) = next.addAll document more

/-- Attributes at one of which the planning stops. -/
def Stops (document : Text) (plan : Plan) (attrs : List StyleAttr) (obstacle : Obstacle) : Prop :=
  ∃ stuck, ∀ more, plan.addAll document (attrs ++ more) = (stuck,some obstacle)

theorem Continues.trans {front back : List StyleAttr} {next last : Plan}
    (first : Continues document plan front next) (second : Continues document next back last) :
    Continues document plan (front ++ back) last := by
  intro more
  rw [List.append_assoc,first,second]

theorem Continues.stops {front back : List StyleAttr} {next : Plan} {obstacle : Obstacle}
    (first : Continues document plan front next) (second : Stops document next back obstacle) :
    Stops document plan (front ++ back) obstacle := by
  obtain ⟨stuck,stops⟩ := second
  exact ⟨stuck,fun more => by rw [List.append_assoc,first,stops]⟩

theorem Stops.append {front : List StyleAttr} {obstacle : Obstacle}
    (stops : Stops document plan front obstacle) (back : List StyleAttr) :
    Stops document plan (front ++ back) obstacle := by
  obtain ⟨stuck,stops⟩ := stops
  exact ⟨stuck,fun more => by rw [List.append_assoc,stops]⟩

theorem continues_of_add {next : Plan} (added : plan.add document attr = .ok next) :
    Continues document plan [attr] next := by
  intro more
  rw [List.singleton_append,addAll,added]

theorem stops_of_add {obstacle : Obstacle} (stuck : plan.add document attr = .error obstacle) :
    Stops document plan [attr] obstacle :=
  ⟨plan,fun more => by rw [List.singleton_append,addAll,stuck]⟩

theorem add_placed {value : Text} (cut : Text.slice? document attr.value = some value)
    (placed : place? plan.edits attr = some (edit,older)) :
    plan.add document attr =
      (plan.assign edit older (attr.declaration document)).mapError .collision := by
  rw [add,StyleAttr.declaration,cut,Option.getD_some]
  simp only [placed]
  cases plan.assign edit older (Declaration.normalize value) <;> rfl

theorem continues_placed {value : Text} (cut : Text.slice? document attr.value = some value)
    (placed : place? plan.edits attr = some (edit,older)) {ids : List ClassId} {registry : Registry}
    (allocated : Piece.allocateAll plan.registry (declared document [attr]) = .ok (ids,registry)) :
    ∃ next, Continues document plan [attr] next ∧ next.edits = ids.foldl TagEdit.addClass edit :: older ∧
      next.registry = registry ∧ next.overlaps = plan.overlaps := by
  have added := add_placed cut placed
  rw [declared_singleton] at allocated
  cases empty : (attr.declaration document).isEmpty with
  | true =>
    rw [assign,if_pos empty] at added
    rw [if_pos empty] at allocated
    cases allocated
    exact ⟨_,continues_of_add added,rfl,rfl,rfl⟩
  | false =>
    have filled : ¬(attr.declaration document).isEmpty = true := by rw [empty]; decide
    rw [if_neg filled,Piece.allocateAll_cons_ok] at allocated
    obtain ⟨allocation,next,later,first,last,rfl⟩ := allocated
    cases last
    rw [assign,if_neg filled,first] at added
    cases fresh : allocation.fresh with
    | true =>
      simp only [bind,Except.bind,fresh,if_true] at added
      exact ⟨_,continues_of_add added,rfl,rfl,rfl⟩
    | false =>
      simp only [bind,Except.bind,fresh,Bool.false_eq_true,if_false] at added
      exact ⟨_,continues_of_add added,rfl,rfl,rfl⟩

theorem stops_placed {value : Text} (cut : Text.slice? document attr.value = some value)
    (placed : place? plan.edits attr = some (edit,older)) {collision : Collision}
    (stuck : Piece.allocateAll plan.registry (declared document [attr]) = .error collision) :
    Stops document plan [attr] (.collision collision) := by
  have added := add_placed cut placed
  rw [declared_singleton] at stuck
  cases empty : (attr.declaration document).isEmpty with
  | true =>
    rw [if_pos empty] at stuck
    contradiction
  | false =>
    have filled : ¬(attr.declaration document).isEmpty = true := by rw [empty]; decide
    rw [if_neg filled] at stuck
    rcases Piece.allocateAll_cons_error.mp stuck with first | ⟨allocation,next,-,last⟩
    · rw [assign,if_neg filled,first] at added
      exact stops_of_add added
    · contradiction

theorem place?_join (opened : plan.edits = edit :: older) (same : attr.tag = edit.tag) :
    place? plan.edits attr = some (edit.addStyle attr,older) := by
  rw [opened,place?,if_pos same.symm]

theorem place?_open (apart : ∀ last ∈ plan.edits.head?, last.tag ≠ attr.tag ∧ last.tag.stop ≤ attr.tag.start) :
    place? plan.edits attr = some (TagEdit.ofStyle attr,plan.edits) := by
  cases edits : plan.edits with
  | nil => rfl
  | cons last earlier =>
    obtain ⟨different,behind⟩ := apart last (by rw [edits]; rfl)
    rw [place?,if_neg different,if_neg (by omega)]

theorem continues_joined {styles : List StyleAttr} (opened : plan.edits = edit :: older)
    (cut : ∀ style ∈ styles, ∃ value, Text.slice? document style.value = some value)
    (same : ∀ style ∈ styles, style.tag = edit.tag)
    {ids : List ClassId} {registry : Registry}
    (allocated : Piece.allocateAll plan.registry (declared document styles) = .ok (ids,registry)) :
    ∃ next, Continues document plan styles next ∧
      next.edits = ⟨edit.tag,edit.styles ++ styles,edit.classAttr,
        ids.foldl (fun seen id => if id ∈ seen then seen else seen ++ [id]) edit.add⟩ :: older ∧
      next.registry = registry ∧ next.overlaps = plan.overlaps := by
  induction styles generalizing plan edit ids with
  | nil =>
    cases allocated
    exact ⟨plan,fun _ => rfl,by rw [opened,List.append_nil]; rfl,rfl,rfl⟩
  | cons style rest ih =>
    rw [← List.singleton_append,declared_append,Piece.allocateAll_append_ok] at allocated
    obtain ⟨first,middle,second,fore,aft,rfl⟩ := allocated
    obtain ⟨value,inside⟩ := cut style List.mem_cons_self
    have placed := place?_join opened (same style List.mem_cons_self)
    obtain ⟨next,continues,edits,moved,calm⟩ := continues_placed inside placed fore
    rw [TagEdit.foldl_addClass] at edits
    obtain ⟨last,goes,reached,stored,quiet⟩ := ih edits
      (fun other member => cut other (List.mem_cons_of_mem _ member))
      (fun other member => same other (List.mem_cons_of_mem _ member)) (by rw [moved]; exact aft)
    refine ⟨last,continues.trans goes,?_,stored,quiet.trans calm⟩
    rw [reached,List.foldl_append]
    simp [TagEdit.addStyle]

theorem stops_joined {styles : List StyleAttr} (opened : plan.edits = edit :: older)
    (cut : ∀ style ∈ styles, ∃ value, Text.slice? document style.value = some value)
    (same : ∀ style ∈ styles, style.tag = edit.tag)
    {collision : Collision}
    (stuck : Piece.allocateAll plan.registry (declared document styles) = .error collision) :
    Stops document plan styles (.collision collision) := by
  induction styles generalizing plan edit with
  | nil => contradiction
  | cons style rest ih =>
    obtain ⟨value,inside⟩ := cut style List.mem_cons_self
    have placed := place?_join opened (same style List.mem_cons_self)
    rw [← List.singleton_append,declared_append,Piece.allocateAll_append_error] at stuck
    rcases stuck with first | ⟨ids,middle,first,later⟩
    · exact (stops_placed inside placed first).append rest
    · obtain ⟨next,continues,edits,moved,-⟩ := continues_placed inside placed first
      rw [TagEdit.foldl_addClass] at edits
      exact continues.stops (ih edits (fun other member => cut other (List.mem_cons_of_mem _ member))
        (fun other member => same other (List.mem_cons_of_mem _ member)) (by rw [moved]; exact later))

theorem continues_opened {rest : List StyleAttr}
    (cut : ∀ style ∈ attr :: rest, ∃ value, Text.slice? document style.value = some value)
    (same : ∀ style ∈ rest, style.tag = attr.tag)
    (apart : ∀ last ∈ plan.edits.head?, last.tag ≠ attr.tag ∧ last.tag.stop ≤ attr.tag.start)
    {ids : List ClassId} {registry : Registry}
    (allocated : Piece.allocateAll plan.registry (declared document (attr :: rest)) = .ok (ids,registry)) :
    ∃ next, Continues document plan (attr :: rest) next ∧
      next.edits = ⟨attr.tag,attr :: rest,attr.classAttr,ids.eraseDups⟩ :: plan.edits ∧
      next.registry = registry ∧ next.overlaps = plan.overlaps := by
  rw [← List.singleton_append,declared_append,Piece.allocateAll_append_ok] at allocated
  obtain ⟨first,middle,second,fore,aft,rfl⟩ := allocated
  obtain ⟨value,inside⟩ := cut attr List.mem_cons_self
  obtain ⟨next,continues,edits,moved,calm⟩ := continues_placed inside (place?_open apart) fore
  rw [TagEdit.foldl_addClass] at edits
  obtain ⟨last,goes,reached,stored,quiet⟩ := continues_joined edits
    (fun other member => cut other (List.mem_cons_of_mem _ member)) same (by rw [moved]; exact aft)
  refine ⟨last,continues.trans goes,?_,stored,quiet.trans calm⟩
  rw [reached,← List.foldl_append]
  simp only [TagEdit.ofStyle,FirstSeen.foldl_insert,List.singleton_append]

theorem stops_opened {rest : List StyleAttr}
    (cut : ∀ style ∈ attr :: rest, ∃ value, Text.slice? document style.value = some value)
    (same : ∀ style ∈ rest, style.tag = attr.tag)
    (apart : ∀ last ∈ plan.edits.head?, last.tag ≠ attr.tag ∧ last.tag.stop ≤ attr.tag.start)
    {collision : Collision}
    (stuck : Piece.allocateAll plan.registry (declared document (attr :: rest)) = .error collision) :
    Stops document plan (attr :: rest) (.collision collision) := by
  obtain ⟨value,inside⟩ := cut attr List.mem_cons_self
  rw [← List.singleton_append,declared_append,Piece.allocateAll_append_error] at stuck
  rcases stuck with first | ⟨ids,middle,first,later⟩
  · exact (stops_placed inside (place?_open apart) first).append rest
  · obtain ⟨next,continues,edits,moved,-⟩ := continues_placed inside (place?_open apart) first
    rw [TagEdit.foldl_addClass] at edits
    exact continues.stops (stops_joined edits
      (fun other member => cut other (List.mem_cons_of_mem _ member)) same (by rw [moved]; exact later))

end Plan

end StyleHoist.Markup
