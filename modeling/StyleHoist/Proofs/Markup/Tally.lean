import StyleHoist.Proofs.Markup.Alongside
import StyleHoist.Proofs.Markup.Simultaneous
import StyleHoist.Proofs.Markup.Styles

/-! What hoisting counts, and when it leaves nothing out. Where no tag of a document
overlaps another, every attribute is taken. Where besides no class attribute overlaps
a style of its tag, nothing but a collision can end the hoisting. -/
namespace StyleHoist.Markup

open Text

/-- Attributes of one tag, or of two of which the first ends before the second begins. -/
def StyleAttr.Clear (first second : StyleAttr) : Prop :=
  first.tag = second.tag ∨ first.tag.stop ≤ second.tag.start

/-- No tag with a style overlaps another. -/
def TagsApart (document : Text) : Prop := (styleAttrs document).Pairwise StyleAttr.Clear

/-- No class attribute overlaps a style of its tag. -/
def ClassesApart (document : Text) : Prop :=
  ∀ attr ∈ styleAttrs document, ∀ named ∈ attr.classAttr,
    named.attr.stop ≤ attr.attr.start ∨ attr.attr.stop ≤ named.attr.start

/-- The number of attributes that declare nothing. -/
def empties (document : Text) (attrs : List StyleAttr) : Nat :=
  attrs.countP fun attr => (attr.declaration document).isEmpty

/-- What a plan has counted after attributes of a document. -/
structure Tallied (document : Text) (read : List StyleAttr) (plan : Plan) : Prop where
  grouped : Grouped read plan.edits
  converted : plan.allocated.length + plan.reused =
    (declared document (applied (tagsOf plan.edits) read)).length
  stripped : plan.stripped = empties document (applied (tagsOf plan.edits) read)
  overlaps : plan.overlaps.length + (applied (tagsOf plan.edits) read).length = read.length

namespace Tallied

variable {document : Text} {read : List StyleAttr} {plan next : Plan} {attr : StyleAttr}

theorem start (document : Text) (registry : Registry) : Tallied document [] (Plan.start registry) :=
  ⟨Grouped.none,rfl,rfl,rfl⟩

theorem add (tallied : Tallied document read plan) (follows : Follows read attr)
    (added : plan.add document attr = .ok next) : Tallied document (read ++ [attr]) next := by
  rcases Plan.add_cases added with ⟨unplaced,position,-,rfl⟩ | ⟨edit,older,placed,assigned⟩
  · obtain ⟨grouped,other⟩ := tallied.grouped.skip follows unplaced
    have same := applied_concat_of_not_mem other read
    refine ⟨grouped,same ▸ tallied.converted,same ▸ tallied.stripped,?_⟩
    have counted := tallied.overlaps
    dsimp only
    rw [same,List.length_append,List.length_append,List.length_singleton]
    simp only [List.length_singleton]
    omega
  · obtain ⟨grouped,more⟩ := tallied.grouped.place follows placed
    have converted := tallied.converted
    have stripped := tallied.stripped
    have counted := tallied.overlaps
    have single := declared_singleton document attr
    rcases Plan.assign_cases assigned with ⟨empty,rfl⟩ | ⟨filled,allocation,registry,allocated,rfl⟩
    · rw [empty,if_pos rfl] at single
      refine ⟨grouped,?_,?_,?_⟩
      · dsimp only
        rw [more,declared_append,single,List.append_nil]
        exact converted
      · dsimp only
        rw [more,empties,List.countP_append,List.countP_singleton,empty,if_pos rfl,stripped,empties]
      · dsimp only
        rw [more,List.length_append,List.length_append,List.length_singleton,← counted,Nat.add_assoc]
    · rw [filled,if_neg Bool.false_ne_true] at single
      refine ⟨grouped.rename (TagEdit.addClass_tag _ _) (TagEdit.addClass_styles _ _),?_,?_,?_⟩
      · dsimp only
        rw [tagsOf_addClass,more,declared_append,single,List.length_append,List.length_append,List.length_singleton,
          ← converted]
        split <;> simp only [List.length_singleton,List.length_nil] <;> omega
      · dsimp only
        rw [tagsOf_addClass,more,empties,List.countP_append,List.countP_singleton,filled,
          if_neg Bool.false_ne_true,stripped,empties,Nat.add_zero]
      · dsimp only
        rw [tagsOf_addClass,more,List.length_append,List.length_append,List.length_singleton,← counted,Nat.add_assoc]

theorem of_addAll {registry : Registry}
    (planned : (Plan.start registry).addAll document (styleAttrs document) = (plan,none)) :
    Tallied document (styleAttrs document) plan :=
  Plan.holds_of_addAll (fun follows added tallied => tallied.add follows added) (start document registry) planned

theorem applied_eq_iff (tallied : Tallied document (styleAttrs document) plan) :
    applied (tagsOf plan.edits) (styleAttrs document) = styleAttrs document ↔ TagsApart document := by
  rw [applied,List.filter_eq_self]
  simp only [decide_eq_true_eq]
  constructor
  · intro taken
    refine (pairwise_styleAttrs document).imp_of_mem fun {first second} one two ordered => ?_
    obtain ⟨before,known,same⟩ := List.mem_map.mp (taken first one)
    obtain ⟨after,other,equal⟩ := List.mem_map.mp (taken second two)
    have inside := (located_of_mem_styleAttrs one).inside
    have within := (located_of_mem_styleAttrs two).inside
    rcases eq_or_of_pairwise tallied.grouped.ordered known other with rfl | later | earlier
    · exact .inl (same.symm.trans equal)
    · rw [same,equal] at later
      omega
    · rw [same,equal] at earlier
      exact .inr earlier
  · intro apart attr member
    obtain ⟨edit,among,overlaps⟩ := tallied.grouped.covered attr member
    obtain ⟨some,styles⟩ := tallied.grouped.filled edit among
    obtain ⟨style,own⟩ := List.exists_mem_of_ne_nil _ some
    rw [styles,List.mem_filter,decide_eq_true_eq] at own
    refine List.mem_map.mpr ⟨edit,among,?_⟩
    rw [← own.2] at overlaps ⊢
    rcases eq_or_of_pairwise apart own.1 member with rfl | (same | before) | same | after
    · rfl
    · exact same
    · omega
    · exact same.symm
    · omega

end Tallied

/-- The figures of an outcome: what is not taken into an edit is warned of. -/
structure Outcome.Tallies (outcome : Outcome) (document : Text) : Prop where
  converted : outcome.allocated.length + outcome.reused =
    (declared document (appliedStyles document outcome)).length
  stripped : outcome.stripped = empties document (appliedStyles document outcome)
  warned : outcome.warnings.length + (appliedStyles document outcome).length =
    (warningsOf document).length + (styleAttrs document).length
  apart : appliedStyles document outcome = styleAttrs document ↔ TagsApart document

variable {document : Text} {registry last : Registry} {outcome : Outcome} {plan : Plan}

theorem tallies_of_hoist (hoisted : hoist document registry = (.ok outcome,last)) : outcome.Tallies document := by
  obtain ⟨plan,planned,assembled,whole,rfl⟩ := hoist_eq_ok hoisted
  have tallied := Tallied.of_addAll planned
  have taken := appliedStyles_eq assembled
  refine ⟨?_,?_,?_,?_⟩
  · rw [taken,congrArg Outcome.allocated whole,congrArg Outcome.reused whole]
    exact tallied.converted
  · rw [taken,congrArg Outcome.stripped whole]
    exact tallied.stripped
  · have counted := tallied.overlaps
    rw [taken,congrArg (·.warnings.length) whole,warningsOf,List.length_append]
    omega
  · rw [taken]
    exact tallied.applied_eq_iff

theorem Outcome.Tallies.warned_le (tallies : outcome.Tallies document) :
    (warningsOf document).length ≤ outcome.warnings.length := by
  have few : (appliedStyles document outcome).length ≤ (styleAttrs document).length := List.length_filter_le _ _
  have := tallies.warned
  omega

theorem Outcome.Tallies.warned_iff (tallies : outcome.Tallies document) :
    outcome.warnings.length = (warningsOf document).length ↔ TagsApart document := by
  have counted := tallies.warned
  rw [← tallies.apart]
  constructor
  · intro same
    exact List.Sublist.eq_of_length List.filter_sublist (by omega)
  · intro taken
    rw [taken] at counted
    omega

namespace Plan

variable {attrs : List StyleAttr}

theorem place?_of_clear {edits : List TagEdit} {attr : StyleAttr}
    (clear : ∀ last ∈ edits.head?, last.tag = attr.tag ∨ last.tag.stop ≤ attr.tag.start) :
    ∃ edit older, place? edits attr = some (edit,older) ∧ edit.tag = attr.tag := by
  cases placed : place? edits attr with
  | none =>
    obtain ⟨last,head,different,overlaps⟩ := place?_eq_none placed
    rcases clear last head with same | before
    · exact absurd same different
    · omega
  | some pair =>
    obtain ⟨edit,older⟩ := pair
    refine ⟨edit,older,rfl,?_⟩
    rcases place?_cases placed with ⟨last,-,same,rfl⟩ | ⟨-,rfl,-⟩
    · exact same
    · rfl

theorem addAll_of_clear (cut : ∀ attr ∈ attrs, ∃ value, slice? document attr.value = some value)
    (apart : attrs.Pairwise StyleAttr.Clear)
    (behind : ∀ last ∈ plan.edits.head?, ∀ attr ∈ attrs, last.tag = attr.tag ∨ last.tag.stop ≤ attr.tag.start) :
    match Piece.allocateAll plan.registry (declared document attrs) with
    | .ok (_,registry) => ∃ last, plan.addAll document attrs = (last,none) ∧ last.registry = registry
    | .error collision => ∃ stuck, plan.addAll document attrs = (stuck,some (.collision collision)) := by
  induction attrs generalizing plan with
  | nil => exact ⟨plan,rfl,rfl⟩
  | cons attr rest ih =>
    obtain ⟨first,later⟩ := List.pairwise_cons.mp apart
    obtain ⟨value,inside⟩ := cut attr List.mem_cons_self
    obtain ⟨edit,older,placed,tag⟩ := place?_of_clear fun last head => behind last head attr List.mem_cons_self
    rw [← List.singleton_append,declared_append]
    cases front : Piece.allocateAll plan.registry (declared document [attr]) with
    | error collision =>
      obtain ⟨stuck,stops⟩ := stops_placed inside placed front
      rw [Piece.allocateAll_append_error.mpr (.inl front)]
      exact ⟨stuck,stops rest⟩
    | ok pair =>
      obtain ⟨ids,middle⟩ := pair
      obtain ⟨next,continues,edits,moved,-⟩ := continues_placed inside placed front
      rw [TagEdit.foldl_addClass] at edits
      -- the edit made last is that of the tag just read
      have reached : ∀ last ∈ next.edits.head?, ∀ other ∈ rest,
          last.tag = other.tag ∨ last.tag.stop ≤ other.tag.start := by
        intro last head other member
        rw [edits] at head
        cases head
        rw [tag]
        exact first other member
      have goes := ih (fun other member => cut other (List.mem_cons_of_mem _ member)) later reached
      rw [moved] at goes
      cases back : Piece.allocateAll middle (declared document rest) with
      | error collision =>
        rw [back] at goes
        obtain ⟨stuck,stops⟩ := goes
        rw [Piece.allocateAll_append_error.mpr (.inr ⟨ids,middle,front,back⟩)]
        exact ⟨stuck,by rw [continues,stops]⟩
      | ok pair =>
        obtain ⟨others,registry⟩ := pair
        rw [back] at goes
        obtain ⟨last,done,owned⟩ := goes
        rw [Piece.allocateAll_append_ok.mpr ⟨ids,middle,others,front,back,rfl⟩]
        exact ⟨last,by rw [continues,done],owned⟩

end Plan

theorem exists_render?_of_mem (classes : ClassesApart document)
    (planned : (Plan.start registry).addAll document (styleAttrs document) = (plan,none)) {edit : TagEdit}
    (member : edit ∈ plan.edits) : ∃ result, edit.render? document = some result := by
  have located : ∀ attr ∈ styleAttrs document, Located document attr := fun _ => located_of_mem_styleAttrs
  have known := Reported.of_addAll located (ordered_styleAttrs document) planned
  obtain ⟨text,existing,removals,prepared⟩ := known.exists_prepared located (pairwise_styleAttrs document) member
  have apart := prepared.pairwise_apart (.inr fun named has style own => by
    refine classes style ?_ named ?_
    · rw [(known.grouped.filled edit member).2] at own
      exact List.mem_of_mem_filter own
    · rw [known.classAttr_eq located member own]
      exact has)
  obtain ⟨segments,-,rendered,-⟩ := prepared.exists_render? apart
  exact ⟨_,rendered⟩

/-- Nothing but a collision ends the hoisting of a document in which nothing overlaps. -/
theorem hoist_of_apart (tags : TagsApart document) (classes : ClassesApart document) (registry : Registry) :
    match Piece.allocateAll registry (declared document (styleAttrs document)) with
    | .ok (_,last) => ∃ outcome, hoist document registry = (.ok outcome,last)
    | .error collision => (hoist document registry).1 = .error (.collision collision) := by
  have fresh : ∀ last ∈ (Plan.start registry).edits.head?, ∀ attr ∈ styleAttrs document,
      last.tag = attr.tag ∨ last.tag.stop ≤ attr.tag.start := fun _ head => absurd head (by simp [Plan.start])
  have planned := Plan.addAll_of_clear (fun attr member => (located_of_mem_styleAttrs member).value) tags fresh
  rw [show (Plan.start registry).registry = registry from rfl] at planned
  split
  next ids last allocated =>
    rw [allocated] at planned
    obtain ⟨plan,added,rfl⟩ := planned
    have tallied := Tallied.of_addAll added
    have rendered : ∀ edit ∈ plan.edits.reverse, ∃ result, edit.render? document = some result :=
      fun edit member => exists_render?_of_mem classes added (List.mem_reverse.mp member)
    obtain ⟨⟨text,edits⟩,assembled⟩ := exists_assemble? rendered
      (List.pairwise_reverse.mpr tallied.grouped.ordered) (List.nil_append document).symm
      (fun _ _ => Nat.zero_le _) 0
    obtain ⟨outcome,hoisted,-⟩ := hoist_of_addAll added assembled
    exact ⟨outcome,hoisted⟩
  next collision allocated =>
    rw [allocated] at planned
    obtain ⟨stuck,added⟩ := planned
    rw [hoist_eq]
    simp only [added]

end StyleHoist.Markup
