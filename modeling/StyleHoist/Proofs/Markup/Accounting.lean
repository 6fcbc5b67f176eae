import StyleHoist.Proofs.Markup.Tally

/-! The accounts of hoisting. Each item of a scan is warned of or is an attribute taken
into the edit of its tag, and each of these declares nothing, repeats a declaration that
has a class when it is reached, or gets a class that is noted as pending. -/
namespace StyleHoist.Markup

open Registry

/-- The attributes in edits, of which the latest is first, in the order in which they were taken. -/
def taken (edits : List TagEdit) : List StyleAttr := edits.reverse.flatMap (·.styles)

/-- How many declarations are among those seen or come after an equal one. -/
def repeated (seen : List Declaration) : List Declaration → Nat
  | [] => 0
  | declaration :: rest => (if declaration ∈ seen then 1 else 0) + repeated (declaration :: seen) rest

theorem repeated_concat (seen front : List Declaration) (declaration : Declaration) :
    repeated seen (front ++ [declaration]) =
      repeated seen front + if declaration ∈ seen ∨ declaration ∈ front then 1 else 0 := by
  induction front generalizing seen with
  | nil => simp [repeated]
  | cons first rest ih =>
    have same : (declaration ∈ first :: seen ∨ declaration ∈ rest) ↔
        (declaration ∈ seen ∨ declaration ∈ first :: rest) := by
      simp only [List.mem_cons]
      tauto
    rw [List.cons_append,repeated,repeated,ih]
    simp only [same,Nat.add_assoc]

theorem taken_place {edits older : List TagEdit} {edit : TagEdit} {attr : StyleAttr}
    (placed : Plan.place? edits attr = some (edit,older)) : taken (edit :: older) = taken edits ++ [attr] := by
  rcases Plan.place?_cases placed with ⟨last,rfl,-,rfl⟩ | ⟨rfl,rfl,-⟩
  · simp [taken,TagEdit.addStyle]
  · simp [taken,TagEdit.ofStyle]

theorem taken_addClass (edit : TagEdit) (older : List TagEdit) (id : ClassId) :
    taken (edit.addClass id :: older) = taken (edit :: older) := by
  simp [taken]

/-- The declarations that a registry has a class for. -/
def declarationsOf (registry : Registry) : List Declaration := registry.known.map (·.declaration)

theorem declarationsOf_allocate {registry next : Registry} {declaration : Declaration} {allocation : Allocation}
    (allocated : registry.allocate declaration = .ok (allocation,next)) :
    (∀ other, other ∈ declarationsOf next ↔ other ∈ declarationsOf registry ∨ other = declaration) ∧
      (declaration ∈ declarationsOf registry ↔ allocation.fresh = false) := by
  rcases allocate_cases allocated with ⟨found,old,rfl⟩ | ⟨missing,-,rfl,rfl⟩
  · have known : declaration ∈ declarationsOf next := List.mem_map_of_mem (mem_of_lookup found)
    refine ⟨fun other => ⟨.inl,?_⟩,iff_of_true known old⟩
    rintro (before | rfl)
    · exact before
    · exact known
  · refine ⟨fun other => ?_,iff_of_false (lookup_eq_none_iff.mp missing) Bool.true_eq_false.mp⟩
    rw [declarationsOf,append,List.map_append,List.mem_append,List.map_singleton,List.mem_singleton]
    rfl

/-- A plan made for attributes of a document, begun with some registry. -/
structure Booked (document : Text) (first : Registry) (read : List StyleAttr) (plan : Plan) : Prop where
  grouped : Grouped read plan.edits
  taken : applied (tagsOf plan.edits) read = taken plan.edits
  grown : Growth first plan.allocated plan.registry
  reached : ∀ declaration, declaration ∈ declarationsOf plan.registry ↔
    declaration ∈ declarationsOf first ∨ declaration ∈ declared document (Markup.taken plan.edits)
  reused : plan.reused = repeated (declarationsOf first) (declared document (Markup.taken plan.edits))

namespace Booked

variable {document : Text} {first registry : Registry} {read : List StyleAttr} {plan next : Plan} {attr : StyleAttr}

theorem start (document : Text) (first : Registry) : Booked document first [] (Plan.start first) :=
  ⟨Grouped.none,rfl,.done _,fun _ => (or_iff_left List.not_mem_nil).symm,rfl⟩

theorem add (booked : Booked document first read plan) (follows : Follows read attr)
    (added : plan.add document attr = .ok next) : Booked document first (read ++ [attr]) next := by
  obtain ⟨grouped,taken,grown,reached,reused⟩ := booked
  rcases Plan.add_cases added with ⟨unplaced,position,-,rfl⟩ | ⟨edit,older,placed,assigned⟩
  · obtain ⟨grouped,other⟩ := grouped.skip follows unplaced
    exact ⟨grouped,(applied_concat_of_not_mem other read).trans taken,grown,reached,reused⟩
  · obtain ⟨grouped,more⟩ := grouped.place follows placed
    have joined := taken_place placed
    have single := declared_singleton document attr
    rcases Plan.assign_cases assigned with ⟨empty,rfl⟩ | ⟨filled,allocation,registry,allocated,rfl⟩
    · have same : declared document (Markup.taken (edit :: older)) = declared document (Markup.taken plan.edits) := by
        rw [joined,declared_append,single,empty,if_pos rfl,List.append_nil]
      refine ⟨grouped,more.trans (taken ▸ joined.symm),grown,?_,?_⟩
      · rw [same]
        exact reached
      · rw [same]
        exact reused
    · have same : declared document (Markup.taken (edit.addClass allocation.id :: older)) =
          declared document (Markup.taken plan.edits) ++ [attr.declaration document] := by
        rw [taken_addClass,joined,declared_append,single,filled,if_neg Bool.false_ne_true]
      refine ⟨grouped.rename (TagEdit.addClass_tag _ _) (TagEdit.addClass_styles _ _),?_,
        grown.trans (Growth.of_allocate allocated),?_,?_⟩
      · rw [tagsOf_addClass,taken_addClass]
        exact more.trans (taken ▸ joined.symm)
      · intro declaration
        rw [same,(declarationsOf_allocate allocated).1,reached,List.mem_append,List.mem_singleton,or_assoc]
      · have known := (declarationsOf_allocate allocated).2
        rw [reached] at known
        rw [same,repeated_concat,← reused]
        simp only [known]
        cases allocation.fresh <;> rfl

theorem of_addAll (planned : (Plan.start first).addAll document (styleAttrs document) = (plan,none)) :
    Booked document first (styleAttrs document) plan :=
  Plan.holds_of_addAll (fun follows added booked => booked.add follows added) (start document first) planned

end Booked

theorem length_items (items : List Item) :
    items.length = (items.filterMap Item.style?).length + (items.filterMap Item.warning?).length := by
  induction items with
  | nil => rfl
  | cons item rest ih =>
    cases item with
    | style attr =>
      simp only [List.filterMap_cons,Item.style?,Item.warning?,List.length_cons,ih]
      omega
    | warning found =>
      simp only [List.filterMap_cons,Item.style?,Item.warning?,List.length_cons,ih]
      omega

theorem length_eq_declared_add_empties (document : Text) (attrs : List StyleAttr) :
    attrs.length = (declared document attrs).length + empties document attrs := by
  rw [declared,← List.countP_eq_length_filter,List.countP_map,Nat.add_comm,empties,
    List.length_eq_countP_add_countP fun attr => (attr.declaration document).isEmpty]
  simp only [Function.comp_def,Bool.not_eq_true,Bool.decide_eq_false]

/-- The figures of an outcome, for the attributes taken into the edits of their tags. -/
structure Outcome.Accounts (outcome : Outcome) (document : Text) (registry last : Registry)
    (attrs : List StyleAttr) : Prop where
  items : (scan document).length = outcome.converted + outcome.warnings.length
  taken : attrs = appliedStyles document outcome
  stripped : outcome.stripped = empties document attrs
  filled : outcome.allocated.length + outcome.reused = (declared document attrs).length
  reused : outcome.reused = repeated (declarationsOf registry) (declared document attrs)
  pending : last.pending = registry.pending ++ outcome.allocated
  known : last.known = registry.known ++ outcome.allocated
  size : last.size = registry.size + outcome.allocated.length
  changed : outcome.changed = true ↔ 0 < outcome.converted
  unchanged : outcome.changed = false → outcome.text = document ∧ last = registry

section

variable {document : Text} {registry last : Registry} {outcome : Outcome}

theorem Outcome.Tallies.length_appliedStyles (tallies : outcome.Tallies document) :
    (appliedStyles document outcome).length = outcome.converted := by
  have split := length_eq_declared_add_empties document (appliedStyles document outcome)
  rw [split,Outcome.converted,tallies.converted,tallies.stripped]

theorem taken_eq_nil_iff {read : List StyleAttr} {edits : List TagEdit} (grouped : Grouped read edits) :
    taken edits = [] ↔ edits = [] := by
  refine ⟨fun none => ?_,fun none => none ▸ rfl⟩
  refine List.eq_nil_iff_forall_not_mem.mpr fun edit member => (grouped.filled edit member).1 ?_
  exact List.flatMap_eq_nil_iff.mp none edit (List.mem_reverse.mpr member)

/-- Each item of a document is accounted for once. -/
theorem hoist_accounts (hoisted : hoist document registry = (.ok outcome,last)) :
    ∃ plan, (Plan.start registry).addAll document (styleAttrs document) = (plan,none) ∧
      outcome.Accounts document registry last (taken plan.edits) := by
  obtain ⟨plan,planned,assembled,whole,moved⟩ := hoist_eq_ok hoisted
  have booked := Booked.of_addAll planned
  have tallies := tallies_of_hoist hoisted
  have same : taken plan.edits = appliedStyles document outcome :=
    booked.taken.symm.trans (appliedStyles_eq assembled).symm
  have grown : Growth registry outcome.allocated last := by
    rw [congrArg Outcome.allocated whole,moved]
    exact booked.grown
  have converted : (taken plan.edits).length = outcome.converted := same ▸ tallies.length_appliedStyles
  -- there is an edit for each tag of which an attribute was taken, and for no other
  have edited : outcome.edits = [] ↔ taken plan.edits = [] := by
    have paired := congrArg List.length (map_assemble? assembled)
    simp only [List.length_map,List.length_reverse] at paired
    rw [taken_eq_nil_iff booked.grouped,← List.length_eq_zero_iff,paired,List.length_eq_zero_iff]
  have changed : outcome.changed = true ↔ 0 < outcome.converted := by
    rw [← converted,List.length_pos_iff,ne_eq,← edited,Outcome.changed,Bool.not_eq_true',List.isEmpty_eq_false_iff]
  refine ⟨plan,planned,?_,same,same ▸ tallies.stripped,same ▸ tallies.converted,?_,grown.pending,grown.known,?_,changed,
    fun unchanged => ⟨text_of_not_changed hoisted unchanged,?_⟩⟩
  · have counted := tallies.warned
    have split := length_items (scan document)
    rw [← same,converted] at counted
    rw [split]
    exact (Nat.add_comm _ _).trans (counted.symm.trans (Nat.add_comm _ _))
  · rw [congrArg Outcome.reused whole]
    exact booked.reused
  · rw [size,grown.known,List.length_append]
    rfl
  · have none : ¬ 0 < outcome.converted := fun some => by simp [changed.mpr some] at unchanged
    have empty : outcome.allocated = [] := by
      rw [← List.length_eq_zero_iff]
      unfold Outcome.converted at none
      omega
    rw [empty] at grown
    exact grown.eq_of_nil

end

/-- Of three attributes the first gets a class, the second declares nothing, and the third declares
what the first does. -/
theorem hoist_accounts_three :
    let first := Registry.empty "inl-".toList
    let last := first.append (first.fresh (Declaration.normalize "a:1".toList))
    let document := "<p style=\"a:1\" style=\"\"><b style=\" a:1;\">x".toList
    ∃ outcome, hoist document first = (.ok outcome,last) ∧
      ∃ plan, (Plan.start first).addAll document (styleAttrs document) = (plan,none) ∧
        outcome.Accounts document first last (taken plan.edits) := by
  intro first last document
  let pieces : List Piece :=
    [.tag ⟨"p".toList,[⟨[' '],"style".toList,some "a:1".toList⟩,⟨[' '],"style".toList,some []⟩],[],false⟩,
      .tag ⟨"b".toList,[⟨[' '],"style".toList,some " a:1;".toList⟩],[],false⟩,.text "x".toList]
  have printed : document = Piece.printAll pieces := by decide
  have restyled : ∃ others, Piece.restyleAll first pieces = .ok (others,last) := ⟨_,rfl⟩
  obtain ⟨_,restyled⟩ := restyled
  obtain ⟨outcome,hoisted,-⟩ := hoist_of_restyleAll (show Piece.arePlain pieces = true by decide) restyled
  rw [← printed] at hoisted
  exact ⟨outcome,hoisted,hoist_accounts hoisted⟩

end StyleHoist.Markup
