import StyleHoist.Markup.Hoist
import StyleHoist.Proofs.Markup.Located

/-! The steps of hoisting. Attributes are found in the order in which the plan takes
them, and the edits of the plan are applied one for one. -/
namespace StyleHoist.Markup

/-- The attributes among items, in the order of the document. -/
def attrsInOrder (items : List Item) : List StyleAttr :=
  (items.filterMap Item.style?).mergeSort fun a b => a.attr.start ≤ b.attr.start

theorem mem_attrsInOrder {items : List Item} {attr : StyleAttr} :
    attr ∈ attrsInOrder items ↔ .style attr ∈ items := by
  rw [attrsInOrder,List.mem_mergeSort,List.mem_filterMap]
  constructor
  · rintro ⟨item,member,found⟩
    cases item with
    | style attr =>
      cases found
      exact member
    | warning found => contradiction
  · exact fun member => ⟨.style attr,member,rfl⟩

theorem pairwise_attrsInOrder (items : List Item) :
    (attrsInOrder items).Pairwise fun before after => before.attr.start ≤ after.attr.start := by
  have sorted : (attrsInOrder items).Pairwise fun before after => decide (before.attr.start ≤ after.attr.start) = true := by
    apply List.pairwise_mergeSort
    · intro a b c
      simp only [decide_eq_true_eq]
      omega
    · intro a b
      simp only [Bool.or_eq_true,decide_eq_true_eq]
      omega
  exact sorted.imp of_decide_eq_true

theorem attrsInOrder_scan (document : Text) : attrsInOrder (scan document) = styleAttrs document := by
  apply List.mergeSort_of_pairwise
  exact (ordered_styleAttrs document).imp decide_eq_true

section

variable {document : Text} {items : List Item} {registry last : Registry} {outcome : Outcome}

theorem hoistItems_eq (document : Text) (items : List Item) (registry : Registry) :
    hoistItems document items registry =
      match (Plan.start registry).addAll document (attrsInOrder items) with
      | (plan,some obstacle) => (.error obstacle,plan.registry)
      | (plan,none) =>
        match assemble? document document 0 0 plan.edits.reverse with
        | none => (.error .outside,plan.registry)
        | some (text,edits) => (.ok ⟨text,edits,plan.allocated,plan.reused,plan.stripped,
            items.filterMap Item.warning? ++ plan.overlaps⟩,plan.registry) := rfl

theorem hoistItems_eq_ok (hoisted : hoistItems document items registry = (.ok outcome,last)) :
    ∃ plan, (Plan.start registry).addAll document (attrsInOrder items) = (plan,none) ∧
      assemble? document document 0 0 plan.edits.reverse = some (outcome.text,outcome.edits) ∧
      outcome = ⟨outcome.text,outcome.edits,plan.allocated,plan.reused,plan.stripped,
        items.filterMap Item.warning? ++ plan.overlaps⟩ ∧ last = plan.registry := by
  rw [hoistItems_eq] at hoisted
  split at hoisted
  next => simp at hoisted
  next plan planned =>
    split at hoisted
    next => simp at hoisted
    next text edits assembled =>
      simp only [Prod.mk.injEq,Except.ok.injEq] at hoisted
      obtain ⟨rfl,rfl⟩ := hoisted
      exact ⟨plan,planned,assembled,rfl,rfl⟩

theorem hoist_eq (document : Text) (registry : Registry) : hoist document registry =
    match (Plan.start registry).addAll document (styleAttrs document) with
    | (plan,some obstacle) => (.error obstacle,plan.registry)
    | (plan,none) =>
      match assemble? document document 0 0 plan.edits.reverse with
      | none => (.error .outside,plan.registry)
      | some (text,edits) =>
        (.ok ⟨text,edits,plan.allocated,plan.reused,plan.stripped,
          (scan document).filterMap Item.warning? ++ plan.overlaps⟩,plan.registry) := by
  rw [hoist,hoistItems_eq,attrsInOrder_scan]

theorem hoist_of_scan {attrs : List StyleAttr} {plan : Plan} {text : Text} {edits : List AppliedEdit}
    (scanned : scan document = attrs.map .style) (planned : (Plan.start registry).addAll document attrs = (plan,none))
    (assembled : assemble? document document 0 0 plan.edits.reverse = some (text,edits)) :
    hoist document registry =
      (.ok ⟨text,edits,plan.allocated,plan.reused,plan.stripped,plan.overlaps⟩,plan.registry) := by
  have found : styleAttrs document = attrs := by
    rw [styleAttrs,scanned,List.filterMap_map]
    exact List.filterMap_some
  have unwarned : (scan document).filterMap Item.warning? = [] := by
    rw [scanned,List.filterMap_map]
    exact List.filterMap_eq_nil_iff.mpr fun _ _ => rfl
  rw [hoist_eq,found,planned]
  simp only [assembled,unwarned,List.nil_append]

theorem hoist_eq_ok (hoisted : hoist document registry = (.ok outcome,last)) :
    ∃ plan, (Plan.start registry).addAll document (styleAttrs document) = (plan,none) ∧
      assemble? document document 0 0 plan.edits.reverse = some (outcome.text,outcome.edits) ∧
      outcome = ⟨outcome.text,outcome.edits,plan.allocated,plan.reused,plan.stripped,
        (scan document).filterMap Item.warning? ++ plan.overlaps⟩ ∧ last = plan.registry := by
  rw [← attrsInOrder_scan]
  exact hoistItems_eq_ok hoisted

end

theorem TagEdit.render?_of_pairwise {document text : Text} {edit : TagEdit} {changes : List Change}
    (whole : Text.slice? document edit.tag = some text) (found : edit.changes? document = some changes)
    (sorted : changes.Pairwise fun first second => Change.precedes first second = true) : edit.render? document =
      changes.foldlM (fun text change => Text.splice? text change.span change.replacement) text := by
  simp only [render?,whole,found,Option.bind_eq_bind,Option.bind_some,List.mergeSort_of_pairwise sorted]

theorem TagEdit.render?_of_singleton {document text : Text} {edit : TagEdit} {change : Change}
    (whole : Text.slice? document edit.tag = some text) (changes : edit.changes? document = some [change]) :
    edit.render? document = Text.splice? text change.span change.replacement := by
  rw [render?_of_pairwise whole changes (List.pairwise_singleton _ _),List.foldlM_cons]
  exact Option.bind_fun_some _

theorem assemble?_of_render? {document rest between behind through after replacement tail : Text}
    {offset written : Nat} {edit : TagEdit} {later : List TagEdit} {others : List AppliedEdit}
    (start : Text.cut? rest (edit.tag.start - offset) = some (between,behind))
    (stop : Text.cut? rest (edit.tag.stop - offset) = some (through,after))
    (rendered : edit.render? document = some replacement)
    (followed : assemble? document after edit.tag.stop
      (written + Text.byteSize between + Text.byteSize replacement) later = some (tail,others)) :
    assemble? document rest offset written (edit :: later) = some (between ++ replacement ++ tail,
      ⟨edit.tag,⟨written + Text.byteSize between,
        written + Text.byteSize between + Text.byteSize replacement⟩,edit.add⟩ :: others) := by
  simp only [assemble?,start,stop,rendered,followed,Option.bind_eq_bind,Option.bind_some]

/-- A tag behind some text is exchanged where it stands. -/
theorem assemble?_append {document front between tag after replacement tail : Text} {written : Nat} {edit : TagEdit}
    {later : List TagEdit} {others : List AppliedEdit} (start : edit.tag.start = Text.byteSize (front ++ between))
    (stop : edit.tag.stop = Text.byteSize (front ++ between ++ tag)) (rendered : edit.render? document = some replacement)
    (followed : assemble? document after (Text.byteSize (front ++ between ++ tag))
      (written + Text.byteSize between + Text.byteSize replacement) later = some (tail,others)) :
    assemble? document (between ++ (tag ++ after)) (Text.byteSize front) written (edit :: later) =
      some (between ++ replacement ++ tail,⟨edit.tag,⟨written + Text.byteSize between,
        written + Text.byteSize between + Text.byteSize replacement⟩,edit.add⟩ :: others) := by
  rw [← stop] at followed
  simp only [Text.byteSize_append] at start stop
  have before : Text.cut? (between ++ (tag ++ after)) (edit.tag.start - Text.byteSize front) =
      some (between,tag ++ after) := Text.cut?_eq_some.mpr ⟨rfl,by omega⟩
  have behind : Text.cut? (between ++ (tag ++ after)) (edit.tag.stop - Text.byteSize front) =
      some (between ++ tag,after) := Text.cut?_eq_some.mpr ⟨by simp,by rw [Text.byteSize_append]; omega⟩
  exact assemble?_of_render? before behind rendered followed

theorem hoist_of_lone {document text : Text} {registry : Registry} {attrs : List StyleAttr} {plan : Plan}
    {edit : TagEdit} (scanned : scan document = attrs.map .style)
    (planned : (Plan.start registry).addAll document attrs = (plan,none)) (lone : plan.edits = [edit])
    (whole : edit.tag = ⟨0,Text.byteSize document⟩) (rendered : edit.render? document = some text) :
    hoist document registry = (.ok ⟨text,[⟨edit.tag,⟨0,Text.byteSize text⟩,edit.add⟩],plan.allocated,plan.reused,
      plan.stripped,plan.overlaps⟩,plan.registry) := by
  have start : Text.cut? document (edit.tag.start - 0) = some ([],document) := by
    rw [whole]
    exact Text.cut?_eq_some.mpr ⟨rfl,rfl⟩
  have stop : Text.cut? document (edit.tag.stop - 0) = some (document,[]) := by
    rw [whole]
    exact Text.cut?_eq_some.mpr ⟨(List.append_nil _).symm,rfl⟩
  have none : assemble? document [] edit.tag.stop (0 + Text.byteSize [] + Text.byteSize text) [] = some ([],[]) := rfl
  have made := assemble?_of_render? start stop rendered none
  rw [List.nil_append,List.append_nil,Text.byteSize_nil,Nat.zero_add,Nat.zero_add] at made
  refine hoist_of_scan scanned planned ?_
  rw [lone]
  exact made

theorem map_assemble? {document rest text : Text} {offset written : Nat} {edits : List TagEdit}
    {applied : List AppliedEdit}
    (assembled : assemble? document rest offset written edits = some (text,applied)) :
    applied.map (fun edit => (edit.source,edit.classes)) = edits.map (fun edit => (edit.tag,edit.add)) := by
  induction edits generalizing rest offset written text applied with
  | nil =>
    cases assembled
    rfl
  | cons edit later ih =>
    simp only [assemble?,Option.bind_eq_bind,Option.bind_eq_some_iff] at assembled
    obtain ⟨between,-,after,-,replacement,-,⟨tail,others⟩,followed,same⟩ := assembled
    cases same
    rw [List.map_cons,List.map_cons,ih followed]

theorem rendered_of_assemble? {document rest text : Text} {offset written : Nat} {edits : List TagEdit}
    {applied : List AppliedEdit}
    (assembled : assemble? document rest offset written edits = some (text,applied)) :
    ∀ edit ∈ edits, ∃ result, edit.render? document = some result := by
  induction edits generalizing rest offset written text applied with
  | nil => exact fun _ member => absurd member List.not_mem_nil
  | cons edit later ih =>
    simp only [assemble?,Option.bind_eq_bind,Option.bind_eq_some_iff] at assembled
    obtain ⟨between,-,after,-,replacement,rendered,⟨tail,others⟩,followed,-⟩ := assembled
    intro other member
    rcases List.mem_cons.mp member with rfl | member
    · exact ⟨replacement,rendered⟩
    · exact ih followed other member

theorem text_of_not_changed {document : Text} {registry last : Registry} {outcome : Outcome}
    (hoisted : hoist document registry = (.ok outcome,last)) (unchanged : outcome.changed = false) :
    outcome.text = document := by
  obtain ⟨plan,-,assembled,-,-⟩ := hoist_eq_ok hoisted
  have none : outcome.edits = [] :=
    List.isEmpty_iff.mp (by simpa only [Outcome.changed,Bool.not_eq_false'] using unchanged)
  have few := map_assemble? assembled
  rw [none,List.map_nil,eq_comm,List.map_eq_nil_iff] at few
  rw [few,assemble?,none] at assembled
  exact (congrArg Prod.fst (Option.some.inj assembled)).symm

end StyleHoist.Markup
