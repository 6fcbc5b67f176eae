import Mathlib.Data.List.Forall2
import StyleHoist.Proofs.Markup.Hoisting
import StyleHoist.Proofs.Markup.Naming
import StyleHoist.Proofs.Markup.Scanning
import StyleHoist.Proofs.Text.Place

/-! The pass over a document that puts its edited tags in place. What lies between the
tags is copied, and each tag moves by what the tags before it have gained or lost. An
attribute is in the edit of its tag, or a warning says that its tag overlaps one edited. -/
namespace StyleHoist.Markup

open Text

/-- What lies before, between and behind spans, from an offset to the end. -/
def gaps (offset size : Nat) : List Span → List Span
  | [] => [⟨offset,size⟩]
  | span :: rest => ⟨offset,span.start⟩ :: gaps span.stop size rest

/-- The same characters stand in a span of one text and in one of another. -/
def Copied (document text : Text) (source target : Span) : Prop :=
  ∃ part, slice? document source = some part ∧ slice? text target = some part

/-- The edit of a tag as it is applied. -/
structure Applies (document text : Text) (edit : TagEdit) (applied : AppliedEdit) : Prop where
  source : applied.source = edit.tag
  classes : applied.classes = edit.add
  target : ∃ replacement, edit.render? document = some replacement ∧ slice? text applied.target = some replacement

/-- What an edit adds to the length of a text. -/
def AppliedEdit.growth (edit : AppliedEdit) : Int :=
  (edit.target.stop - edit.target.start : Int) - (edit.source.stop - edit.source.start : Int)

/-- What edits add to the length of a text, all together. -/
def growthOf : List AppliedEdit → Int
  | [] => 0
  | edit :: rest => edit.growth + growthOf rest

/-- A text written from a document, from an offset of each on. -/
structure Carried (document text : Text) (offset written : Nat) (edits : List TagEdit)
    (applied : List AppliedEdit) : Prop where
  kept : List.Forall₂ (Copied document text) (gaps offset (byteSize document) (applied.map (·.source)))
    (gaps written (byteSize text) (applied.map (·.target)))
  rendered : List.Forall₂ (Applies document text) edits applied
  shifted : ∀ earlier edit later, applied = earlier ++ edit :: later →
    (edit.target.start : Int) = edit.source.start + (written - offset : Int) + growthOf earlier

theorem copied_middle (front back output tail part : Text) :
    Copied (front ++ part ++ back) (output ++ part ++ tail) ⟨byteSize front,byteSize (front ++ part)⟩
      ⟨byteSize output,byteSize (output ++ part)⟩ :=
  ⟨part,slice?_eq_some.mpr ⟨front,back,rfl,rfl,(byteSize_append _ _).symm⟩,
    slice?_eq_some.mpr ⟨output,tail,rfl,rfl,(byteSize_append _ _).symm⟩⟩

theorem assemble?_cons {edit : TagEdit} {later : List TagEdit} {document front rest output text : Text}
    {applied : List AppliedEdit}
    (assembled : assemble? document rest (byteSize front) (byteSize output) (edit :: later) = some (text,applied))
    (reached : byteSize front ≤ edit.tag.start) (wide : edit.tag.start ≤ edit.tag.stop) :
    ∃ between tag after replacement tail others, rest = between ++ (tag ++ after) ∧
      edit.tag = ⟨byteSize (front ++ between),byteSize (front ++ between ++ tag)⟩ ∧
      edit.render? document = some replacement ∧ text = between ++ (replacement ++ tail) ∧
      applied = ⟨edit.tag,⟨byteSize (output ++ between),byteSize (output ++ between ++ replacement)⟩,edit.add⟩ :: others ∧
      assemble? document after (byteSize (front ++ between ++ tag)) (byteSize (output ++ between ++ replacement)) later =
        some (tail,others) := by
  simp only [assemble?,Option.bind_eq_bind,Option.bind_eq_some_iff] at assembled
  obtain ⟨⟨between,behind⟩,start,⟨through,after⟩,stop,replacement,rendered,⟨tail,others⟩,done,same⟩ := assembled
  cases same
  obtain ⟨rfl,startSize⟩ := cut?_eq_some.mp start
  obtain ⟨split,stopSize⟩ := cut?_eq_some.mp stop
  obtain ⟨tag,rfl,rfl⟩ := eq_append_of_byteSize_le split (by omega)
  rw [byteSize_append] at stopSize
  have first : edit.tag.start = byteSize (front ++ between) := by
    rw [byteSize_append]
    omega
  have last : edit.tag.stop = byteSize (front ++ between ++ tag) := by
    rw [byteSize_append,byteSize_append]
    omega
  refine ⟨between,tag,after,replacement,tail,others,rfl,by rw [← first,← last],rendered,by simp,by simp [Nat.add_assoc],?_⟩
  rw [last] at done
  simpa [Nat.add_assoc] using done

theorem carried_of_assemble? {edits : List TagEdit} (front output : Text) {rest text : Text} {applied : List AppliedEdit}
    (assembled : assemble? (front ++ rest) rest (byteSize front) (byteSize output) edits = some (text,applied))
    (forward : ∀ edit ∈ edits, byteSize front ≤ edit.tag.start ∧ edit.tag.start ≤ edit.tag.stop)
    (ordered : edits.Pairwise fun first second => first.tag.stop ≤ second.tag.start) :
    Carried (front ++ rest) (output ++ text) (byteSize front) (byteSize output) edits applied := by
  induction edits generalizing front rest output text applied with
  | nil =>
    cases assembled
    have copied := copied_middle front [] output [] rest
    simp only [List.append_nil] at copied
    exact ⟨.cons copied .nil,.nil,fun earlier edit later split => by simp at split⟩
  | cons edit later ih =>
    obtain ⟨before,others⟩ := List.pairwise_cons.mp ordered
    obtain ⟨reached,wide⟩ := forward edit List.mem_cons_self
    obtain ⟨between,tag,after,replacement,tail,applied,rfl,place,rendered,rfl,rfl,done⟩ :=
      assemble?_cons assembled reached wide
    have whole : front ++ (between ++ (tag ++ after)) = front ++ between ++ tag ++ after := by simp
    have made : output ++ (between ++ (replacement ++ tail)) = output ++ between ++ replacement ++ tail := by simp
    rw [whole] at done rendered ⊢
    rw [made]
    obtain ⟨kept,applies,shifted⟩ := ih (front ++ between ++ tag) (output ++ between ++ replacement) done
      (fun other member => ⟨by simpa only [place] using before other member,
        (forward other (List.mem_cons_of_mem _ member)).2⟩) others
    refine ⟨?_,.cons ⟨rfl,rfl,replacement,rendered,?_⟩ applies,fun earlier other rest split => ?_⟩
    · rw [List.map_cons,List.map_cons,gaps,gaps,place]
      have copied := copied_middle front (tag ++ after) output (replacement ++ tail) between
      rw [← List.append_assoc,← List.append_assoc] at copied
      exact .cons copied kept
    · exact slice?_eq_some.mpr ⟨output ++ between,tail,by simp,rfl,(byteSize_append _ _).symm⟩
    · cases earlier with
      | nil =>
        cases split
        simp only [place,byteSize_append,growthOf]
        omega
      | cons first earlier =>
        cases split
        have moved := shifted earlier other rest rfl
        simp only [growthOf,AppliedEdit.growth,place]
        simp only [byteSize_append] at moved ⊢
        omega

/-- A warning that an attribute is left alone. -/
def Reports (document : Text) (attr : StyleAttr) (warning : Warning) : Prop :=
  ∃ position, Position.locate? document attr.attr.start = some position ∧ warning = ⟨.unbounded,position⟩

/-- Attributes whose tag is not among some tags. -/
def leftAlone (tags : List Span) (attrs : List StyleAttr) : List StyleAttr :=
  attrs.filter (·.tag ∉ tags)

/-- One step of planning, as far as tags and their attributes go. -/
theorem Plan.add_edits {document : Text} {plan next : Plan} {attr : StyleAttr}
    (added : plan.add document attr = .ok next) :
    (place? plan.edits attr = none ∧ next.edits = plan.edits ∧
        ∃ warning, Reports document attr warning ∧ next.overlaps = plan.overlaps ++ [warning]) ∨
      ∃ edit older filled, place? plan.edits attr = some (edit,older) ∧ next.edits = filled :: older ∧
        filled.tag = edit.tag ∧ filled.styles = edit.styles ∧ filled.classAttr = edit.classAttr ∧
        next.overlaps = plan.overlaps := by
  rcases add_cases added with ⟨unplaced,position,located,rfl⟩ | ⟨edit,older,placed,assigned⟩
  · exact .inl ⟨unplaced,rfl,_,⟨position,located,rfl⟩,rfl⟩
  · refine .inr ⟨edit,older,?_⟩
    rcases assign_cases assigned with ⟨-,rfl⟩ | ⟨-,allocation,registry,-,rfl⟩
    · exact ⟨edit,placed,rfl,rfl,rfl,rfl,rfl⟩
    · exact ⟨edit.addClass allocation.id,placed,rfl,TagEdit.addClass_tag _ _,TagEdit.addClass_styles _ _,
        TagEdit.addClass_classAttr _ _,rfl⟩

/-- A plan after some attributes: each is in the edit of its tag, or there is a warning for it. -/
structure Reported (document : Text) (read : List StyleAttr) (plan : Plan) : Prop where
  grouped : Grouped read plan.edits
  headed : ∀ edit ∈ plan.edits, edit.Headed
  reported : List.Forall₂ (Reports document) (leftAlone (tagsOf plan.edits) read) plan.overlaps

namespace Reported

variable {document : Text} {read : List StyleAttr} {plan next : Plan} {attr : StyleAttr} {edit : TagEdit}

theorem start (document : Text) (registry : Registry) : Reported document [] (Plan.start registry) :=
  ⟨Grouped.none,fun _ member => absurd member List.not_mem_nil,.nil⟩

theorem leftAlone_place {older : List TagEdit} (grouped : Grouped read plan.edits)
    (follows : Follows read attr) (placed : Plan.place? plan.edits attr = some (edit,older)) :
    leftAlone (tagsOf (edit :: older)) (read ++ [attr]) = leftAlone (tagsOf plan.edits) read := by
  obtain ⟨-,more⟩ := grouped.place follows placed
  have taken : attr.tag ∈ tagsOf (edit :: older) := by
    have member : attr ∈ applied (tagsOf (edit :: older)) (read ++ [attr]) := by simp [more]
    simpa [applied] using (List.mem_filter.mp member).2
  have same : applied (tagsOf (edit :: older)) read = applied (tagsOf plan.edits) read := by
    rw [applied,List.filter_append,List.filter_singleton,decide_eq_true taken] at more
    exact List.append_cancel_right more
  rw [leftAlone,List.filter_append,List.filter_singleton,decide_eq_false (not_not.mpr taken),cond_false,
    List.append_nil]
  refine List.filter_congr fun other member => ?_
  have both : other ∈ applied (tagsOf (edit :: older)) read ↔ other ∈ applied (tagsOf plan.edits) read := by rw [same]
  simp only [applied,List.mem_filter,member,true_and,decide_eq_true_eq] at both
  simp only [both]

theorem add (known : Reported document read plan) (follows : Follows read attr)
    (added : plan.add document attr = .ok next) : Reported document (read ++ [attr]) next := by
  rcases Plan.add_edits added with ⟨unplaced,edits,warning,reports,overlaps⟩ |
    ⟨edit,older,filled,placed,edits,tag,styles,classAttr,overlaps⟩
  · obtain ⟨grouped,other⟩ := known.grouped.skip follows unplaced
    rw [← edits] at grouped other
    refine ⟨grouped,edits ▸ known.headed,?_⟩
    rw [leftAlone,List.filter_append,List.filter_singleton,decide_eq_true other,overlaps,edits]
    exact List.rel_append known.reported (.cons reports .nil)
  · obtain ⟨grouped,-⟩ := known.grouped.place follows placed
    have headed := Plan.headed_place known.headed placed
    refine ⟨edits ▸ grouped.rename tag styles,fun other member => ?_,?_⟩
    · rw [edits] at member
      rcases List.mem_cons.mp member with rfl | earlier
      · obtain ⟨style,among,same⟩ := headed edit List.mem_cons_self
        exact ⟨style,styles ▸ among,classAttr.trans same⟩
      · exact headed other (List.mem_cons_of_mem _ earlier)
    · have tags : tagsOf next.edits = tagsOf (edit :: older) := by rw [edits,tagsOf,tagsOf,List.map_cons,List.map_cons,tag]
      rw [tags,leftAlone_place known.grouped follows placed,overlaps]
      exact known.reported

theorem of_addAll {registry : Registry} {attrs : List StyleAttr} (located : ∀ attr ∈ attrs, Located document attr)
    (ordered : attrs.Pairwise fun before after => before.attr.start ≤ after.attr.start)
    (planned : (Plan.start registry).addAll document attrs = (plan,none)) : Reported document attrs plan :=
  Plan.holds_of_ordered (fun follows added known => known.add follows added) (start document registry)
    located ordered planned

theorem exists_style (known : Reported document read plan) (member : edit ∈ plan.edits) :
    ∃ style ∈ read, style.tag = edit.tag ∧ edit.classAttr = style.classAttr := by
  obtain ⟨style,among,same⟩ := known.headed edit member
  rw [(known.grouped.filled edit member).2,List.mem_filter,decide_eq_true_eq] at among
  exact ⟨style,among.1,among.2,same⟩

end Reported

/-- What becomes of an attribute: it is in the one edit of its tag, or a warning takes its place
because its tag is another than one that is edited and overlaps that one. -/
inductive Accounted (document : Text) (plan : Plan) (attr : StyleAttr) : Prop
  | grouped {edit : TagEdit} (member : edit ∈ plan.edits) (tag : edit.tag = attr.tag) (inside : attr ∈ edit.styles)
      (only : ∀ other ∈ plan.edits, other.tag = attr.tag ∨ attr ∈ other.styles → other = edit)
  | reported {edit : TagEdit} {warning : Warning} (member : edit ∈ plan.edits) (differs : edit.tag ≠ attr.tag)
      (overlaps : attr.tag.start < edit.tag.stop ∧ edit.tag.start < attr.tag.stop)
      (alone : ∀ other ∈ plan.edits, other.tag ≠ attr.tag ∧ attr ∉ other.styles)
      (added : warning ∈ plan.overlaps) (reports : Reports document attr warning)

/-- What is left alone is warned of, in the order of the document. -/
structure Passed (document : Text) (items : List Item) (plan : Plan) (outcome : Outcome) : Prop where
  wide : ∀ edit ∈ outcome.edits, edit.source.start < edit.source.stop
  apart : outcome.edits.Pairwise fun first second => first.source.stop ≤ second.source.start
  carried : Carried document outcome.text 0 0 plan.edits.reverse outcome.edits
  grouped : ∀ edit ∈ plan.edits, edit.styles = (attrsInOrder items).filter (·.tag = edit.tag)
  accounted : ∀ attr, .style attr ∈ items → Accounted document plan attr
  warned : outcome.warnings = items.filterMap Item.warning? ++ plan.overlaps ∧
    List.Forall₂ (Reports document) (leftAlone (tagsOf plan.edits) (attrsInOrder items)) plan.overlaps

theorem Reported.accounted {document : Text} {read : List StyleAttr} {plan : Plan} {attr : StyleAttr}
    (known : Reported document read plan) (wide : ∀ edit ∈ plan.edits, edit.tag.start < edit.tag.stop)
    (member : attr ∈ read) : Accounted document plan attr := by
  have own {edit : TagEdit} (among : edit ∈ plan.edits) : attr ∈ edit.styles ↔ edit.tag = attr.tag := by
    rw [(known.grouped.filled edit among).2,List.mem_filter,decide_eq_true_eq,eq_comm]
    exact and_iff_right member
  by_cases taken : attr.tag ∈ tagsOf plan.edits
  · obtain ⟨edit,among,tag⟩ := List.mem_map.mp taken
    refine .grouped among tag ((own among).mpr tag) fun other another same => ?_
    have same : other.tag = edit.tag := tag ▸ same.elim id (own another).mp
    have forward := wide edit among
    rcases eq_or_of_pairwise known.grouped.ordered another among with equal | later | earlier
    · exact equal
    · rw [same] at later
      omega
    · rw [same] at earlier
      omega
  · obtain ⟨edit,among,overlaps⟩ := known.grouped.covered attr member
    have alone (other : TagEdit) (another : other ∈ plan.edits) : other.tag ≠ attr.tag :=
      fun same => taken (List.mem_map.mpr ⟨other,another,same⟩)
    have left : attr ∈ leftAlone (tagsOf plan.edits) read := by
      rw [leftAlone,List.mem_filter,decide_eq_true_eq]
      exact ⟨member,taken⟩
    obtain ⟨warning,added,reports⟩ := exists_of_forall₂ known.reported attr left
    exact .reported among (alone edit among) overlaps
      (fun other another => ⟨alone other another,fun inside => alone other another ((own another).mp inside)⟩) added reports

/-- However many of the items of a scan are given and in whatever order, the tags that are edited
are put in place in one pass. -/
theorem passed_of_hoistItems {document : Text} {items : List Item} {registry last : Registry} {outcome : Outcome}
    (found : ∀ item ∈ items, item ∈ scan document)
    (hoisted : hoistItems document items registry = (.ok outcome,last)) :
    ∃ plan, (Plan.start registry).addAll document (attrsInOrder items) = (plan,none) ∧
      Passed document items plan outcome := by
  obtain ⟨plan,planned,assembled,whole,-⟩ := hoistItems_eq_ok hoisted
  have located (attr : StyleAttr) (member : attr ∈ attrsInOrder items) : Located document attr :=
    located_of_mem_styleAttrs (List.mem_filterMap.mpr ⟨.style attr,found _ (mem_attrsInOrder.mp member),rfl⟩)
  have known := Reported.of_addAll located (pairwise_attrsInOrder items) planned
  have wide (edit : TagEdit) (member : edit ∈ plan.edits) : edit.tag.start < edit.tag.stop := by
    obtain ⟨style,among,same,-⟩ := known.exists_style member
    have inside := (located style among).inside
    rw [same] at inside
    omega
  have ordered := List.pairwise_reverse.mpr known.grouped.ordered
  -- the plan holds its edits back to front
  have carried := carried_of_assemble? [] [] assembled
    (fun edit member => ⟨Nat.zero_le _,Nat.le_of_lt (wide edit (List.mem_reverse.mp member))⟩) ordered
  have sources : outcome.edits.map (·.source) = plan.edits.reverse.map (·.tag) := by
    have mapped := congrArg (List.map Prod.fst) (map_assemble? assembled)
    simpa only [List.map_map,Function.comp_def] using mapped
  refine ⟨plan,planned,fun edit member => ?_,?_,carried,fun edit member => (known.grouped.filled edit member).2,
    fun attr member => known.accounted wide (mem_attrsInOrder.mpr member),congrArg Outcome.warnings whole,known.reported⟩
  · have among : edit.source ∈ plan.edits.reverse.map (·.tag) := sources ▸ List.mem_map_of_mem member
    obtain ⟨own,member,same⟩ := List.mem_map.mp among
    rw [← same]
    exact wide own (List.mem_reverse.mp member)
  · have apart : (outcome.edits.map (·.source)).Pairwise fun first second => first.stop ≤ second.start := by
      rw [sources,List.pairwise_map]
      exact ordered
    exact List.pairwise_map.mp apart

/-- A tag with a style, a second style within a quoted value of it, and another tag with a style. -/
def nestedText : Text := "<p style=\"\" title=' style=\"\" '>x' ><b style=\"\">".toList

def nestedItems : List Item :=
  [.style ⟨⟨3,11⟩,⟨10,10⟩,⟨0,31⟩,none⟩,.style ⟨⟨20,28⟩,⟨27,27⟩,⟨0,35⟩,none⟩,.style ⟨⟨38,46⟩,⟨45,45⟩,⟨35,47⟩,none⟩]

theorem scan_nested : scan nestedText = nestedItems := by
  have opened : nestedText = "<p ".toList ++ (styleOpen ++ ([] ++ '"' :: (" title=' ".toList ++
      (styleOpen ++ ([] ++ '"' :: (" '>x' ><b ".toList ++ (styleOpen ++ ([] ++ '"' :: ['>'])))))))) := rfl
  rw [scan,opened,scanFrom_ne (show ∀ c ∈ "<p ".toList, c ≠ 's' by simp),scanFrom_value rfl rfl,
    scanFrom_ne (show ∀ c ∈ " title=' ".toList, c ≠ 's' by simp),scanFrom_value rfl rfl,
    scanFrom_ne (show ∀ c ∈ " '>x' ><b ".toList, c ≠ 's' by simp),scanFrom_value rfl rfl,scanFrom_cons rfl,scanFrom_nil]
  rfl

def nestedPlan : Plan where
  edits := [⟨⟨35,47⟩,[⟨⟨38,46⟩,⟨45,45⟩,⟨35,47⟩,none⟩],none,[]⟩,⟨⟨0,31⟩,[⟨⟨3,11⟩,⟨10,10⟩,⟨0,31⟩,none⟩],none,[]⟩]
  registry := Registry.empty "inl-".toList
  allocated := []
  reused := 0
  stripped := 2
  overlaps := [⟨.unbounded,⟨20,1,21⟩⟩]

def nestedOutcome : Outcome where
  text := "<p title=' style=\"\" '>x' ><b>".toList
  edits := [⟨⟨0,31⟩,⟨0,22⟩,[]⟩,⟨⟨35,47⟩,⟨26,29⟩,[]⟩]
  allocated := []
  reused := 0
  stripped := 2
  warnings := [⟨.unbounded,⟨20,1,21⟩⟩]

theorem hoistItems_nested : hoistItems nestedText nestedItems (Registry.empty "inl-".toList) =
    (.ok nestedOutcome,Registry.empty "inl-".toList) := by
  have ordered : attrsInOrder nestedItems = nestedItems.filterMap Item.style? := by
    rw [← scan_nested,attrsInOrder_scan]
    rfl
  have planned : (Plan.start (Registry.empty "inl-".toList)).addAll nestedText (nestedItems.filterMap Item.style?) =
      (nestedPlan,none) := by decide
  have first : (⟨⟨0,31⟩,[⟨⟨3,11⟩,⟨10,10⟩,⟨0,31⟩,none⟩],none,[]⟩ : TagEdit).render? nestedText =
      some "<p title=' style=\"\" '>".toList :=
    TagEdit.render?_of_singleton (show _ = some "<p style=\"\" title=' style=\"\" '>".toList by decide)
      (show _ = some [⟨⟨2,11⟩,[]⟩] by decide)
  have second : (⟨⟨35,47⟩,[⟨⟨38,46⟩,⟨45,45⟩,⟨35,47⟩,none⟩],none,[]⟩ : TagEdit).render? nestedText = some "<b>".toList :=
    TagEdit.render?_of_singleton (show _ = some "<b style=\"\">".toList by decide) (show _ = some [⟨⟨2,11⟩,[]⟩] by decide)
  have copied : assemble? nestedText "x' ><b style=\"\">".toList 31 22
      [⟨⟨35,47⟩,[⟨⟨38,46⟩,⟨45,45⟩,⟨35,47⟩,none⟩],none,[]⟩] =
      some ("x' ><b>".toList,[⟨⟨35,47⟩,⟨26,29⟩,[]⟩]) :=
    assemble?_of_render? (show _ = some ("x' >".toList,"<b style=\"\">".toList) by decide)
      (show _ = some ("x' ><b style=\"\">".toList,[]) by decide) second rfl
  have assembled : assemble? nestedText nestedText 0 0 nestedPlan.edits.reverse =
      some (nestedOutcome.text,nestedOutcome.edits) :=
    assemble?_of_render? (show _ = some ([],nestedText) by decide)
      (show _ = some ("<p style=\"\" title=' style=\"\" '>".toList,"x' ><b style=\"\">".toList) by decide) first copied
  rw [hoistItems_eq,ordered,planned]
  simp only [assembled]
  rfl

/-- All items of a document, of which one is left alone. -/
theorem passed_of_hoistItems_nested : (∀ item ∈ nestedItems, item ∈ scan nestedText) ∧
    hoistItems nestedText nestedItems (Registry.empty "inl-".toList) =
      (.ok nestedOutcome,Registry.empty "inl-".toList) ∧
    ∃ plan, (Plan.start (Registry.empty "inl-".toList)).addAll nestedText (attrsInOrder nestedItems) = (plan,none) ∧
      Passed nestedText nestedItems plan nestedOutcome := by
  have found : ∀ item ∈ nestedItems, item ∈ scan nestedText := fun item member => scan_nested.symm ▸ member
  exact ⟨found,hoistItems_nested,passed_of_hoistItems found hoistItems_nested⟩

end StyleHoist.Markup
