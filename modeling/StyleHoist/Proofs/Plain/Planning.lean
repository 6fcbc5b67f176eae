import StyleHoist.Proofs.Markup.Continuation
import StyleHoist.Proofs.Plain.Pieces

/-! The plan for a plain document. Each tag with style attributes gets an edit of
its own, whose classes are those that its declarations are given in turn. -/
namespace StyleHoist.Markup

open Text

section Located

variable {tag : Span} {classAttr : Option ClassAttr}

theorem eq_of_mem_locateStyles {offset : Nat} {attributes : List Attribute} {style : StyleAttr}
    (member : style ∈ locateStyles tag classAttr offset attributes) :
    style.tag = tag ∧ style.classAttr = classAttr := by
  induction attributes generalizing offset with
  | nil => contradiction
  | cons attr rest ih =>
    rw [locateStyles] at member
    split at member
    · rcases List.mem_cons.mp member with rfl | later
      · exact ⟨rfl,rfl⟩
      · exact ih later
    · exact ih member

theorem isStyle_of_locateStyles_nil {offset : Nat} {attributes : List Attribute}
    (none : locateStyles tag classAttr offset attributes = []) :
    ∀ attr ∈ attributes, attr.isStyle = false := by
  induction attributes generalizing offset with
  | nil => simp
  | cons attr rest ih =>
    rw [locateStyles] at none
    split at none
    next => contradiction
    next other =>
      intro one member
      rcases List.mem_cons.mp member with rfl | later
      · simpa using other
      · exact ih none one later

theorem Attribute.slice?_valueSpan {attr : Attribute} {value : Text} (valued : attr.value = some value)
    (front back : Text) :
    slice? (front ++ attr.print ++ back) (attr.valueSpan (byteSize front)) = some value := by
  rw [slice?_eq_some]
  refine ⟨front ++ attr.space ++ attr.name ++ ['=','"'],'"' :: back,?_,?_,?_⟩
  · simp [Attribute.print_of_some valued]
  · simp only [Attribute.valueSpan,byteSize_append,byteSize_cons,byteSize_nil,utf8Size_equals,utf8Size_quote]
  · simp only [Attribute.valueSpan,Attribute.byteSize_print valued,byteSize_append,byteSize_cons,
      byteSize_nil,utf8Size_equals,utf8Size_quote]
    omega

theorem map_slice?_locateStyles {attributes : List Attribute}
    (formed : ∀ attr ∈ attributes, attr.Formed) (front back : Text) :
    (locateStyles tag classAttr (byteSize front) attributes).map (fun style =>
        slice? (front ++ attributes.flatMap Attribute.print ++ back) style.value) =
      ((attributes.filter Attribute.isStyle).filterMap (·.value)).map some := by
  induction attributes generalizing front with
  | nil => rfl
  | cons attr rest ih =>
    have later := ih (fun other member => formed other (List.mem_cons_of_mem _ member)) (front ++ attr.print)
    have whole : front ++ (attr :: rest).flatMap Attribute.print ++ back =
        front ++ attr.print ++ rest.flatMap Attribute.print ++ back := by simp
    rw [byteSize_append] at later
    rw [whole,locateStyles]
    cases named : attr.isStyle with
    | false =>
      rw [if_neg Bool.false_ne_true,later,List.filter_cons_of_neg (by rw [named]; decide)]
    | true =>
      obtain ⟨value,valued⟩ := (formed attr List.mem_cons_self).exists_value (.inl named)
      have inside := Attribute.slice?_valueSpan valued front (rest.flatMap Attribute.print ++ back)
      rw [← List.append_assoc] at inside
      rw [if_pos rfl,List.map_cons,later,List.filter_cons_of_pos named,List.filterMap_cons_some valued,
        List.map_cons,inside]

end Located

namespace Tag

variable {tag : Tag}

theorem append_print (tag : Tag) (front back : Text) : front ++ tag.print ++ back =
    (front ++ '<' :: tag.name) ++ tag.attributes.flatMap Attribute.print ++ (tag.finish ++ back) := by
  simp [print_eq]

theorem byteSize_inner (tag : Tag) (front : Text) :
    byteSize (front ++ '<' :: tag.name) = tag.inner (byteSize front) := by
  rw [byteSize_append,byteSize_cons,utf8Size_open,inner,Nat.add_assoc]

theorem map_slice?_located (formed : tag.Formed) (front back : Text) :
    (tag.located (byteSize front)).map (fun style => slice? (front ++ tag.print ++ back) style.value) =
      tag.styles.map some := by
  rw [append_print,located,← byteSize_inner]
  exact map_slice?_locateStyles formed.attributes _ _

theorem exists_slice?_located (formed : tag.Formed) (front back : Text) :
    ∀ style ∈ tag.located (byteSize front), ∃ value,
      slice? (front ++ tag.print ++ back) style.value = some value := by
  intro style member
  have mapped := List.mem_map_of_mem (f := fun style => slice? (front ++ tag.print ++ back) style.value) member
  rw [map_slice?_located formed] at mapped
  obtain ⟨value,-,same⟩ := List.mem_map.mp mapped
  exact ⟨value,same.symm⟩

theorem declared_located (formed : tag.Formed) (front back : Text) :
    declared (front ++ tag.print ++ back) (tag.located (byteSize front)) = tag.declarations := by
  have mapped := congrArg (List.map fun value => Declaration.normalize (value.getD []))
    (map_slice?_located formed front back)
  rw [List.map_map,List.map_map] at mapped
  exact congrArg (List.filter fun declaration => !declaration.isEmpty) mapped

theorem restyle_of_located_nil {start : Nat} (none : tag.located start = []) :
    tag.declarations = [] ∧ tag.restyle [] = tag := by
  have others := isStyle_of_locateStyles_nil none
  have kept : tag.attributes.filter (!·.isStyle) = tag.attributes := by
    rw [List.filter_eq_self]
    intro attr member
    rw [others attr member]
    rfl
  have gone : tag.attributes.filter Attribute.isStyle = [] := by
    rw [List.filter_eq_nil_iff]
    intro attr member
    rw [others attr member]
    decide
  constructor
  · rw [declarations,styles,gone]
    rfl
  · rw [restyle,kept,if_pos rfl]

theorem start_lt_stop (tag : Tag) (start : Nat) : (tag.spanAt start).start < (tag.spanAt start).stop := by
  simp only [spanAt,print_eq,byteSize_cons,utf8Size_open]
  omega

end Tag

/-- The edit that names classes in a tag printed at a place. -/
def Tag.editAt (tag : Tag) (start : Nat) (ids : List ClassId) : TagEdit :=
  ⟨tag.spanAt start,tag.located start,locateClass (tag.inner start) tag.attributes,ids⟩

namespace Piece

/-- How pieces printed from an offset on become others, and the edits that say so. -/
inductive Edited : Nat → List Piece → List Piece → List TagEdit → Prop
  | done (offset) : Edited offset [] [] []
  | keep (offset piece rest others edits) (plainly : piece.located offset = [])
      (later : Edited (offset + byteSize piece.print) rest others edits) :
      Edited offset (piece :: rest) (piece :: others) edits
  | edit (offset start ids rest others edits) (styled : start.located offset ≠ [])
      (later : Edited (offset + byteSize start.print) rest others edits) :
      Edited offset (.tag start :: rest) (.tag (start.restyle ids) :: others)
        (start.editAt offset ids :: edits)

theorem restyleAll_cons_ok {registry last : Registry} {piece : Piece} {rest result : List Piece} :
    restyleAll registry (piece :: rest) = .ok (result,last) ↔
      ∃ first next later, restyle registry piece = .ok (first,next) ∧
        restyleAll next rest = .ok (later,last) ∧ result = first :: later := by
  simp [restyleAll,bind_eq_ok_iff,@eq_comm _ result,and_comm]

theorem restyleAll_cons_error {registry : Registry} {piece : Piece} {rest : List Piece}
    {collision : Collision} :
    restyleAll registry (piece :: rest) = .error collision ↔
      restyle registry piece = .error collision ∨
      ∃ first next, restyle registry piece = .ok (first,next) ∧
        restyleAll next rest = .error collision := by
  simp [restyleAll,bind_eq_error_iff]

theorem restyle_tag_ok {registry last : Registry} {start : Tag} {shown : Piece} :
    restyle registry (.tag start) = .ok (shown,last) ↔
      ∃ ids, allocateAll registry start.declarations = .ok (ids,last) ∧
        shown = .tag (start.restyle ids.eraseDups) := by
  simp [restyle,bind_eq_ok_iff,@eq_comm _ shown]

theorem restyle_tag_error {registry : Registry} {start : Tag} {collision : Collision} :
    restyle registry (.tag start) = .error collision ↔
      allocateAll registry start.declarations = .error collision := by
  simp [restyle,bind_eq_error_iff]

theorem restyle_of_located_nil {piece : Piece} {offset : Nat} (none : piece.located offset = [])
    (registry : Registry) : restyle registry piece = .ok (piece,registry) := by
  cases piece with
  | text content => rfl
  | other inside => rfl
  | tag start =>
    obtain ⟨nothing,same⟩ := Tag.restyle_of_located_nil none
    refine restyle_tag_ok.mpr ⟨[],by rw [nothing]; rfl,?_⟩
    rw [List.eraseDups_nil,same]

end Piece

namespace Plan

/-- All that was edited so far lies before an offset. -/
def Behind (plan : Plan) (offset : Nat) : Prop :=
  ∀ last ∈ plan.edits.head?, last.tag.start < last.tag.stop ∧ last.tag.stop ≤ offset

variable {plan : Plan} {tag : Tag}

theorem located_cons {first : StyleAttr} {rest : List StyleAttr} {start : Nat}
    (found : tag.located start = first :: rest) :
    first.tag = tag.spanAt start ∧ first.classAttr = locateClass (tag.inner start) tag.attributes ∧
      ∀ style ∈ rest, style.tag = first.tag := by
  have all : ∀ style ∈ first :: rest, style.tag = tag.spanAt start ∧
      style.classAttr = locateClass (tag.inner start) tag.attributes := by
    intro style member
    exact eq_of_mem_locateStyles (found ▸ member)
  have head := all first List.mem_cons_self
  refine ⟨head.1,head.2,fun style member => ?_⟩
  rw [(all style (List.mem_cons_of_mem _ member)).1,head.1]

theorem Behind.apart {first : StyleAttr} {start : Nat} (behind : plan.Behind start)
    (tagged : first.tag = tag.spanAt start) :
    ∀ last ∈ plan.edits.head?, last.tag ≠ first.tag ∧ last.tag.stop ≤ first.tag.start := by
  intro last head
  obtain ⟨wide,before⟩ := behind last head
  rw [tagged]
  refine ⟨fun same => ?_,before⟩
  rw [same] at wide before
  exact absurd (Nat.lt_of_lt_of_le wide before) (Nat.lt_irrefl start)

theorem continues_tag (formed : tag.Formed) (front back : Text) (styled : tag.located (byteSize front) ≠ [])
    (behind : plan.Behind (byteSize front)) {ids : List ClassId} {registry : Registry}
    (allocated : Piece.allocateAll plan.registry tag.declarations = .ok (ids,registry)) :
    ∃ next, Continues (front ++ tag.print ++ back) plan (tag.located (byteSize front)) next ∧
      next.edits = tag.editAt (byteSize front) ids.eraseDups :: plan.edits ∧
      next.registry = registry ∧ next.overlaps = plan.overlaps := by
  have cut := Tag.exists_slice?_located formed front back
  rw [← Tag.declared_located formed front back] at allocated
  obtain ⟨first,rest,found⟩ := List.exists_cons_of_ne_nil styled
  obtain ⟨tagged,classed,same⟩ := located_cons found
  rw [found] at cut allocated ⊢
  obtain ⟨next,continues,edits,others⟩ := continues_opened cut same (behind.apart tagged) allocated
  rw [tagged,classed,← found] at edits
  exact ⟨next,continues,edits,others⟩

theorem stops_tag (formed : tag.Formed) (front back : Text) (styled : tag.located (byteSize front) ≠ [])
    (behind : plan.Behind (byteSize front)) {collision : Collision}
    (stuck : Piece.allocateAll plan.registry tag.declarations = .error collision) :
    Stops (front ++ tag.print ++ back) plan (tag.located (byteSize front)) (.collision collision) := by
  have cut := Tag.exists_slice?_located formed front back
  rw [← Tag.declared_located formed front back] at stuck
  obtain ⟨first,rest,found⟩ := List.exists_cons_of_ne_nil styled
  obtain ⟨tagged,-,same⟩ := located_cons found
  rw [found] at cut stuck ⊢
  exact stops_opened cut same (behind.apart tagged) stuck

theorem Behind.mono {first last : Nat} (behind : plan.Behind first) (later : first ≤ last) :
    plan.Behind last :=
  fun edit head => ⟨(behind edit head).1,Nat.le_trans (behind edit head).2 later⟩

theorem behind_of_edits {start : Nat} {older : List TagEdit} {ids : List ClassId}
    (edits : plan.edits = tag.editAt start ids :: older) :
    plan.Behind (start + byteSize tag.print) := by
  intro last head
  rw [edits] at head
  cases head
  exact ⟨tag.start_lt_stop start,Nat.le_refl _⟩

theorem continues_piece {piece shown : Piece} (plain : piece.isPlain = true) (front back : Text)
    (behind : plan.Behind (byteSize front)) {registry : Registry}
    (restyled : Piece.restyle plan.registry piece = .ok (shown,registry)) :
    ∃ next edits, Continues (front ++ piece.print ++ back) plan (piece.located (byteSize front)) next ∧
      next.registry = registry ∧ next.overlaps = plan.overlaps ∧
      next.edits = edits.reverse ++ plan.edits ∧ next.Behind (byteSize (front ++ piece.print)) ∧
      ∀ rest others more, Piece.Edited (byteSize (front ++ piece.print)) rest others more →
        Piece.Edited (byteSize front) (piece :: rest) (shown :: others) (edits ++ more) := by
  rw [byteSize_append]
  by_cases plainly : piece.located (byteSize front) = []
  · rw [Piece.restyle_of_located_nil plainly] at restyled
    cases restyled
    refine ⟨plan,[],?_,rfl,rfl,rfl,behind.mono (Nat.le_add_right _ _),?_⟩
    · rw [plainly]
      exact fun _ => rfl
    · intro rest others more edited
      exact .keep _ _ _ _ _ plainly edited
  · cases piece with
    | text content => exact absurd rfl plainly
    | other inside => exact absurd rfl plainly
    | tag start =>
      obtain ⟨ids,allocated,rfl⟩ := Piece.restyle_tag_ok.mp restyled
      obtain ⟨next,continues,edits,moved,calm⟩ :=
        continues_tag (Tag.plain_of_isPlain plain).toFormed front back plainly behind allocated
      refine ⟨next,[_],continues,moved,calm,edits,behind_of_edits edits,?_⟩
      intro rest others more edited
      exact .edit _ start ids.eraseDups _ _ _ plainly edited

theorem stops_piece {piece : Piece} (plain : piece.isPlain = true) (front back : Text)
    (behind : plan.Behind (byteSize front)) {collision : Collision}
    (stuck : Piece.restyle plan.registry piece = .error collision) :
    Stops (front ++ piece.print ++ back) plan (piece.located (byteSize front)) (.collision collision) := by
  by_cases plainly : piece.located (byteSize front) = []
  · rw [Piece.restyle_of_located_nil plainly] at stuck
    contradiction
  · cases piece with
    | text content => exact absurd rfl plainly
    | other inside => exact absurd rfl plainly
    | tag start =>
      exact stops_tag (Tag.plain_of_isPlain plain).toFormed front back plainly behind
        (Piece.restyle_tag_error.mp stuck)

/-- Where the pieces can be restyled, the plan has an edit for each tag with style attributes. -/
theorem addAll_of_restyleAll {pieces others : List Piece} (plain : Piece.arePlain pieces = true)
    {document front : Text} (whole : document = front ++ Piece.printAll pieces)
    (behind : plan.Behind (byteSize front)) {last : Registry}
    (restyled : Piece.restyleAll plan.registry pieces = .ok (others,last)) :
    ∃ next edits, plan.addAll document (Piece.locatedAll (byteSize front) pieces) = (next,none) ∧
      next.registry = last ∧ next.overlaps = plan.overlaps ∧
      next.edits = edits.reverse ++ plan.edits ∧ Piece.Edited (byteSize front) pieces others edits := by
  induction pieces generalizing plan front others with
  | nil =>
    cases restyled
    exact ⟨plan,[],rfl,rfl,rfl,rfl,.done _⟩
  | cons piece rest ih =>
    obtain ⟨here,more,-⟩ := Piece.arePlain_cons plain
    obtain ⟨shown,middle,later,first,second,rfl⟩ := Piece.restyleAll_cons_ok.mp restyled
    have split : document = front ++ piece.print ++ Piece.printAll rest := by
      rw [whole,List.append_assoc]
      rfl
    obtain ⟨next,edits,continues,moved,calm,joined,reach,edited⟩ :=
      continues_piece here front (Piece.printAll rest) behind first
    obtain ⟨final,others,added,stored,quiet,placed,further⟩ :=
      ih more split reach (by rw [moved]; exact second)
    refine ⟨final,edits ++ others,?_,stored,quiet.trans calm,?_,edited _ _ _ further⟩
    · rw [Piece.locatedAll,← byteSize_append,split]
      exact (continues _).trans (split ▸ added)
    · rw [placed,joined,List.reverse_append,List.append_assoc]

theorem addAll_of_restyleAll_error {pieces : List Piece} (plain : Piece.arePlain pieces = true)
    {document front : Text} (whole : document = front ++ Piece.printAll pieces)
    (behind : plan.Behind (byteSize front)) {collision : Collision}
    (stuck : Piece.restyleAll plan.registry pieces = .error collision) :
    ∃ last, plan.addAll document (Piece.locatedAll (byteSize front) pieces) =
      (last,some (.collision collision)) := by
  induction pieces generalizing plan front with
  | nil => contradiction
  | cons piece rest ih =>
    obtain ⟨here,more,-⟩ := Piece.arePlain_cons plain
    have split : document = front ++ piece.print ++ Piece.printAll rest := by
      rw [whole,List.append_assoc]
      rfl
    rw [Piece.locatedAll,← byteSize_append]
    rcases Piece.restyleAll_cons_error.mp stuck with first | ⟨shown,middle,first,second⟩
    · obtain ⟨last,stops⟩ := stops_piece here front (Piece.printAll rest) behind first
      rw [split]
      exact ⟨last,stops _⟩
    · obtain ⟨next,-,continues,moved,-,-,reach,-⟩ :=
        continues_piece here front (Piece.printAll rest) behind first
      obtain ⟨last,later⟩ := ih more split reach (by rw [moved]; exact second)
      refine ⟨last,?_⟩
      rw [split]
      exact (continues _).trans (split ▸ later)

end Plan

end StyleHoist.Markup
