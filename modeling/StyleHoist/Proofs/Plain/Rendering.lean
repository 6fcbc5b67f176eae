import StyleHoist.Proofs.FirstSeen
import StyleHoist.Proofs.Markup.Splice
import StyleHoist.Proofs.Plain.Planning

/-! The edit of a printed tag. The tag is taken apart into segments, one for each
piece that may change, and what the edit makes of them is the print of the
restyled tag. -/
namespace StyleHoist.Markup

open Text Segment

namespace Attribute

/-- The value that a class attribute gets, if it changes. -/
def merged? (attr : Attribute) (ids : List ClassId) : Option Text :=
  TagEdit.merge (words (attr.value.getD [])) ids

/-- The segments of a printed attribute when classes are named in its tag. -/
def segments (ids : List ClassId) (attr : Attribute) : List Segment :=
  if attr.isStyle then [⟨attr.print,some []⟩]
  else if attr.isClass then
    match attr.merged? ids with
    | none => [⟨attr.print,none⟩]
    | some value =>
      [⟨attr.space ++ attr.name ++ ['=','"'],none⟩,⟨attr.value.getD [],some value⟩,⟨['"'],none⟩]
  else [⟨attr.print,none⟩]

theorem textOf_segments {attr : Attribute} (formed : attr.Formed) (ids : List ClassId) :
    textOf (attr.segments ids) = attr.print := by
  unfold segments
  split
  next => simp [textOf]
  next =>
    split
    next named =>
      obtain ⟨value,valued⟩ := formed.exists_value (.inr named)
      split
      next => simp [textOf]
      next => simp [textOf,valued,print_of_some valued]
    next => simp [textOf]

theorem addNames_eq (attr : Attribute) (ids : List ClassId) :
    attr.addNames ids = match attr.merged? ids with
      | none => attr
      | some value => { attr with value := some value } := by
  have missing : (ids.map (·.text)).filter (fun name => decide (name ∉ (words (attr.value.getD [])).eraseDups)) =
      (ids.map (·.text)).filter (fun name => !(words (attr.value.getD [])).eraseDups.contains name) := by
    apply List.filter_congr
    intro name _
    simp
  rw [addNames,merged?,TagEdit.merge,FirstSeen.foldl_insert]
  simp only [missing]
  cases (ids.map (·.text)).filter
    (fun name => !(words (attr.value.getD [])).eraseDups.contains name) <;> rfl

theorem shownOf_segments {attr : Attribute} (formed : attr.Formed) (ids : List ClassId) :
    shownOf (attr.segments ids) =
      if attr.isStyle then [] else (if attr.isClass then attr.addNames ids else attr).print := by
  unfold segments
  split
  next => simp [shownOf,shown]
  next =>
    split
    next named =>
      obtain ⟨value,valued⟩ := formed.exists_value (.inr named)
      rw [addNames_eq]
      split
      next => simp [shownOf,shown]
      next => simp [shownOf,shown,print]
    next => simp [shownOf,shown]

/-- The removals of the style attributes among some that are printed at an offset. -/
def removalsFrom (offset : Nat) : List Attribute → List Change
  | [] => []
  | attr :: rest =>
    let later := removalsFrom (offset + byteSize attr.print) rest
    if attr.isStyle then ⟨⟨offset,offset + byteSize attr.print⟩,[]⟩ :: later else later

theorem countP_removalsFrom {attributes : List Attribute} (formed : ∀ attr ∈ attributes, attr.Formed)
    (offset : Nat) : (removalsFrom offset attributes).countP
      (fun change => change.span.start = change.span.stop) = 0 := by
  induction attributes generalizing offset with
  | nil => rfl
  | cons attr rest ih =>
    have later := ih (fun other member => formed other (List.mem_cons_of_mem _ member))
      (offset + byteSize attr.print)
    have wide := (formed attr List.mem_cons_self).byteSize_print_pos
    rw [removalsFrom]
    split
    next =>
      rw [List.countP_cons_of_neg (by simp; omega)]
      exact later
    next => exact later

/-- The change of the first class attribute among some that are printed at an offset. -/
def namingFrom (ids : List ClassId) (offset : Nat) : List Attribute → List Change
  | [] => []
  | attr :: rest =>
    if attr.isClass then
      match attr.merged? ids with
      | none => []
      | some value => [⟨attr.valueSpan offset,value⟩]
    else namingFrom ids (offset + byteSize attr.print) rest

theorem namingFrom_of_none {attributes : List Attribute}
    (none : attributes.any isClass = false) (ids : List ClassId) (offset : Nat) :
    namingFrom ids offset attributes = [] := by
  induction attributes generalizing offset with
  | nil => rfl
  | cons attr rest ih =>
    rw [List.any_cons,Bool.or_eq_false_iff] at none
    rw [namingFrom,none.1,if_neg Bool.false_ne_true]
    exact ih none.2 _

theorem changesFrom_segments_class {attr : Attribute} (formed : attr.Formed) (named : attr.isClass = true)
    (ids : List ClassId) (offset : Nat) :
    changesFrom offset (attr.segments ids) = match attr.merged? ids with
      | none => []
      | some value => [⟨attr.valueSpan offset,value⟩] := by
  obtain ⟨value,valued⟩ := formed.exists_value (.inr named)
  rw [segments,not_isStyle_of_isClass named,if_neg Bool.false_ne_true,named,if_pos rfl]
  cases merged : attr.merged? ids with
  | none => rfl
  | some text =>
    simp only [changesFrom,valued,Option.getD_some,valueSpan,byteSize_print valued,byteSize_append,
      byteSize_cons,byteSize_nil,utf8Size_equals,utf8Size_quote]
    congr 3 <;> omega

theorem perm_changesFrom {attributes : List Attribute} (formed : ∀ attr ∈ attributes, attr.Formed)
    (single : attributes.countP isClass ≤ 1) (ids : List ClassId) (offset : Nat) :
    (removalsFrom offset attributes ++ namingFrom ids offset attributes).Perm
      (changesFrom offset (attributes.flatMap (segments ids))) := by
  induction attributes generalizing offset with
  | nil => exact List.Perm.refl _
  | cons attr rest ih =>
    have here := formed attr List.mem_cons_self
    have front : ∀ other ∈ rest, other.Formed :=
      fun other member => formed other (List.mem_cons_of_mem _ member)
    rw [List.countP_cons] at single
    have later := ih front (by omega) (offset + byteSize attr.print)
    rw [List.flatMap_cons,changesFrom_append,textOf_segments here,removalsFrom,namingFrom]
    cases styled : attr.isStyle with
    | true =>
      have other : attr.isClass = false := by
        cases named : attr.isClass with
        | false => rfl
        | true => rw [not_isStyle_of_isClass named] at styled; contradiction
      rw [if_pos rfl,other,if_neg Bool.false_ne_true,segments,styled,if_pos rfl]
      exact later.cons _
    | false =>
      rw [if_neg Bool.false_ne_true]
      cases named : attr.isClass with
      | false =>
        have still : changesFrom offset (attr.segments ids) = [] := by
          rw [segments,styled,if_neg Bool.false_ne_true,named,if_neg Bool.false_ne_true]
          rfl
        rw [if_neg Bool.false_ne_true,still]
        exact later
      | true =>
        rw [named,if_pos rfl] at single
        have others : rest.any isClass = false := by
          rw [List.any_eq_false]
          exact List.countP_eq_zero.mp (by omega)
        rw [namingFrom_of_none others,List.append_nil] at later
        rw [if_pos rfl,changesFrom_segments_class here named]
        exact List.perm_append_comm.trans (later.append_left _)

theorem addNames_nil (attr : Attribute) : attr.addNames [] = attr := rfl

theorem isStyle_addNames (attr : Attribute) (ids : List ClassId) :
    (attr.addNames ids).isStyle = attr.isStyle ∧ (attr.addNames ids).isClass = attr.isClass := by
  unfold addNames
  dsimp only
  split <;> exact ⟨rfl,rfl⟩

/-- Text whose last character is not white space. -/
def Solid (text : Text) : Prop := ∃ front c, text = front ++ [c] ∧ isSpace c = false

theorem Formed.solid_append {attr : Attribute} (formed : attr.Formed) (lead : Text) :
    Solid (lead ++ attr.print) := by
  cases valued : attr.value with
  | some value =>
    exact ⟨lead ++ (attr.space ++ attr.name ++ '=' :: '"' :: value),'"',by simp [print_of_some valued],rfl⟩
  | none =>
    obtain ⟨first,last,named⟩ := (List.eq_nil_or_concat' attr.name).resolve_left formed.named
    refine ⟨lead ++ (attr.space ++ first),last,by simp [print_of_none valued,named],?_⟩
    exact (isNameChar_eq_true (formed.name last (by simp [named]))).1

theorem removal?_print {attr : Attribute} (formed : attr.Formed) {lead : Text} (solid : Solid lead)
    (rest : Text) (base : Nat) (value tag : Span) (classAttr : Option ClassAttr) :
    TagEdit.removal? (lead ++ attr.print ++ rest) base
        ⟨attr.span (base + byteSize lead),value,tag,classAttr⟩ =
      some ⟨⟨byteSize lead,byteSize lead + byteSize attr.print⟩,[]⟩ := by
  obtain ⟨front,c,rfl,unspaced⟩ := solid
  have start : base + byteSize (front ++ [c]) + byteSize attr.space - base =
      byteSize (front ++ [c] ++ attr.space) := by
    rw [byteSize_append (front ++ [c])]
    omega
  have stop : base + byteSize (front ++ [c]) + byteSize attr.print - base =
      byteSize (front ++ [c]) + byteSize attr.print := by omega
  have cut (later : Text) : Text.cut? (front ++ [c] ++ attr.space ++ later)
      (byteSize (front ++ [c] ++ attr.space)) = some (front ++ [c] ++ attr.space,later) :=
    cut?_eq_some.mpr ⟨rfl,rfl⟩
  have spaces : ∀ d ∈ attr.space.reverse, isSpace d = true :=
    fun d member => formed.space d (List.mem_reverse.mp member)
  have trimmed : (front ++ [c] ++ attr.space).reverse.dropWhile isSpace = (front ++ [c]).reverse := by
    rw [List.reverse_append,List.reverse_append,List.reverse_singleton,List.singleton_append]
    exact dropWhile_of_stop spaces unspaced
  rw [TagEdit.removal?,span,Span.within]
  simp only [start,stop]
  rw [print,List.append_assoc attr.space,← List.append_assoc _ attr.space,List.append_assoc _ _ rest,cut]
  simp only [Option.bind_eq_bind,Option.bind_some,trimmed,byteSize_reverse]

theorem mapM_removal? {attributes : List Attribute} (formed : ∀ attr ∈ attributes, attr.Formed)
    {lead : Text} (solid : Solid lead) (rest : Text) (base : Nat) (tag : Span)
    (classAttr : Option ClassAttr) :
    (locateStyles tag classAttr (base + byteSize lead) attributes).mapM
        (TagEdit.removal? (lead ++ attributes.flatMap print ++ rest) base) =
      some (removalsFrom (byteSize lead) attributes) := by
  induction attributes generalizing lead with
  | nil => rfl
  | cons attr others ih =>
    have here := formed attr List.mem_cons_self
    have later := ih (fun other member => formed other (List.mem_cons_of_mem _ member))
      (here.solid_append lead)
    have whole : lead ++ (attr :: others).flatMap print ++ rest =
        lead ++ attr.print ++ others.flatMap print ++ rest := by simp
    rw [byteSize_append,← Nat.add_assoc] at later
    rw [whole,locateStyles,removalsFrom]
    cases styled : attr.isStyle with
    | false =>
      rw [if_neg Bool.false_ne_true,if_neg Bool.false_ne_true]
      exact later
    | true =>
      have first := removal?_print here solid (others.flatMap print ++ rest) base
        (attr.valueSpan (base + byteSize lead)) tag classAttr
      rw [← List.append_assoc] at first
      rw [if_pos rfl,if_pos rfl,List.mapM_cons,first,later]
      rfl

theorem naming_attributes {attributes : List Attribute} (formed : ∀ attr ∈ attributes, attr.Formed)
    (front back : Text) {base : Nat} (inside : base ≤ byteSize front) (ids : List ClassId)
    {found : ClassAttr} (located : locateClass (byteSize front) attributes = some found) :
    ∃ value, found.quoted = true ∧
      slice? (front ++ attributes.flatMap print ++ back) found.value = some value ∧
      namingFrom ids (byteSize front - base) attributes = match TagEdit.merge (words value) ids with
        | none => []
        | some text => [⟨found.value.within base,text⟩] := by
  induction attributes generalizing front with
  | nil => contradiction
  | cons attr rest ih =>
    have here := formed attr List.mem_cons_self
    have whole : front ++ (attr :: rest).flatMap print ++ back =
        front ++ attr.print ++ rest.flatMap print ++ back := by simp
    rw [locateClass] at located
    rw [whole,namingFrom]
    cases named : attr.isClass with
    | true =>
      rw [named,if_pos rfl] at located
      obtain ⟨value,valued⟩ := here.exists_value (.inr named)
      cases located
      have sliced := slice?_valueSpan valued front (rest.flatMap print ++ back)
      rw [← List.append_assoc] at sliced
      have moved : (attr.valueSpan (byteSize front)).within base = attr.valueSpan (byteSize front - base) := by
        simp only [Span.within,valueSpan,Span.mk.injEq,byteSize_print valued]
        omega
      refine ⟨value,rfl,sliced,?_⟩
      rw [if_pos rfl,merged?,valued,Option.getD_some,moved]
    | false =>
      rw [named,if_neg Bool.false_ne_true] at located
      have place : byteSize front - base + byteSize attr.print = byteSize (front ++ attr.print) - base := by
        rw [byteSize_append]
        omega
      rw [if_neg Bool.false_ne_true,place]
      exact ih (fun other member => formed other (List.mem_cons_of_mem _ member)) (front ++ attr.print)
        (by rw [byteSize_append]; omega) (by rw [byteSize_append]; exact located)

theorem locateClass_eq_none_iff {attributes : List Attribute} {offset : Nat} :
    locateClass offset attributes = none ↔ attributes.any isClass = false := by
  induction attributes generalizing offset with
  | nil => simp [locateClass]
  | cons attr rest ih =>
    rw [locateClass,List.any_cons]
    cases attr.isClass with
    | true => simp
    | false => simpa using ih

end Attribute

namespace Tag

variable {tag : Tag}

def newClass (ids : List ClassId) : Text :=
  ' ' :: TagEdit.classText ([' '].intercalate (ids.map (·.text)))

theorem newClass_eq_print (ids : List ClassId) : newClass ids = Attribute.print
    ⟨[' '],"class".toList,some ([' '].intercalate (ids.map (·.text)))⟩ := rfl

/-- The empty segment behind the name at which a class attribute is put if there is none. -/
def insertion (tag : Tag) (ids : List ClassId) : List Segment :=
  if ids = [] || tag.attributes.any Attribute.isClass then [] else [⟨[],some (newClass ids)⟩]

/-- The segments of a printed tag in which classes are named. -/
def segments (tag : Tag) (ids : List ClassId) : List Segment :=
  ⟨'<' :: tag.name,none⟩ :: (tag.insertion ids ++ tag.attributes.flatMap (Attribute.segments ids) ++
    [⟨tag.finish,none⟩])

theorem textOf_insertion (tag : Tag) (ids : List ClassId) : textOf (tag.insertion ids) = [] := by
  unfold insertion
  split <;> rfl

theorem textOf_attributes {attributes : List Attribute} (formed : ∀ attr ∈ attributes, attr.Formed)
    (ids : List ClassId) : textOf (attributes.flatMap (Attribute.segments ids)) =
      attributes.flatMap Attribute.print := by
  rw [textOf,List.flatMap_assoc]
  apply List.flatMap_congr
  intro attr member
  exact Attribute.textOf_segments (formed attr member) ids

theorem textOf_segments (formed : tag.Formed) (ids : List ClassId) :
    textOf (tag.segments ids) = tag.print := by
  have inserted := textOf_insertion tag ids
  have attributes := textOf_attributes formed.attributes ids
  unfold textOf at inserted attributes
  rw [textOf,segments,print_eq]
  simp only [List.flatMap_cons,List.flatMap_append,List.flatMap_nil,inserted,attributes,List.append_nil,
    List.nil_append,List.cons_append,List.append_assoc]

def kept (tag : Tag) (ids : List ClassId) : List Attribute :=
  (tag.attributes.filter (!·.isStyle)).map fun attr => if attr.isClass then attr.addNames ids else attr

theorem any_isClass_filter (tag : Tag) :
    (tag.attributes.filter (!·.isStyle)).any Attribute.isClass = tag.attributes.any Attribute.isClass := by
  rw [Bool.eq_iff_iff]
  simp only [List.any_eq_true,List.mem_filter]
  constructor
  · rintro ⟨attr,⟨member,-⟩,named⟩
    exact ⟨attr,member,named⟩
  · rintro ⟨attr,member,named⟩
    exact ⟨attr,⟨member,by rw [Attribute.not_isStyle_of_isClass named]; rfl⟩,named⟩

theorem map_addNames_of_none {attributes : List Attribute} (none : attributes.any Attribute.isClass = false)
    (ids : List ClassId) :
    attributes.map (fun attr => if attr.isClass then attr.addNames ids else attr) = attributes := by
  conv_rhs => rw [← List.map_id attributes]
  apply List.map_congr_left
  intro attr member
  have other := List.any_eq_false.mp none attr member
  rw [if_neg other]
  rfl

/-- The restyled tag has the kept attributes, behind a new class attribute if one is put. -/
theorem print_restyle (tag : Tag) (ids : List ClassId) :
    (tag.restyle ids).print = '<' :: tag.name ++ (shownOf (tag.insertion ids) ++
      ((tag.kept ids).flatMap Attribute.print ++ tag.finish)) := by
  have same : (tag.restyle ids).print = '<' :: (tag.name ++
      ((tag.restyle ids).attributes.flatMap Attribute.print ++ tag.finish)) := print_eq _
  rw [same,restyle,insertion,kept,any_isClass_filter]
  by_cases nothing : ids = []
  · subst nothing
    simp [shownOf,Attribute.addNames_nil]
  · cases any : tag.attributes.any Attribute.isClass with
    | true => simp [nothing,shownOf]
    | false =>
      have none := (any_isClass_filter tag).trans any
      rw [map_addNames_of_none none]
      rw [newClass_eq_print,if_neg nothing,if_neg Bool.false_ne_true]
      generalize (⟨[' '],"class".toList,_⟩ : Attribute) = added
      simp [nothing,shownOf,shown]

theorem shownOf_attributes {attributes : List Attribute} (formed : ∀ attr ∈ attributes, attr.Formed)
    (ids : List ClassId) : shownOf (attributes.flatMap (Attribute.segments ids)) =
      ((attributes.filter (!·.isStyle)).map fun attr =>
        if attr.isClass then attr.addNames ids else attr).flatMap Attribute.print := by
  induction attributes with
  | nil => rfl
  | cons attr rest ih =>
    have first := Attribute.shownOf_segments (formed attr List.mem_cons_self) ids
    have later := ih fun other member => formed other (List.mem_cons_of_mem _ member)
    unfold shownOf at first later ⊢
    rw [List.flatMap_cons,List.flatMap_append,first,later]
    cases styled : attr.isStyle with
    | true => simp [styled]
    | false => simp [styled]

theorem shownOf_segments (formed : tag.Formed) (ids : List ClassId) :
    shownOf (tag.segments ids) = (tag.restyle ids).print := by
  have attributes := shownOf_attributes formed.attributes ids
  rw [print_restyle,kept,← attributes]
  simp [shownOf,shown,segments]

theorem changesFrom_segments (tag : Tag) (ids : List ClassId) :
    changesFrom 0 (tag.segments ids) = changesFrom (tag.inner 0) (tag.insertion ids) ++
      changesFrom (tag.inner 0) (tag.attributes.flatMap (Attribute.segments ids)) := by
  have place : 0 + byteSize ('<' :: tag.name) = tag.inner 0 := by
    rw [byteSize_cons,utf8Size_open,inner]
    omega
  have last (offset : Nat) : changesFrom offset [⟨tag.finish,none⟩] = [] := rfl
  have first (rest : List Segment) : changesFrom 0 (⟨'<' :: tag.name,none⟩ :: rest) =
      changesFrom (0 + byteSize ('<' :: tag.name)) rest := rfl
  rw [segments,first,place,changesFrom_append,changesFrom_append,textOf_insertion,last]
  simp

theorem tagNameEnd_print (formed : tag.Formed) : tagNameEnd tag.print = tag.inner 0 := by
  obtain ⟨c,rest,ends,stop⟩ := ends_attributes formed formed.attributes
  have word : ∀ d ∈ tag.name, (!endsName d) = true := by
    intro d member
    rw [Attribute.endsName_eq_false (formed.name d member)]
    rfl
  have name : (tag.name ++ c :: rest).takeWhile (fun d => !endsName d) = tag.name :=
    takeWhile_of_stop word (by rw [stop]; rfl)
  unfold endsName at name
  rw [print_eq,ends,tagNameEnd,name,inner,utf8Size_open]

/-- How the classes of an edit are named in a printed tag: what is read of the class attribute, and
the one change at most that comes of it. -/
def Names (tag : Tag) (front back : Text) (ids : List ClassId) (existing : List Text) : Prop :=
  (tag.editAt (byteSize front) ids).existing? (front ++ tag.print ++ back) = some existing ∧
    (Attribute.removalsFrom (tag.inner 0) tag.attributes ++
      (tag.editAt (byteSize front) ids).naming tag.print existing).Perm (changesFrom 0 (tag.segments ids)) ∧
    ((tag.editAt (byteSize front) ids).naming tag.print existing).length ≤ 1

theorem names_of_bare (formed : tag.Formed) (front back : Text) (ids : List ClassId)
    (bare : tag.attributes.any Attribute.isClass = false) : tag.Names front back ids [] := by
  have located : locateClass (tag.inner (byteSize front)) tag.attributes = none :=
    Attribute.locateClass_eq_none_iff.mpr bare
  have perm := Attribute.perm_changesFrom formed.attributes formed.single ids (tag.inner 0)
  rw [Attribute.namingFrom_of_none bare,List.append_nil] at perm
  refine ⟨by rw [editAt,TagEdit.existing?,located],?_⟩
  rw [changesFrom_segments,editAt,TagEdit.naming,located,insertion,bare,Bool.or_false]
  by_cases nothing : ids = []
  · simp only [nothing,if_true,decide_true]
    subst nothing
    exact ⟨by rw [List.append_nil]; exact perm,by simp⟩
  · simp only [nothing,if_false,decide_false,Bool.false_eq_true,tagNameEnd_print formed]
    exact ⟨List.perm_append_comm.trans (perm.append_left _),by simp⟩

theorem exists_names_of_classed (formed : tag.Formed) (front back : Text) (ids : List ClassId)
    (classed : tag.attributes.any Attribute.isClass = true) : ∃ existing, tag.Names front back ids existing := by
  have perm := Attribute.perm_changesFrom formed.attributes formed.single ids (tag.inner 0)
  have place : tag.inner (byteSize front) = byteSize (front ++ '<' :: tag.name) := (byteSize_inner tag front).symm
  have relative : byteSize (front ++ '<' :: tag.name) - byteSize front = tag.inner 0 := by
    rw [byteSize_inner,inner,inner]
    omega
  have inside : byteSize front ≤ byteSize (front ++ '<' :: tag.name) := by
    rw [byteSize_append]
    omega
  cases located : locateClass (byteSize (front ++ '<' :: tag.name)) tag.attributes with
  | none =>
    rw [Attribute.locateClass_eq_none_iff.mp located] at classed
    contradiction
  | some found =>
    obtain ⟨value,quoted,sliced,naming⟩ := Attribute.naming_attributes formed.attributes
      (front ++ '<' :: tag.name) (tag.finish ++ back) inside ids located
    rw [← append_print] at sliced
    rw [relative] at naming
    have same : (tag.editAt (byteSize front) ids).naming tag.print (words value) =
        Attribute.namingFrom ids (tag.inner 0) tag.attributes := by
      rw [naming,editAt,TagEdit.naming,place,located]
      by_cases nothing : ids = []
      · subst nothing
        rfl
      · simp only [nothing,if_false,quoted,if_true]
        rfl
    refine ⟨words value,?_,?_⟩
    · rw [editAt,TagEdit.existing?,place,located]
      simp only [sliced,Option.map_some]
    · rw [changesFrom_segments,same,insertion,classed,Bool.or_true]
      refine ⟨perm,?_⟩
      rw [naming]
      split <;> simp

theorem exists_naming (formed : tag.Formed) (front back : Text) (ids : List ClassId) :
    ∃ existing, tag.Names front back ids existing := by
  cases classed : tag.attributes.any Attribute.isClass with
  | false => exact ⟨[],names_of_bare formed front back ids classed⟩
  | true => exact exists_names_of_classed formed front back ids classed

theorem print_split (tag : Tag) : tag.print =
    ('<' :: tag.name) ++ tag.attributes.flatMap Attribute.print ++ tag.finish := by
  simp [print_eq]

theorem solid_name (formed : tag.Formed) : Attribute.Solid ('<' :: tag.name) := by
  obtain ⟨c,rest,named,-⟩ := formed.letter
  have some : tag.name ≠ [] := by simp [named]
  obtain ⟨first,last,split⟩ := (List.eq_nil_or_concat' tag.name).resolve_left some
  refine ⟨'<' :: first,last,by rw [split]; rfl,?_⟩
  exact (Attribute.isNameChar_eq_true (formed.name last (by simp [split]))).1

theorem fewInsertions (formed : tag.Formed) {naming : List Change} (short : naming.length ≤ 1) :
    Change.FewInsertions (Attribute.removalsFrom (tag.inner 0) tag.attributes ++ naming) := by
  have none := Attribute.countP_removalsFrom formed.attributes (tag.inner 0)
  rw [Change.FewInsertions,List.countP_append,none,Nat.zero_add]
  exact Nat.le_trans List.countP_le_length short

/-- The edit of a printed tag gives the print of the restyled tag. -/
theorem render?_editAt (formed : tag.Formed) (front back : Text) (ids : List ClassId) :
    (tag.editAt (byteSize front) ids).render? (front ++ tag.print ++ back) =
      some (tag.restyle ids).print := by
  have sliced : slice? (front ++ tag.print ++ back) (tag.spanAt (byteSize front)) = some tag.print :=
    slice?_eq_some.mpr ⟨front,back,rfl,rfl,rfl⟩
  have base : byteSize front + byteSize ('<' :: tag.name) = tag.inner (byteSize front) := by
    rw [← byteSize_append,byteSize_inner]
  have lead : byteSize ('<' :: tag.name) = tag.inner 0 := by
    have := byteSize_inner tag []
    rwa [List.nil_append] at this
  have removals : (tag.located (byteSize front)).mapM (TagEdit.removal? tag.print (byteSize front)) =
      some (Attribute.removalsFrom (tag.inner 0) tag.attributes) := by
    have removed := Attribute.mapM_removal? formed.attributes (solid_name formed) tag.finish
      (byteSize front) (tag.spanAt (byteSize front)) (locateClass (tag.inner (byteSize front)) tag.attributes)
    rwa [base,← print_split,lead] at removed
  obtain ⟨existing,read,perm,short⟩ := exists_naming formed front back ids
  have spliced := foldlM_splice?_mergeSort (fewInsertions formed short) perm
  rw [textOf_segments formed,shownOf_segments formed] at spliced
  have changes : (tag.editAt (byteSize front) ids).changes? (front ++ tag.print ++ back) =
      some (Attribute.removalsFrom (tag.inner 0) tag.attributes ++
        (tag.editAt (byteSize front) ids).naming tag.print existing) := by
    have start : (tag.spanAt (byteSize front)).start = byteSize front := rfl
    rw [TagEdit.changes?,read]
    simp only [editAt,sliced,start,removals,Option.bind_eq_bind,Option.bind_some]
  rw [TagEdit.render?,changes]
  simp only [editAt,sliced,Option.bind_eq_bind,Option.bind_some]
  exact spliced

end Tag

end StyleHoist.Markup
