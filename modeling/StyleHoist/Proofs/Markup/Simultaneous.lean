import Mathlib.Data.List.Perm.Subperm
import StyleHoist.Proofs.Markup.Passing
import StyleHoist.Proofs.Markup.Rendering

/-! The rendering of a planned edit, told in places of the document. Each style goes with
the white space before it, and classes are named behind the tag name or in the class
attribute. Where these pieces do not overlap, all of them are exchanged at once. -/
namespace StyleHoist.Markup

open Text

section Planned

variable {document : Text} {items : List Item} {attrs : List StyleAttr} {plan : Plan} {edit : TagEdit}

theorem apart_attrsInOrder (found : items.Subperm (scan document)) :
    (attrsInOrder items).Pairwise fun first second => first.attr.stop ≤ second.attr.start := by
  obtain ⟨kept,same,among⟩ := found
  have either : (kept.filterMap Item.style?).Pairwise fun first second =>
      first.attr.stop ≤ second.attr.start ∨ second.attr.stop ≤ first.attr.start :=
    ((pairwise_styleAttrs document).sublist (among.filterMap Item.style?)).imp .inl
  have shuffled : (kept.filterMap Item.style?).Perm (attrsInOrder items) :=
    (same.filterMap Item.style?).trans (List.mergeSort_perm _ _).symm
  rw [shuffled.pairwise_iff Or.symm] at either
  refine (either.and (pairwise_attrsInOrder items)).imp_of_mem fun {first second} _ member both => ?_
  obtain ⟨apart,ordered⟩ := both
  have listed : second ∈ styleAttrs document := (among.filterMap Item.style?).mem (shuffled.mem_iff.mpr member)
  have wide := (located_of_mem_styleAttrs listed).inside
  omega

theorem located_attrsInOrder (found : items ⊆ scan document) : ∀ attr ∈ attrsInOrder items, Located document attr :=
  fun attr member => located_of_mem_styleAttrs
    (List.mem_filterMap.mpr ⟨.style attr,found (mem_attrsInOrder.mp member),rfl⟩)

theorem Reported.exists_prepared (known : Reported document attrs plan)
    (located : ∀ attr ∈ attrs, Located document attr)
    (apart : attrs.Pairwise fun first second => first.attr.stop ≤ second.attr.start) (member : edit ∈ plan.edits) :
    ∃ text existing removals, edit.Prepared document text existing removals := by
  obtain ⟨style,among,tag,named⟩ := known.exists_style member
  have styles := (known.grouped.filled edit member).2
  obtain ⟨text,-,-,-,-,whole,classed,-⟩ := (located style among).exists_lies
  rw [tag] at whole classed
  refine ⟨text,TagEdit.exists_prepared whole (fun other own => ?_) (styles ▸ apart.filter _) fun found has => ?_⟩
  · -- The styles of an edit share the text of the tag.
    rw [styles,List.mem_filter,decide_eq_true_eq] at own
    have inside := (located other own.1).inside
    obtain ⟨again,name,space,body,rest,found,-,lies⟩ := (located other own.1).exists_lies
    rw [own.2] at inside found lies
    obtain rfl : text = again := Option.some.inj (whole.symm.trans found)
    exact ⟨by omega,_,TagEdit.removes_of_lies lies⟩
  · rw [named,classed] at has
    exact classOf?_eq_some has

theorem Reported.classAttr_eq (known : Reported document attrs plan) (located : ∀ attr ∈ attrs, Located document attr)
    (member : edit ∈ plan.edits) {style : StyleAttr} (own : style ∈ edit.styles) : style.classAttr = edit.classAttr := by
  obtain ⟨head,among,tag,named⟩ := known.exists_style member
  rw [(known.grouped.filled edit member).2,List.mem_filter,decide_eq_true_eq] at own
  obtain ⟨text,-,-,-,-,whole,classed,-⟩ := (located head among).exists_lies
  obtain ⟨again,-,-,-,-,found,other,-⟩ := (located style own.1).exists_lies
  rw [tag] at whole classed
  rw [own.2] at found other
  rw [named,classed,other,Option.some.inj (whole.symm.trans found)]

end Planned

/-- A span together with the white space before it. -/
structure Widens (document : Text) (span wide : Span) : Prop where
  stop : wide.stop = span.stop
  blank : ∃ space, slice? document ⟨wide.start,span.start⟩ = some space ∧ ∀ c ∈ space, isSpace c = true
  solid : ¬ Behind document wide.start isSpace

/-- The removal of a style, in places of the document. -/
structure Deletes (document : Text) (style : StyleAttr) (piece : Change) : Prop where
  empty : piece.replacement = []
  widens : Widens document style.attr piece.span

/-- Names with a space between two of them. -/
def spaced (names : List Text) : Text := [' '].intercalate names

/-- The names that a class value lacks. -/
def lacking (value : Text) (add : List ClassId) : List Text :=
  (add.map (·.text)).filter fun name => !value.words.contains name

/-- The distinct words of a class value, each where it stands first, and then the names it lacks. -/
def completed (value : Text) (add : List ClassId) : Text := spaced (value.words.eraseDups ++ lacking value add)

/-- What names the classes of an edit, in places of the document. -/
inductive Names (document : Text) (edit : TagEdit) : List Change → Prop
  | nothing (none : edit.add = []) : Names document edit []
  | inserted {text : Text} (some : edit.add ≠ []) (classless : edit.classAttr = none)
      (whole : slice? document edit.tag = .some text) :
      Names document edit [⟨⟨edit.tag.start + tagNameEnd text,edit.tag.start + tagNameEnd text⟩,
        " class=\"".toList ++ spaced (edit.add.map (·.text)) ++ ['"']⟩]
  | kept {named : ClassAttr} {value : Text} (classed : edit.classAttr = .some named)
      (read : slice? document named.value = .some value) (known : lacking value edit.add = []) : Names document edit []
  | quoted {named : ClassAttr} {value : Text} (classed : edit.classAttr = .some named)
      (read : slice? document named.value = .some value) (unknown : lacking value edit.add ≠ [])
      (quotes : named.quoted = true) : Names document edit [⟨named.value,completed value edit.add⟩]
  | unquoted {named : ClassAttr} {value : Text} (classed : edit.classAttr = .some named)
      (read : slice? document named.value = .some value) (unknown : lacking value edit.add ≠ [])
      (bare : named.quoted = false) :
      Names document edit [⟨named.attr,"class=\"".toList ++ completed value edit.add ++ ['"']⟩]

/-- No class is named, or the class attribute overlaps no style with the white space before it. -/
def TagEdit.Clear (edit : TagEdit) (document : Text) : Prop :=
  edit.add = [] ∨ edit.classAttr = none ∨ ∀ named, edit.classAttr = some named →
    ∀ style ∈ edit.styles, ∀ wide, Widens document style.attr wide →
      named.attr.stop ≤ wide.start ∨ wide.stop ≤ named.attr.start

/-- A tag rendered by exchanging pieces, given by their places in the document, all at once. -/
structure TagEdit.RenderedAtOnce (edit : TagEdit) (document : Text) (pieces : List Change) : Prop where
  apart : pieces.Pairwise Change.Apart
  exchanged : ∃ segments, slice? document edit.tag = some (Segment.textOf segments) ∧
    edit.render? document = some (Segment.shownOf segments) ∧
    pieces.Perm (Segment.changesFrom edit.tag.start segments)

/-- A piece of a part that begins at `base`, as a piece of the whole. -/
def Change.moved (base : Nat) (change : Change) : Change :=
  ⟨⟨base + change.span.start,base + change.span.stop⟩,change.replacement⟩

theorem Change.Apart.moved {first second : Change} (apart : first.Apart second) (base : Nat) :
    (first.moved base).Apart (second.moved base) := by
  unfold Apart Change.moved at *
  dsimp only
  omega

theorem Segment.map_moved_changesFrom (base offset : Nat) (segments : List Segment) :
    (changesFrom offset segments).map (Change.moved base) = changesFrom (base + offset) segments := by
  induction segments generalizing offset with
  | nil => rfl
  | cons segment rest ih =>
    have later := ih (offset + byteSize segment.text)
    rw [← Nat.add_assoc] at later
    rw [changesFrom,changesFrom]
    cases segment.replacement with
    | none => exact later
    | some text =>
      simp only [List.map_cons,later,Change.moved,Nat.add_assoc]

theorem Span.moved_within {span : Span} {base : Nat} (low : base ≤ span.start) (forward : span.start ≤ span.stop) :
    (⟨base + (span.within base).start,base + (span.within base).stop⟩ : Span) = span := by
  simp only [Span.within]
  rw [Nat.add_sub_of_le low,Nat.add_sub_of_le (Nat.le_trans low forward)]

theorem Deletes.of_removes {document text : Text} {style : StyleAttr} {change : Change} (located : Located document style)
    (whole : slice? document style.tag = some text) (removes : TagEdit.Removes text style.tag.start style change) :
    Deletes document style (change.moved style.tag.start) := by
  obtain ⟨again,name,space,body,rest,found,-,lies⟩ := located.exists_lies
  obtain rfl : text = again := Option.some.inj (whole.symm.trans found)
  obtain rfl := Option.some.inj (removes.made.symm.trans (TagEdit.removes_of_lies lies).made)
  obtain ⟨rfl,place,⟨-,spaces⟩,front,c,ends,unspaced⟩ := lies
  obtain ⟨before,after,rfl,start,-⟩ := slice?_eq_some.mp whole
  refine ⟨rfl,by rw [place]; rfl,⟨space,slice?_eq_some.mpr ⟨before ++ '<' :: name,body ++ ['"'] ++ rest ++ after,?_,?_,?_⟩,spaces⟩,?_⟩
  · simp
  · rw [byteSize_append,start]
    rfl
  · rw [place]
    simp only [byteSize_append,start]
    omega
  · have split : before ++ ('<' :: name ++ space ++ (body ++ ['"']) ++ rest) ++ after =
        (before ++ front ++ [c]) ++ (space ++ (body ++ ['"']) ++ rest ++ after) := by simp [ends]
    have size : style.tag.start + byteSize ('<' :: name) = byteSize (before ++ front ++ [c]) := by
      rw [← start,← byteSize_append,ends,List.append_assoc]
    simp only [Change.moved]
    rw [split,size,behind_here]
    simp [unspaced]

theorem merge_words (value : Text) (add : List ClassId) : TagEdit.merge value.words add =
    if lacking value add = [] then none else some (completed value add) := by
  have absent : (add.map (·.text)).filter (· ∉ value.words.eraseDups) = lacking value add := by
    refine List.filter_congr fun name _ => ?_
    rw [decide_not,List.contains_eq_mem]
    simp only [List.mem_eraseDups]
  rw [TagEdit.merge,FirstSeen.foldl_insert,absent]
  cases missing : lacking value add with
  | nil => rfl
  | cons first rest => rw [completed,missing]; rfl

theorem TagEdit.Prepared.names {document text : Text} {edit : TagEdit} {existing : List Text} {removals : List Change}
    (prepared : edit.Prepared document text existing removals) :
    Names document edit ((edit.naming text existing).map (Change.moved edit.tag.start)) := by
  have read := prepared.read
  unfold TagEdit.naming
  split
  next none => exact .nothing none
  next some =>
    split
    next classless => exact .inserted some classless prepared.whole
    next named classed =>
      have lies := (prepared.lies named classed).inside
      unfold TagEdit.existing? at read
      simp only [classed,Option.map_eq_some_iff] at read
      obtain ⟨value,found,rfl⟩ := read
      by_cases known : lacking value edit.add = []
      · rw [merge_words,if_pos known]
        exact .kept classed found known
      · rw [merge_words,if_neg known]
        dsimp only
        split
        next quotes =>
          simp only [List.map_cons,List.map_nil,Change.moved]
          rw [Span.moved_within (by omega) (by omega)]
          exact .quoted classed found known quotes
        next bare =>
          simp only [List.map_cons,List.map_nil,Change.moved]
          rw [Span.moved_within (by omega) (by omega)]
          exact .unquoted classed found known (by simpa using bare)

theorem TagEdit.Clear.beside {document : Text} {edit : TagEdit} {deletions : List Change} (clear : edit.Clear document)
    (deletes : List.Forall₂ (Deletes document) edit.styles deletions) : edit.add = [] ∨ ∀ named, edit.classAttr = some named →
      ∀ style ∈ edit.styles, named.attr.stop ≤ style.attr.start ∨ style.attr.stop ≤ named.attr.start := by
  rcases clear with none | classless | beside
  · exact .inl none
  · exact .inr fun named classed => by rw [classless] at classed; contradiction
  · refine .inr fun named classed style member => ?_
    obtain ⟨piece,-,-,widens⟩ := exists_of_forall₂ deletes style member
    obtain ⟨space,found,-⟩ := widens.blank
    obtain ⟨before,-,-,start,stop⟩ := slice?_eq_some.mp found
    have earlier : piece.span.start ≤ style.attr.start := by
      rw [← show byteSize before = piece.span.start from start,← show _ = style.attr.start from stop]
      exact Nat.le_add_right _ _
    have apart := beside named classed style member piece.span widens
    rw [widens.stop] at apart
    omega

/-- A planned edit of items that the scan finds, given in any order and none twice, is rendered by
one exchange of pieces, if the class attribute is clear of the styles. -/
theorem rendered_at_once {document : Text} {items : List Item} {registry : Registry} {plan : Plan} {edit : TagEdit}
    (found : items.Subperm (scan document))
    (planned : (Plan.start registry).addAll document (attrsInOrder items) = (plan,none))
    (member : edit ∈ plan.edits) (clear : edit.Clear document) :
    ∃ deletions names, List.Forall₂ (Deletes document) edit.styles deletions ∧ Names document edit names ∧
      edit.RenderedAtOnce document (deletions ++ names) := by
  have located := located_attrsInOrder found.subset
  have known := Reported.of_addAll located (pairwise_attrsInOrder items) planned
  obtain ⟨text,existing,removals,prepared⟩ := known.exists_prepared located (apart_attrsInOrder found) member
  have deletes : List.Forall₂ (Deletes document) edit.styles (removals.map (Change.moved edit.tag.start)) := by
    have own : ∀ style ∈ edit.styles, Located document style ∧ style.tag = edit.tag := by
      intro style among
      rw [(known.grouped.filled edit member).2,List.mem_filter,decide_eq_true_eq] at among
      exact ⟨located style among.1,among.2⟩
    rw [List.forall₂_map_right_iff]
    refine ((List.forall₂_and_left _ _).mpr ⟨own,prepared.removes⟩).imp ?_
    rintro style change ⟨⟨located,tag⟩,removes⟩
    rw [← tag] at removes ⊢
    exact .of_removes located (tag ▸ prepared.whole) removes
  have apart := prepared.pairwise_apart (clear.beside deletes)
  obtain ⟨segments,rfl,rendered,same⟩ := prepared.exists_render? apart
  refine ⟨_,_,deletes,prepared.names,?_,segments,prepared.whole,rendered,?_⟩
  · rw [← List.map_append,List.pairwise_map]
    exact apart.imp fun separate => separate.moved _
  · have moved := same.map (Change.moved edit.tag.start)
    rwa [Segment.map_moved_changesFrom,List.map_append,Nat.add_zero] at moved

def classedText : Text := "<p  style=\"a:1\" class=a>".toList

def classedStyle : StyleAttr := ⟨⟨4,15⟩,⟨11,14⟩,⟨0,24⟩,some ⟨⟨16,23⟩,⟨22,23⟩,false⟩⟩

theorem scan_classed : scan classedText = [.style classedStyle] := by
  have opened : classedText = "<p  ".toList ++ (styleOpen ++ ("a:1".toList ++ '"' :: (" cla".toList ++
      ('s' :: 's' :: ("=a>".toList ++ []))))) := rfl
  rw [scan,opened,scanFrom_ne (show ∀ c ∈ "<p  ".toList, c ≠ 's' by simp),scanFrom_value rfl rfl,
    scanFrom_ne (show ∀ c ∈ " cla".toList, c ≠ 's' by simp),scanFrom_cons rfl,scanFrom_cons rfl,
    scanFrom_ne (show ∀ c ∈ "=a>".toList, c ≠ 's' by simp),scanFrom_nil]
  rfl

/-- The class of the style is known. -/
def classedRegistry : Registry :=
  ⟨"inl-".toList,[⟨Declaration.normalize "a:1".toList,⟨"inl-0badc0de".toList⟩⟩],[]⟩

def classedEdit : TagEdit := ⟨⟨0,24⟩,[classedStyle],classedStyle.classAttr,[⟨"inl-0badc0de".toList⟩]⟩

/-- A style before an unquoted class attribute, which gets quotes. -/
theorem rendered_at_once_classed : [.style classedStyle].Subperm (scan classedText) ∧
    (Plan.start classedRegistry).addAll classedText (attrsInOrder [.style classedStyle]) =
      (⟨[classedEdit],classedRegistry,[],1,0,[]⟩,none) ∧
    classedEdit ∈ [classedEdit] ∧ classedEdit.Clear classedText ∧
    ∃ deletions names, List.Forall₂ (Deletes classedText) classedEdit.styles deletions ∧
      Names classedText classedEdit names ∧ classedEdit.RenderedAtOnce classedText (deletions ++ names) := by
  have found : [.style classedStyle].Subperm (scan classedText) := scan_classed ▸ .refl _
  have planned : (Plan.start classedRegistry).addAll classedText (attrsInOrder [.style classedStyle]) =
      (⟨[classedEdit],classedRegistry,[],1,0,[]⟩,none) := by
    rw [show attrsInOrder [.style classedStyle] = [classedStyle] from List.mergeSort_singleton _]
    decide
  have clear : classedEdit.Clear classedText := by
    refine .inr (.inr fun named classed style member wide widens => .inr ?_)
    cases classed
    cases List.mem_singleton.mp member
    rw [widens.stop]
    decide
  exact ⟨found,planned,List.mem_singleton_self _,clear,
    rendered_at_once found planned (List.mem_singleton_self _) clear⟩

end StyleHoist.Markup
