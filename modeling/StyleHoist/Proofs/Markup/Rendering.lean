import StyleHoist.Proofs.Markup.Hoisting
import StyleHoist.Proofs.Markup.Splice
import StyleHoist.Proofs.Registry.Allocation
import StyleHoist.Proofs.Text.Place
import StyleHoist.Proofs.Text.Run
import Mathlib.Data.List.Basic

/-! When a tag can be rendered. The pieces that an edit exchanges are found in the
unchanged tag. Where its class attribute and its styles do not overlap, no
piece does, and the exchanges from right to left all go through. -/
namespace StyleHoist.Markup

open Text

namespace Change

/-- Changes whose pieces do not overlap. -/
def Apart (first second : Change) : Prop :=
  first.span.stop ≤ second.span.start ∨ second.span.stop ≤ first.span.start

theorem Apart.symm {first second : Change} (apart : first.Apart second) : second.Apart first :=
  Or.symm apart

theorem pairwise_mergeSort_of_apart {changes : List Change} (apart : changes.Pairwise Apart)
    (forward : ∀ change ∈ changes, change.span.start ≤ change.span.stop) :
    (changes.mergeSort precedes).Pairwise fun first second => second.span.stop ≤ first.span.start := by
  have moved : (changes.mergeSort precedes).Pairwise Apart :=
    ((List.mergeSort_perm changes precedes).pairwise_iff Apart.symm).mpr apart
  refine ((pairwise_mergeSort changes).and moved).imp_of_mem ?_
  rintro first second one two ⟨ahead,gap⟩
  have wide := forward first (List.mem_mergeSort.mp one)
  have later := forward second (List.mem_mergeSort.mp two)
  rw [precedes_iff] at ahead
  unfold Apart at gap
  omega

theorem exists_segments {changes : List Change} (front text : Text)
    (ordered : changes.Pairwise fun first second => first.span.stop ≤ second.span.start)
    (fits : ∀ change ∈ changes, ∃ inside, slice? (front ++ text) change.span = some inside)
    (ahead : ∀ change ∈ changes, byteSize front ≤ change.span.start) :
    ∃ segments, Segment.textOf segments = text ∧ Segment.changesFrom (byteSize front) segments = changes := by
  induction changes generalizing front text with
  | nil => exact ⟨[⟨text,none⟩],by simp [Segment.textOf],rfl⟩
  | cons change later ih =>
    obtain ⟨before,others⟩ := List.pairwise_cons.mp ordered
    obtain ⟨piece,found⟩ := fits change List.mem_cons_self
    obtain ⟨lead,back,whole,start,stop⟩ := slice?_eq_some.mp found
    rw [List.append_assoc] at whole
    obtain ⟨mid,rfl,rfl⟩ := eq_append_of_byteSize_le whole (start ▸ ahead change List.mem_cons_self)
    have split : front ++ (mid ++ (piece ++ back)) = front ++ mid ++ piece ++ back := by simp
    obtain ⟨segments,rest,same⟩ := ih (front ++ mid ++ piece) back others
      (fun other member => split ▸ fits other (List.mem_cons_of_mem _ member))
      (fun other member => by rw [byteSize_append,stop]; exact before other member)
    refine ⟨⟨mid,none⟩ :: ⟨piece,some change.replacement⟩ :: segments,?_,?_⟩
    · simp only [Segment.textOf,List.flatMap_cons] at rest ⊢
      rw [rest]
    · rw [start] at stop
      rw [byteSize_append,start,stop] at same
      rw [byteSize_append] at start
      simp only [Segment.changesFrom,start,stop,same]

/-- Pieces of a text that do not overlap are exchanged all at once, in whatever order they are given. -/
theorem exists_foldlM_mergeSort {changes : List Change} {text : Text} (apart : changes.Pairwise Apart)
    (fits : ∀ change ∈ changes, ∃ inside, slice? text change.span = some inside) :
    ∃ segments, Segment.textOf segments = text ∧ changes.Perm (Segment.changesFrom 0 segments) ∧
      (changes.mergeSort precedes).foldlM (fun text change => Text.splice? text change.span change.replacement) text =
        some (Segment.shownOf segments) := by
  have forward : ∀ change ∈ changes, change.span.start ≤ change.span.stop := by
    intro change member
    obtain ⟨inside,found⟩ := fits change member
    obtain ⟨before,after,-,start,stop⟩ := slice?_eq_some.mp found
    omega
  have ordered := List.pairwise_reverse.mpr (pairwise_mergeSort_of_apart apart forward)
  obtain ⟨segments,whole,same⟩ := exists_segments [] text ordered
    (fun change member => fits change (List.mem_mergeSort.mp (List.mem_reverse.mp member))) fun _ _ => Nat.zero_le _
  have done := Segment.foldlM_splice? [] segments
  rw [same,List.reverse_reverse,List.nil_append,List.nil_append,whole] at done
  refine ⟨segments,whole,?_,done⟩
  exact ((List.mergeSort_perm changes precedes).symm.trans (List.reverse_perm _).symm).trans (.of_eq same.symm)

end Change

/-- A place right behind a character that is not white space. -/
def SolidBefore (text : Text) (offset : Nat) : Prop :=
  ∃ front c rest, text = front ++ c :: rest ∧ isSpace c = false ∧ offset = byteSize front + c.utf8Size

theorem slice?_outer {document text inside : Text} {outer span : Span}
    (whole : slice? document outer = some text) (part : slice? text (span.within outer.start) = some inside)
    (low : outer.start ≤ span.start) (forward : span.start ≤ span.stop) :
    slice? document span = some inside := by
  obtain ⟨before,after,rfl,start,-⟩ := slice?_eq_some.mp whole
  obtain ⟨front,back,rfl,first,last⟩ := slice?_eq_some.mp part
  simp only [Span.within] at first last
  refine slice?_eq_some.mpr ⟨before ++ front,back ++ after,by simp,?_,?_⟩
  · rw [byteSize_append]
    omega
  · rw [byteSize_append]
    omega

/-- A class attribute in the text of its tag, which begins at `base`. -/
structure ClassAttr.Lies (named : ClassAttr) (base : Nat) (text : Text) : Prop where
  attr : ∃ inside, slice? text (named.attr.within base) = some inside
  value : ∃ inside, slice? text (named.value.within base) = some inside
  inside : base ≤ named.attr.start ∧ named.attr.start ≤ named.value.start ∧
    named.value.start ≤ named.value.stop ∧ named.value.stop ≤ named.attr.stop
  solid : SolidBefore text (named.attr.stop - base)

theorem ClassAttr.Lies.of_pieces (base : Nat) (quoted : Bool) (front lead value close rest : Text)
    (solid : ∃ stem c, lead ++ value ++ close = stem ++ [c] ∧ isSpace c = false) :
    let start := base + byteSize front
    let first := start + byteSize lead
    let last := first + byteSize value
    Lies ⟨⟨start,last + byteSize close⟩,⟨first,last⟩,quoted⟩ base (front ++ (lead ++ value ++ close) ++ rest) := by
  intro start first last
  obtain ⟨stem,c,whole,unspaced⟩ := solid
  have size := congrArg byteSize whole
  simp only [byteSize_append,byteSize_cons,byteSize_nil] at size
  refine ⟨⟨lead ++ value ++ close,slice?_eq_some.mpr ⟨front,rest,rfl,?_,?_⟩⟩,
    ⟨value,slice?_eq_some.mpr ⟨front ++ lead,close ++ rest,by simp,?_,?_⟩⟩,?_,
    front ++ stem,c,rest,by simp [whole],unspaced,?_⟩
  all_goals simp only [Span.within,byteSize_append,start,first,last]; omega

theorem utf8Size_of_isQuote {c : Char} (quote : isQuote c = true) : c.utf8Size = 1 := by
  simp only [isQuote,Bool.or_eq_true,decide_eq_true_eq] at quote
  rcases quote with rfl | rfl <;> rfl

theorem exists_takeWhile_cons {c : Char} {text : Text}
    (closed : (text.takeWhile (· ≠ c)).length ≠ text.length) :
    ∃ after, text = text.takeWhile (· ≠ c) ++ c :: after := by
  have whole := List.takeWhile_append_dropWhile (p := (· ≠ c)) (l := text)
  cases left : text.dropWhile (· ≠ c) with
  | nil =>
    rw [left,List.append_nil] at whole
    exact absurd (congrArg List.length whole) closed
  | cons d after =>
    have same := List.head?_dropWhile_not (· ≠ c) text
    simp only [left,List.head?_cons,decide_eq_false_iff_not,not_not] at same
    rw [left,same] at whole
    exact ⟨after,whole.symm⟩

/-- A value between two equal quotes, or one that ends where white space or a closing bracket is. -/
theorem classValue?_cases {start offset : Nat} {text : Text} {named : ClassAttr}
    (found : classValue? start offset text = some named) :
    (∃ q value rest, text = q :: value ++ q :: rest ∧ isQuote q = true ∧ q ∉ value ∧
      named = ⟨⟨start,offset + 1 + byteSize value + 1⟩,⟨offset + 1,offset + 1 + byteSize value⟩,true⟩) ∨
    ∃ value rest, text = value ++ rest ∧ value.head?.any isQuote = false ∧
      (∀ c ∈ value, isSpace c = false ∧ c ≠ '>') ∧
      named = ⟨⟨start,offset + byteSize value⟩,⟨offset,offset + byteSize value⟩,false⟩ := by
  cases text with
  | nil =>
    cases found
    exact .inr ⟨[],[],rfl,rfl,List.forall_mem_nil _,rfl⟩
  | cons c text =>
    rw [classValue?] at found
    split at found
    next quote =>
      dsimp only at found
      split at found
      next => contradiction
      next closed =>
        cases found
        obtain ⟨rest,whole⟩ := exists_takeWhile_cons closed
        refine .inl ⟨c,_,rest,congrArg (c :: ·) whole,quote,fun member => ?_,rfl⟩
        simpa using List.all_eq_true.mp List.all_takeWhile c member
    next unquoted =>
      cases found
      refine .inr ⟨_,_,List.takeWhile_append_dropWhile.symm,?_,fun d member => ?_,rfl⟩
      · rw [List.takeWhile_cons]
        split
        next => simpa using unquoted
        next => rfl
      · simpa using List.all_eq_true.mp List.all_takeWhile d member

theorem classIn?_cases {quote : Option Char} {before : Char} {offset : Nat} {text : Text} {named : ClassAttr}
    (found : classIn? quote before offset text = some named) :
    ∃ lead rest, text = lead ++ (classOpen ++ rest) ∧ (before :: lead).getLast?.any isSpace = true ∧
      classValue? (offset + byteSize lead) (offset + byteSize lead + byteSize classOpen) rest = some named := by
  induction text generalizing quote before offset with
  | nil => contradiction
  | cons c text ih =>
    have later {quote : Option Char} (found : classIn? quote c (offset + c.utf8Size) text = some named) :
        ∃ lead rest, c :: text = lead ++ (classOpen ++ rest) ∧ (before :: lead).getLast?.any isSpace = true ∧
          classValue? (offset + byteSize lead) (offset + byteSize lead + byteSize classOpen) rest = some named := by
      obtain ⟨lead,rest,whole,spaced,valued⟩ := ih found
      exact ⟨c :: lead,rest,congrArg (c :: ·) whole,by simpa using spaced,by simpa [Nat.add_assoc] using valued⟩
    rw [classIn?.eq_def] at found
    dsimp only at found
    split at found
    next => exact later found
    next =>
      split at found
      next value opened =>
        split at opened
        next space =>
          have split := after?_eq_some.mp opened
          exact ⟨[],value,split,by simpa using space,found⟩
        next => contradiction
      next => exact later found

/-- A class attribute stands behind white space in its tag. -/
theorem classOf?_cases {start : Nat} {text : Text} {named : ClassAttr} (found : classOf? start text = some named) :
    ∃ lead rest, text = lead ++ (classOpen ++ rest) ∧ lead.getLast?.any isSpace = true ∧
      classValue? (start + byteSize lead) (start + byteSize lead + byteSize classOpen) rest = some named := by
  cases text with
  | nil => contradiction
  | cons c text =>
    obtain ⟨lead,rest,whole,spaced,valued⟩ := classIn?_cases found
    exact ⟨c :: lead,rest,congrArg (c :: ·) whole,spaced,by simpa [Nat.add_assoc] using valued⟩

theorem classOf?_eq_some {base : Nat} {text : Text} {named : ClassAttr}
    (found : classOf? base text = some named) : named.Lies base text := by
  have ends : ∃ stem c, classOpen = stem ++ [c] ∧ isSpace c = false := ⟨"class".toList,'=',rfl,rfl⟩
  obtain ⟨lead,rest,rfl,-,valued⟩ := classOf?_cases found
  rcases classValue?_cases valued with ⟨q,value,rest,rfl,quote,-,rfl⟩ | ⟨value,rest,rfl,-,solid,rfl⟩
  · have lies := ClassAttr.Lies.of_pieces base true lead (classOpen ++ [q]) value [q] rest
      ⟨classOpen ++ [q] ++ value,q,rfl,isSpace_of_isQuote quote⟩
    simp only [byteSize_append,byteSize_cons,byteSize_nil,utf8Size_of_isQuote quote,Nat.add_zero] at lies
    simpa [Nat.add_assoc] using lies
  · have last : ∃ stem d, classOpen ++ value ++ [] = stem ++ [d] ∧ isSpace d = false := by
      rcases List.eq_nil_or_concat' value with rfl | ⟨stem,d,rfl⟩
      · simpa using ends
      · exact ⟨classOpen ++ stem,d,by simp,(solid d (by simp)).1⟩
    simpa using ClassAttr.Lies.of_pieces base false lead classOpen value [] rest last

/-- The place of an attribute in the text of its tag, which begins at `base`: the tag up to the white
space before the attribute, that white space, and the attribute through its closing quote. -/
structure StyleAttr.Lies (attr : StyleAttr) (base : Nat) (text name space body rest : Text) : Prop where
  whole : text = '<' :: name ++ space ++ (body ++ ['"']) ++ rest
  attr : attr.attr = ⟨base + byteSize ('<' :: name ++ space),base + byteSize ('<' :: name ++ space ++ (body ++ ['"']))⟩
  space : space ≠ [] ∧ ∀ c ∈ space, isSpace c = true
  name : ∃ front c, '<' :: name = front ++ [c] ∧ isSpace c = false

theorem exists_name_of_isSpace {inside : Text}
    (spaced : ∃ front c, '<' :: inside = front ++ [c] ∧ isSpace c = true) :
    ∃ name space, inside = name ++ space ∧ (space ≠ [] ∧ ∀ c ∈ space, isSpace c = true) ∧
      ∃ front c, '<' :: name = front ++ [c] ∧ isSpace c = false := by
  have whole := List.takeWhile_append_dropWhile (p := isSpace) (l := inside.reverse)
  have clear := List.all_takeWhile (p := isSpace) (l := inside.reverse)
  have stop := List.head?_dropWhile_not isSpace inside.reverse
  obtain ⟨front,c,ends,blank⟩ := spaced
  have some : inside.reverse.takeWhile isSpace ≠ [] := by
    rcases List.eq_nil_or_concat' inside with rfl | ⟨stem,d,rfl⟩
    · obtain ⟨-,same⟩ := List.append_inj' (show [] ++ ['<'] = front ++ [c] from ends) rfl
      cases same
      contradiction
    · obtain ⟨-,same⟩ := List.append_inj' (show '<' :: stem ++ [d] = front ++ [c] from ends) rfl
      cases same
      simp [blank]
  generalize inside.reverse.takeWhile isSpace = space at *
  generalize inside.reverse.dropWhile isSpace = name at *
  have split : inside = name.reverse ++ space.reverse := by
    rw [← List.reverse_append,whole,List.reverse_reverse]
  refine ⟨name.reverse,space.reverse,split,⟨by simpa using some,fun d member => ?_⟩,?_⟩
  · exact List.all_eq_true.mp clear d (List.mem_reverse.mp member)
  · cases name with
    | nil => exact ⟨[],'<',rfl,rfl⟩
    | cons d name =>
      simp only [List.head?_cons] at stop
      exact ⟨'<' :: name.reverse,d,by simp,stop⟩

theorem Located.exists_lies {document : Text} {attr : StyleAttr} (located : Located document attr) :
    ∃ text name space body rest, slice? document attr.tag = some text ∧
      attr.classAttr = classOf? attr.tag.start text ∧ attr.Lies attr.tag.start text name space body rest := by
  obtain ⟨behind,value,rest,rfl,spaced,-,found⟩ := located
  simp only [styleAttr?,Option.bind_eq_bind,Option.bind_eq_some_iff] at found
  obtain ⟨⟨before,head⟩,opened,tail,closed,same⟩ := found
  obtain ⟨letter,inside,rfl,-,-,whole⟩ := openTag?_eq_some opened
  obtain ⟨content,after,rfl,rfl⟩ := closeTag?_eq_some closed
  have last : ∃ front c, '<' :: (letter :: inside) = front ++ [c] ∧ isSpace c = true := by
    cases behind with
    | nil => contradiction
    | cons c behind =>
      rcases List.eq_nil_or_concat' (letter :: inside) with none | ⟨front,d,named⟩
      · contradiction
      · rw [named,List.reverse_cons,← List.cons_append,← List.append_assoc] at whole
        have same := (List.append_inj' whole rfl).2
        cases same
        exact ⟨'<' :: front,c,by rw [named]; rfl,by simpa using spaced⟩
  obtain ⟨name,space,split,spaces,solid⟩ := exists_name_of_isSpace last
  have size := congrArg byteSize whole
  cases same
  simp only [byteSize_reverse,byteSize_append] at size
  refine ⟨'<' :: (letter :: inside) ++ styleOpen ++ value ++ '"' :: (content ++ ['>']),name,space,
    styleOpen ++ value,content ++ ['>'],slice?_eq_some.mpr ⟨before.reverse,after,?_,?_,?_⟩,?_,?_,?_,spaces,solid⟩
  · rw [whole]
    simp
  · simp
  · simp
  · simp
  · simp [split]
  · rw [split] at size
    simp only [Span.mk.injEq,size,byteSize_append,byteSize_cons,byteSize_nil,utf8Size_quote]
    omega

theorem SolidBefore.le_byteSize {name space rest : Text} {offset : Nat} (solid : SolidBefore (name ++ space ++ rest) offset)
    (spaces : ∀ c ∈ space, isSpace c = true) (before : offset ≤ byteSize (name ++ space)) : offset ≤ byteSize name := by
  obtain ⟨front,c,back,split,unspaced,rfl⟩ := solid
  have short : byteSize (front ++ [c]) ≤ byteSize (name ++ space) := by simpa using before
  obtain ⟨mid,whole,-⟩ := eq_append_of_byteSize_le
    (show front ++ [c] ++ back = name ++ space ++ rest by rw [split]; simp) short
  rcases List.append_eq_append_iff.mp whole with ⟨gap,ends,rfl⟩ | ⟨gap,rfl,-⟩
  · rcases List.eq_nil_or_concat' gap with rfl | ⟨gap,d,rfl⟩
    · rw [List.append_nil] at ends
      simp [← ends]
    · rw [← List.append_assoc] at ends
      obtain ⟨-,same⟩ := List.append_inj' ends rfl
      cases same
      have blank := spaces c (by simp)
      rw [unspaced] at blank
      contradiction
  · simp

namespace TagEdit

/-- The removal of an attribute, from the text of its tag, which begins at `base`. -/
structure Removes (text : Text) (base : Nat) (style : StyleAttr) (change : Change) : Prop where
  made : removal? text base style = some change
  fits : ∃ inside, slice? text change.span = some inside
  stop : change.span.stop = style.attr.stop - base
  solid : SolidBefore text change.span.stop
  kept : ∀ offset, SolidBefore text offset → offset + base ≤ style.attr.start → offset ≤ change.span.start
  named : tagNameEnd text ≤ change.span.start

theorem removes_of_lies {style : StyleAttr} {base : Nat} {text name space body rest : Text}
    (lies : style.Lies base text name space body rest) : Removes text base style
      ⟨⟨byteSize ('<' :: name),byteSize ('<' :: name ++ space ++ (body ++ ['"']))⟩,[]⟩ := by
  obtain ⟨rfl,place,⟨spaced,spaces⟩,front,c,ends,unspaced⟩ := lies
  have cut : Text.cut? ('<' :: name ++ space ++ (body ++ ['"']) ++ rest) (byteSize ('<' :: name ++ space)) =
      some ('<' :: name ++ space,body ++ ['"'] ++ rest) := cut?_eq_some.mpr ⟨by simp,rfl⟩
  have trimmed : ('<' :: name ++ space).reverse.dropWhile isSpace = ('<' :: name).reverse := by
    rw [ends,List.reverse_append,List.reverse_append,List.reverse_singleton,List.singleton_append]
    exact dropWhile_of_stop (fun d member => spaces d (List.mem_reverse.mp member)) unspaced
  refine ⟨?_,⟨space ++ (body ++ ['"']),slice?_eq_some.mpr ⟨'<' :: name,rest,?_,?_,?_⟩⟩,?_,?_,?_,?_⟩
  · rw [removal?,place,Span.within]
    simp only [Nat.add_sub_cancel_left,cut,Option.bind_eq_bind,Option.bind_some,trimmed,byteSize_reverse]
  · simp
  · rfl
  · simp [Nat.add_assoc]
  · rw [place]
    simp
  · exact ⟨'<' :: name ++ space ++ body,'"',rest,by simp,rfl,by simp [Nat.add_assoc]⟩
  · intro offset solid before
    rw [place] at before
    have whole : '<' :: name ++ space ++ (body ++ ['"']) ++ rest = ('<' :: name) ++ space ++ ((body ++ ['"']) ++ rest) := by simp
    rw [whole] at solid
    exact solid.le_byteSize spaces (by dsimp only at before; omega)
  · obtain ⟨first,others,rfl⟩ := List.exists_cons_of_ne_nil spaced
    have stop : (!(isSpace first || first = '/' || first = '>')) = false := by simp [spaces first List.mem_cons_self]
    have whole := List.takeWhile_append_dropWhile (p := fun d => !(isSpace d || d = '/' || d = '>')) (l := name)
    have short := Nat.le_add_right (byteSize (name.takeWhile fun d => !(isSpace d || d = '/' || d = '>')))
      (byteSize (name.dropWhile fun d => !(isSpace d || d = '/' || d = '>')))
    rw [← byteSize_append,whole] at short
    have whole : '<' :: name ++ first :: others ++ (body ++ ['"']) ++ rest =
        '<' :: (name ++ first :: (others ++ (body ++ ['"']) ++ rest)) := by simp
    rw [whole,tagNameEnd,takeWhile_append_cons stop]
    simpa using short

variable {text : Text} {base : Nat} {first second style : StyleAttr} {change other : Change} {named : ClassAttr}
  {edit : TagEdit} {existing : List Text}

theorem Removes.apart (before : Removes text base first change) (after : Removes text base second other)
    (low : base ≤ first.attr.stop) (ordered : first.attr.stop ≤ second.attr.start) : change.Apart other :=
  .inl (after.kept _ before.solid (by rw [before.stop]; omega))

theorem Removes.apart_named (removes : Removes text base style change) (lies : named.Lies base text)
    (beside : named.attr.stop ≤ style.attr.start ∨ style.attr.stop ≤ named.attr.start)
    (inside : named.attr.start - base ≤ other.span.start ∧ other.span.stop ≤ named.attr.stop - base) :
    change.Apart other := by
  have wide := lies.inside
  rcases beside with before | after
  · exact .inr (Nat.le_trans inside.2 (removes.kept _ lies.solid (by omega)))
  · refine .inl ?_
    rw [removes.stop]
    omega

theorem slice?_tagNameEnd (text : Text) : slice? text ⟨tagNameEnd text,tagNameEnd text⟩ = some [] := by
  cases text with
  | nil => rfl
  | cons c rest =>
    exact slice?_eq_some.mpr ⟨c :: rest.takeWhile fun d => !(isSpace d || d = '/' || d = '>'),
      rest.dropWhile fun d => !(isSpace d || d = '/' || d = '>'),by simp,by simp [tagNameEnd],by simp [tagNameEnd]⟩

theorem span_of_mem_naming (member : change ∈ edit.naming text existing) :
    (edit.classAttr = none ∧ change.span = ⟨tagNameEnd text,tagNameEnd text⟩) ∨
      ∃ named, edit.classAttr = some named ∧
        (change.span = named.value.within edit.tag.start ∨ change.span = named.attr.within edit.tag.start) := by
  unfold naming at member
  split at member
  next => contradiction
  next =>
    split at member
    next none =>
      rw [List.mem_singleton.mp member]
      exact .inl ⟨none,rfl⟩
    next named some =>
      refine .inr ⟨named,some,?_⟩
      split at member
      next => contradiction
      next =>
        split at member
        next =>
          rw [List.mem_singleton.mp member]
          exact .inl rfl
        next =>
          rw [List.mem_singleton.mp member]
          exact .inr rfl

theorem pairwise_naming (edit : TagEdit) (text : Text) (existing : List Text) :
    (edit.naming text existing).Pairwise Change.Apart := by
  unfold naming
  split
  next => exact .nil
  next =>
    split
    next => exact List.pairwise_singleton _ _
    next =>
      split
      next => exact .nil
      next => split <;> exact List.pairwise_singleton _ _

theorem exists_removals {styles : List StyleAttr}
    (removes : ∀ style ∈ styles, base ≤ style.attr.stop ∧ ∃ change, Removes text base style change)
    (ordered : styles.Pairwise fun first second => first.attr.stop ≤ second.attr.start) :
    ∃ removals, styles.mapM (removal? text base) = some removals ∧ removals.Pairwise Change.Apart ∧
      List.Forall₂ (Removes text base) styles removals := by
  induction styles with
  | nil => exact ⟨[],rfl,.nil,.nil⟩
  | cons style rest ih =>
    obtain ⟨before,later⟩ := List.pairwise_cons.mp ordered
    obtain ⟨low,change,removal⟩ := removes style List.mem_cons_self
    obtain ⟨removals,made,apart,known⟩ := ih (fun other member => removes other (List.mem_cons_of_mem _ member)) later
    refine ⟨change :: removals,by rw [List.mapM_cons,removal.made,made]; rfl,
      List.pairwise_cons.mpr ⟨fun other member => ?_,apart⟩,.cons removal known⟩
    obtain ⟨second,among,removed⟩ := exists_of_forall₂ known.flip other member
    exact removal.apart removed low (before second among)

/-- What an edit exchanges, found in the unchanged tag. -/
structure Prepared (edit : TagEdit) (document text : Text) (existing : List Text) (removals : List Change) : Prop where
  whole : slice? document edit.tag = some text
  removes : List.Forall₂ (Removes text edit.tag.start) edit.styles removals
  apart : removals.Pairwise Change.Apart
  read : edit.existing? document = some existing
  changes : edit.changes? document = some (removals ++ edit.naming text existing)
  lies : ∀ named, edit.classAttr = some named → named.Lies edit.tag.start text

namespace Prepared

variable {document : Text} {removals : List Change}

theorem exists_style (prepared : edit.Prepared document text existing removals) (member : change ∈ removals) :
    ∃ style ∈ edit.styles, Removes text edit.tag.start style change :=
  exists_of_forall₂ prepared.removes.flip change member

theorem fits (prepared : edit.Prepared document text existing removals)
    (member : change ∈ removals ++ edit.naming text existing) : ∃ inside, slice? text change.span = some inside := by
  rcases List.mem_append.mp member with removal | naming
  · obtain ⟨style,-,removed⟩ := prepared.exists_style removal
    exact removed.fits
  · rcases span_of_mem_naming naming with ⟨-,place⟩ | ⟨named,some,place | place⟩
    · exact ⟨[],by rw [place]; exact slice?_tagNameEnd text⟩
    · rw [place]
      exact (prepared.lies named some).value
    · rw [place]
      exact (prepared.lies named some).attr

theorem pairwise_apart (prepared : edit.Prepared document text existing removals)
    (beside : edit.add = [] ∨ ∀ named, edit.classAttr = some named →
      ∀ style ∈ edit.styles, named.attr.stop ≤ style.attr.start ∨ style.attr.stop ≤ named.attr.start) :
    (removals ++ edit.naming text existing).Pairwise Change.Apart := by
  refine List.pairwise_append.mpr ⟨prepared.apart,pairwise_naming edit text existing,fun change removal other naming => ?_⟩
  obtain ⟨style,among,removed⟩ := prepared.exists_style removal
  rcases beside with none | beside
  · rw [TagEdit.naming,if_pos none] at naming
    contradiction
  · rcases span_of_mem_naming naming with ⟨-,place⟩ | ⟨named,some,place⟩
    · exact .inr (by rw [place]; exact removed.named)
    · have lies := prepared.lies named some
      have bounds := lies.inside
      refine removed.apart_named lies (beside named some style among) ?_
      rcases place with place | place <;> rw [place] <;> simp only [Span.within] <;> omega

/-- A tag can be rendered if its pieces do not overlap, and all of them are exchanged at once. -/
theorem exists_render? (prepared : edit.Prepared document text existing removals)
    (apart : (removals ++ edit.naming text existing).Pairwise Change.Apart) :
    ∃ segments, Segment.textOf segments = text ∧ edit.render? document = some (Segment.shownOf segments) ∧
      (removals ++ edit.naming text existing).Perm (Segment.changesFrom 0 segments) := by
  obtain ⟨segments,split,same,done⟩ := Change.exists_foldlM_mergeSort apart fun _ => prepared.fits
  refine ⟨segments,split,?_,same⟩
  simp only [render?,prepared.whole,prepared.changes,Option.bind_eq_bind,Option.bind_some,done]

end Prepared

theorem exists_prepared {document : Text} (whole : slice? document edit.tag = some text)
    (removes : ∀ style ∈ edit.styles, edit.tag.start ≤ style.attr.stop ∧
      ∃ change, Removes text edit.tag.start style change)
    (ordered : edit.styles.Pairwise fun first second => first.attr.stop ≤ second.attr.start)
    (lies : ∀ named, edit.classAttr = some named → named.Lies edit.tag.start text) :
    ∃ existing removals, edit.Prepared document text existing removals := by
  obtain ⟨removals,made,apart,known⟩ := exists_removals removes ordered
  have read : ∃ existing, edit.existing? document = some existing := by
    unfold existing?
    split
    next => exact ⟨[],rfl⟩
    next named some =>
      obtain ⟨inside,found⟩ := (lies named some).value
      have bounds := (lies named some).inside
      exact ⟨_,by rw [slice?_outer whole found (by omega) bounds.2.2.1]; rfl⟩
  obtain ⟨existing,read⟩ := read
  refine ⟨existing,removals,whole,known,apart,read,?_,lies⟩
  simp only [changes?,whole,made,read,Option.bind_eq_bind,Option.bind_some]

end TagEdit

/-- Tags that can be rendered and do not overlap are exchanged from left to right. -/
theorem exists_assemble? {document : Text} {edits : List TagEdit}
    (rendered : ∀ edit ∈ edits, ∃ result, edit.render? document = some result)
    (ordered : edits.Pairwise fun first second => first.tag.stop ≤ second.tag.start)
    {front rest : Text} (whole : document = front ++ rest)
    (ahead : ∀ edit ∈ edits, byteSize front ≤ edit.tag.start) (written : Nat) :
    ∃ result, assemble? document rest (byteSize front) written edits = some result := by
  induction edits generalizing front rest written with
  | nil => exact ⟨_,rfl⟩
  | cons edit later ih =>
    obtain ⟨before,others⟩ := List.pairwise_cons.mp ordered
    obtain ⟨replacement,render⟩ := rendered edit List.mem_cons_self
    obtain ⟨text,tag⟩ : ∃ text, slice? document edit.tag = some text := by
      rw [TagEdit.render?,Option.bind_eq_bind,Option.bind_eq_some_iff] at render
      obtain ⟨text,tag,-⟩ := render
      exact ⟨text,tag⟩
    obtain ⟨left,right,split,start,stop⟩ := slice?_eq_some.mp tag
    have short : byteSize front ≤ byteSize left := start ▸ ahead edit List.mem_cons_self
    obtain ⟨between,rfl,rfl⟩ := eq_append_of_byteSize_le
      (show front ++ rest = left ++ (text ++ right) by rw [← whole,split,List.append_assoc]) short
    have reached : byteSize (front ++ between ++ text) = edit.tag.stop :=
      (byteSize_append _ _).trans stop
    obtain ⟨⟨tail,applied⟩,done⟩ := ih (fun other member => rendered other (List.mem_cons_of_mem _ member))
      others split (fun other member => by rw [reached]; exact before other member)
      (written + byteSize between + byteSize replacement)
    exact ⟨_,assemble?_append start.symm reached.symm render done⟩

end StyleHoist.Markup
