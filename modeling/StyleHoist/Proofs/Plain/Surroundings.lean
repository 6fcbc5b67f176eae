import StyleHoist.Proofs.Markup.Quotes
import StyleHoist.Proofs.Plain.Shape

/-! What is found around an attribute of a plain tag: the bracket that opens the
tag, the one that closes it, and the class attribute. -/
namespace StyleHoist.Markup

open Text

theorem openTag?_inside {inside before : Text} (letter : ∃ c rest, inside = c :: rest ∧ c.isAlpha = true)
    (clear : ∀ c ∈ inside, isBracket c = false) :
    openTag? (inside.reverse ++ '<' :: before) = some (before,'<' :: inside) := by
  obtain ⟨c,rest,rfl,alphabetic⟩ := letter
  have open_ : ∀ d ∈ (c :: rest).reverse, (!isBracket d) = true := by
    intro d member
    rw [clear d (List.mem_reverse.mp member)]
    rfl
  rw [openTag?_eq,takeWhile_of_stop open_ rfl,dropWhile_of_stop open_ rfl]
  simp [alphabetic]

namespace Attribute

theorem Plain.quoteAfter_print {attr : Attribute} (plain : attr.Plain) : quoteAfter none attr.print = none := by
  have outer := quoteAfter_unquoted fun c member => (plain.outer_clear c member).1
  cases valued : attr.value with
  | none => rwa [print_of_none valued]
  | some value =>
    have opens (text : Text) : quoteAfter none ('=' :: '"' :: text) = quoteAfter (some '"') text := rfl
    rw [print_of_some valued,List.append_assoc,quoteAfter_append,outer,List.cons_append,List.cons_append,opens,
      quoteAfter_append,quoteAfter_within (plain.unquoted valued)]
    rfl

theorem quoteAfter_flatMap {attributes : List Attribute} (plain : ∀ attr ∈ attributes, attr.Plain) :
    quoteAfter none (attributes.flatMap print) = none := by
  induction attributes with
  | nil => rfl
  | cons attr rest ih =>
    rw [List.flatMap_cons,quoteAfter_append,(plain attr List.mem_cons_self).quoteAfter_print]
    exact ih fun other member => plain other (List.mem_cons_of_mem _ member)

end Attribute

namespace Tag

theorem closeTag?_finish {tag : Tag} (formed : tag.Formed) (read rest : Text) :
    closeTag? none read (tag.finish ++ rest) = some (tag.finish.reverse ++ read) := by
  have spaces (c : Char) (member : c ∈ tag.space) := clear_of_isSpace (formed.space c member)
  rw [finish,List.append_assoc,closeTag?_past fun c member => (spaces c member).2,
    quoteAfter_unquoted fun c member => (spaces c member).1]
  cases tag.slash <;> simp [closeTag?,isQuote]

theorem closeTag?_attributes {tag : Tag} (formed : tag.Formed) {attributes : List Attribute}
    (legible : ∀ attr ∈ attributes, attr.Legible) (level : quoteAfter none (attributes.flatMap Attribute.print) = none)
    (read rest : Text) :
    closeTag? none read (attributes.flatMap Attribute.print ++ tag.finish ++ rest) =
      some ((attributes.flatMap Attribute.print ++ tag.finish).reverse ++ read) := by
  have clear : ∀ c ∈ attributes.flatMap Attribute.print, isBracket c = false := by
    intro c member
    obtain ⟨attr,among,inside⟩ := List.mem_flatMap.mp member
    exact (legible attr among).print_clear inside
  rw [List.append_assoc,closeTag?_past clear,level,closeTag?_finish formed]
  simp

end Tag

section Class

variable {before : Char} {offset : Nat} {text rest : Text}

theorem classIn?_cons {c : Char} (absent : isSpace before = true → after? classOpen (c :: rest) = none)
    (unquoted : isQuote c = false) :
    classIn? none before offset (c :: rest) = classIn? none c (offset + c.utf8Size) rest := by
  rw [classIn?]
  cases space : isSpace before with
  | false => simp [unquoted]
  | true => simp [absent space,unquoted]

theorem classIn?_word (offset : Nat) (solid : isSpace before = false)
    (word : ∀ c ∈ text, isSpace c = false ∧ isQuote c = false) :
    ∃ last, ∀ rest, classIn? none before offset (text ++ rest) =
      classIn? none last (offset + byteSize text) rest := by
  induction text generalizing before offset with
  | nil => exact ⟨before,fun rest => rfl⟩
  | cons c text ih =>
    obtain ⟨space,quote⟩ := word c List.mem_cons_self
    obtain ⟨last,passed⟩ := ih (offset + c.utf8Size) space
      fun d member => word d (List.mem_cons_of_mem _ member)
    refine ⟨last,fun rest => ?_⟩
    rw [List.cons_append,classIn?_cons (fun spaced => by rw [solid] at spaced; contradiction) quote,
      passed,byteSize_cons,Nat.add_assoc]

theorem classIn?_space (before : Char) (offset : Nat) (some : text ≠ []) (spaces : ∀ c ∈ text, isSpace c = true) :
    ∃ last, isSpace last = true ∧ ∀ rest, classIn? none before offset (text ++ rest) =
      classIn? none last (offset + byteSize text) rest := by
  induction text generalizing before offset with
  | nil => exact absurd rfl some
  | cons c text ih =>
    have space := spaces c List.mem_cons_self
    have step (rest : Text) : classIn? none before offset (c :: rest) =
        classIn? none c (offset + c.utf8Size) rest := by
      apply classIn?_cons
      · intro
        rcases isSpace_cases space with rfl | rfl | rfl | rfl | rfl <;> rfl
      · rcases isSpace_cases space with rfl | rfl | rfl | rfl | rfl <;> rfl
    cases text with
    | nil => exact ⟨c,space,fun rest => by simpa using step rest⟩
    | cons d text =>
      obtain ⟨last,ends,passed⟩ := ih c (offset + c.utf8Size)
        (List.cons_ne_nil d text) fun e member => spaces e (List.mem_cons_of_mem _ member)
      refine ⟨last,ends,fun rest => ?_⟩
      rw [List.cons_append,step,passed,byteSize_cons c,Nat.add_assoc]

theorem classIn?_found {value : Text} (spaced : isSpace before = true)
    (opened : after? classOpen text = some value) :
    classIn? none before offset text = classValue? offset (offset + byteSize classOpen) value := by
  cases text with
  | nil => exact absurd (after?_eq_some.mp opened).symm (List.append_ne_nil_of_left_ne_nil (by decide) _)
  | cons c text => simp [classIn?,spaced,opened]

theorem classIn?_none (other : ∀ c ∈ text, c ≠ 'c' ∧ isQuote c = false) :
    classIn? none before offset text = none := by
  induction text generalizing before offset with
  | nil => rfl
  | cons c text ih =>
    obtain ⟨letter,quote⟩ := other c List.mem_cons_self
    have absent : after? classOpen (c :: text) = none := if_neg letter.symm
    rw [classIn?_cons (fun _ => absent) quote]
    exact ih fun d member => other d (List.mem_cons_of_mem _ member)

theorem classIn?_quoted (unquoted : '"' ∉ text) :
    classIn? (some '"') before offset (text ++ '"' :: rest) =
      classIn? none '"' (offset + byteSize text + 1) rest := by
  have inside (front back : Text) (split : text = front ++ (classOpen ++ back)) : quoteAfter (some '"') front ≠ none := by
    rw [quoteAfter_within fun member => unquoted (split ▸ List.mem_append_left _ member)]
    exact Option.some_ne_none _
  have other : '"' ∉ classOpen := by decide
  obtain ⟨last,passed⟩ := classIn?_past other (some '"') before offset fun front back split _ => inside front back split
  rw [passed,quoteAfter_within unquoted]
  rfl

end Class

namespace Attribute

variable {attr : Attribute} {before : Char} {offset : Nat} {rest : Text}

theorem equals_not_mem (formed : attr.Formed) : '=' ∉ attr.name :=
  fun member => (isNameChar_eq_true (formed.name _ member)).2.2.2.2 rfl

private theorem classOpen_eq : classOpen = "class".toList ++ ['='] := rfl

theorem after?_classOpen (formed : attr.Formed) (rest : Text) :
    after? classOpen (attr.name ++ '=' :: rest) = if attr.isClass then some rest else none := by
  by_cases named : attr.name = "class".toList
  · have same : attr.name ++ '=' :: rest = classOpen ++ rest := by rw [named]; rfl
    rw [same,after?_append,isClass,decide_eq_true named,if_pos rfl]
  · rw [isClass,decide_eq_false named,if_neg Bool.false_ne_true]
    cases found : after? classOpen (attr.name ++ '=' :: rest) with
    | none => rfl
    | some tail =>
      have whole := after?_eq_some.mp found
      rw [classOpen_eq,List.append_assoc,List.singleton_append] at whole
      have inside : ∀ c ∈ attr.name, decide (c ≠ '=') = true := by
        intro c member
        rw [decide_eq_true_eq]
        rintro rfl
        exact equals_not_mem formed member
      have letters : "class".toList.all (fun c => decide (c ≠ '=')) = true := rfl
      have front := congrArg (List.takeWhile fun c => decide (c ≠ '=')) whole
      rw [takeWhile_of_stop inside rfl,takeWhile_of_stop (List.all_eq_true.mp letters) rfl] at front
      exact absurd front named

theorem after?_classOpen_ends (formed : attr.Formed) (ends : Ends rest) :
    after? classOpen (attr.name ++ rest) = none := by
  obtain ⟨c,tail,rfl,stop⟩ := ends
  rw [after?_append_cons (not_mem_open_of_endsName stop).2,Option.map_eq_none_iff]
  cases found : after? classOpen attr.name with
  | none => rfl
  | some tail =>
    have whole := after?_eq_some.mp found
    exact absurd (whole ▸ List.mem_append_left tail (by decide)) (equals_not_mem formed)

theorem classIn?_name (before : Char) (offset : Nat) (formed : attr.Formed) (absent : after? classOpen (attr.name ++ rest) = none) :
    ∃ last, classIn? none before offset (attr.name ++ rest) =
      classIn? none last (offset + byteSize attr.name) rest := by
  have word := word_of_isNameChar formed.name
  obtain ⟨c,name,named⟩ := List.exists_cons_of_ne_nil formed.named
  rw [named] at absent word ⊢
  obtain ⟨space,quote⟩ := word c List.mem_cons_self
  obtain ⟨last,passed⟩ := classIn?_word (offset + c.utf8Size) space
    fun d member => word d (List.mem_cons_of_mem _ member)
  have head : after? classOpen (c :: (name ++ rest)) = none := absent
  refine ⟨last,?_⟩
  rw [List.cons_append,classIn?_cons (fun _ => head) quote,passed,byteSize_cons,Nat.add_assoc]

theorem byteSize_print {value : Text} (valued : attr.value = some value) :
    byteSize attr.print = byteSize attr.space + byteSize attr.name + byteSize value + 3 := by
  rw [print_of_some valued]
  simp only [byteSize_append,byteSize_cons,byteSize_nil,utf8Size_equals,utf8Size_quote]
  omega

theorem print_append_of_some {value : Text} (valued : attr.value = some value) (rest : Text) :
    attr.print ++ rest = attr.space ++ (attr.name ++ '=' :: '"' :: (value ++ '"' :: rest)) := by
  simp [print_of_some valued]

theorem classIn?_other (before : Char) (offset : Nat) (plain : attr.Plain) (other : attr.isClass = false) (ends : Ends rest) :
    ∃ last, classIn? none before offset (attr.print ++ rest) =
      classIn? none last (offset + byteSize attr.print) rest := by
  obtain ⟨space,-,spaced⟩ := classIn?_space before offset plain.spaced plain.space
  cases valued : attr.value with
  | none =>
    obtain ⟨last,named⟩ := classIn?_name space
      (offset + byteSize attr.space) plain.toFormed (after?_classOpen_ends plain.toFormed ends)
    refine ⟨last,?_⟩
    rw [print_of_none valued,List.append_assoc,spaced,named,byteSize_append,Nat.add_assoc]
  | some value =>
    have absent : after? classOpen (attr.name ++ '=' :: '"' :: (value ++ '"' :: rest)) = none := by
      rw [after?_classOpen plain.toFormed,other,if_neg Bool.false_ne_true]
    obtain ⟨last,named⟩ := classIn?_name space
      (offset + byteSize attr.space) plain.toFormed absent
    have sign (offset : Nat) (text : Text) : classIn? none last offset ('=' :: text) =
        classIn? none '=' (offset + 1) text := classIn?_cons (fun _ => rfl) rfl
    have opens (offset : Nat) (text : Text) : classIn? none '=' offset ('"' :: text) =
        classIn? (some '"') '"' (offset + 1) text := rfl
    refine ⟨'"',?_⟩
    rw [print_append_of_some valued,spaced,named,sign,opens,classIn?_quoted (plain.unquoted valued),
      byteSize_print valued]
    congr 1
    omega

theorem not_isStyle_of_isClass (named : attr.isClass = true) : attr.isStyle = false := by
  rw [isClass,decide_eq_true_eq] at named
  rw [isStyle,named]
  rfl

theorem classIn?_class (legible : attr.Legible) (named : attr.isClass = true) :
    classIn? none before offset (attr.print ++ rest) =
      some ⟨attr.span offset,attr.valueSpan offset,true⟩ := by
  obtain ⟨space,ends,spaced⟩ := classIn?_space before offset legible.spaced legible.space
  obtain ⟨value,valued⟩ := legible.exists_value (.inr named)
  have opened : after? classOpen (attr.name ++ '=' :: '"' :: (value ++ '"' :: rest)) =
      some ('"' :: (value ++ '"' :: rest)) := by
    rw [after?_classOpen legible.toFormed,named,if_pos rfl]
  have inside : ∀ c ∈ value, decide (c ≠ '"') = true := by
    intro c member
    rw [decide_eq_true_eq]
    rintro rfl
    exact (legible.passed (not_isStyle_of_isClass named) value valued).1 member
  have size : byteSize attr.name = 5 := by
    rw [isClass,decide_eq_true_eq] at named
    rw [named]
    rfl
  have lead : byteSize classOpen = 6 := rfl
  have whole : ¬value.length = (value ++ '"' :: rest).length := by simp
  rw [print_append_of_some valued,spaced,classIn?_found ends opened,classValue?,
    if_pos (by rfl),takeWhile_of_stop inside rfl]
  simp only [whole,if_false,span,valueSpan,byteSize_print valued,size,lead]
  congr 3 <;> omega

end Attribute

/-- The place of the first class attribute among some that are printed at an offset. -/
def locateClass (offset : Nat) : List Attribute → Option ClassAttr
  | [] => none
  | attr :: rest =>
    if attr.isClass then some ⟨attr.span offset,attr.valueSpan offset,true⟩
    else locateClass (offset + byteSize attr.print) rest

namespace Tag

variable {tag : Tag}

/-- The offset of the attributes of a tag printed at some place. -/
def inner (tag : Tag) (start : Nat) : Nat := start + 1 + byteSize tag.name

theorem classIn?_finish (formed : tag.Formed) (before : Char) (offset : Nat) :
    classIn? none before offset tag.finish = none := by
  apply classIn?_none
  intro c member
  rcases List.mem_append.mp member with space | tail
  · rcases isSpace_cases (formed.space c space) with rfl | rfl | rfl | rfl | rfl <;> decide
  · cases slash : tag.slash with
    | false =>
      rw [slash] at tail
      rw [List.mem_singleton.mp tail]
      decide
    | true =>
      rw [slash] at tail
      have either : c = '/' ∨ c = '>' := by simpa using tail
      rcases either with rfl | rfl <;> decide

theorem classIn?_attributes (plain : tag.Plain) {attributes : List Attribute}
    (inside : ∀ attr ∈ attributes, attr.Plain) (before : Char) (offset : Nat) :
    classIn? none before offset (attributes.flatMap Attribute.print ++ tag.finish) =
      locateClass offset attributes := by
  induction attributes generalizing before offset with
  | nil => exact classIn?_finish plain.toFormed before offset
  | cons attr attributes ih =>
    have head := inside attr List.mem_cons_self
    have tail : ∀ other ∈ attributes, other.Plain :=
      fun other member => inside other (List.mem_cons_of_mem _ member)
    rw [List.flatMap_cons,List.append_assoc,locateClass]
    cases named : attr.isClass with
    | true =>
      rw [Attribute.classIn?_class head.legible named]
      rfl
    | false =>
      obtain ⟨last,passed⟩ := Attribute.classIn?_other before offset head named
        (ends_attributes plain.toFormed fun other member => (tail other member).toFormed)
      rw [passed,ih tail]
      rfl

theorem classOf?_print (plain : tag.Plain) (start : Nat) :
    classOf? start tag.print = locateClass (tag.inner start) tag.attributes := by
  have solid : isSpace '<' = false := rfl
  obtain ⟨last,passed⟩ := classIn?_word (start + 1) solid (Attribute.word_of_isNameChar plain.name)
  rw [print_eq,classOf?,utf8Size_open,passed,classIn?_attributes plain plain.each,inner]

def spanAt (tag : Tag) (start : Nat) : Span := ⟨start,start + byteSize tag.print⟩

/-- A tag in which the searches find what was printed: quotes are closed behind each style attribute,
and so they are where the class attribute stands. -/
structure Legible (tag : Tag) : Prop extends tag.Formed where
  each : ∀ attr ∈ tag.attributes, attr.Legible
  level : ∀ attr rest, attr :: rest <:+ tag.attributes → attr.isStyle = true →
    quoteAfter none (rest.flatMap Attribute.print) = none
  classed : ∀ start, classOf? start tag.print = locateClass (tag.inner start) tag.attributes

theorem Plain.legible (plain : tag.Plain) : tag.Legible where
  toFormed := plain.toFormed
  each attr member := (plain.each attr member).legible
  level _ _ suffix _ := Attribute.quoteAfter_flatMap fun other member =>
    plain.each other (suffix.mem (List.mem_cons_of_mem _ member))
  classed := classOf?_print plain

theorem styleAttr?_print (legible : tag.Legible) {done rest : List Attribute} {attr : Attribute}
    (split : tag.attributes = done ++ attr :: rest) (named : attr.isStyle = true) {value : Text}
    (valued : attr.value = some value) (before after : Text) {offset : Nat}
    (place : offset = tag.inner (byteSize before) + byteSize (done.flatMap Attribute.print)) :
    styleAttr? ((tag.name ++ done.flatMap Attribute.print ++ attr.space).reverse ++ '<' :: before) value
        (rest.flatMap Attribute.print ++ tag.finish ++ after) =
      some ⟨attr.span offset,attr.valueSpan offset,tag.spanAt (byteSize before),
        locateClass (tag.inner (byteSize before)) tag.attributes⟩ := by
  have inside : ∀ other ∈ done ++ attr :: rest, other.Legible := split ▸ legible.each
  have front : ∀ other ∈ done, other.Legible :=
    fun other member => inside other (List.mem_append_left _ member)
  have back : ∀ other ∈ rest, other.Legible :=
    fun other member => inside other (List.mem_append_right _ (List.mem_cons_of_mem _ member))
  have here : attr.Legible := inside attr (List.mem_append_right _ List.mem_cons_self)
  have closed (read : Text) := closeTag?_attributes legible.toFormed back (legible.level attr rest ⟨done,split.symm⟩ named) read after
  have letter : ∃ c tail, tag.name ++ done.flatMap Attribute.print ++ attr.space = c :: tail ∧
      c.isAlpha = true := by
    obtain ⟨c,tail,named,alphabetic⟩ := legible.letter
    exact ⟨c,_,by rw [named]; rfl,alphabetic⟩
  have clear : ∀ c ∈ tag.name ++ done.flatMap Attribute.print ++ attr.space, isBracket c = false := by
    intro c member
    rcases List.mem_append.mp member with member | space
    · rcases List.mem_append.mp member with name | printed
      · exact (Attribute.isNameChar_eq_true (legible.name c name)).2.2.1
      · obtain ⟨other,among,within⟩ := List.mem_flatMap.mp printed
        exact (front other among).print_clear within
    · exact here.outer_clear c (List.mem_append_left _ space) |>.2
  rw [Attribute.isStyle,decide_eq_true_eq] at named
  have opening : styleOpen = attr.name ++ ['=','"'] := by rw [named]; rfl
  have lead : byteSize attr.name = 5 := by rw [named]; rfl
  have size : byteSize styleOpen = 7 := rfl
  have whole : ('<' :: (tag.name ++ done.flatMap Attribute.print ++ attr.space)) ++ styleOpen ++ value ++
      '"' :: (rest.flatMap Attribute.print ++ tag.finish) = tag.print := by
    rw [print_eq,split,opening]
    simp [Attribute.print_of_some valued]
  rw [styleAttr?]
  simp only [Option.bind_eq_bind,openTag?_inside letter clear,Option.bind_some,
    closed,List.append_nil,List.reverse_reverse,whole,legible.classed]
  simp only [Attribute.span,Attribute.valueSpan,spanAt,Attribute.byteSize_print valued,lead,size,
    byteSize_append,byteSize_reverse,byteSize_cons,utf8Size_open,place,inner]
  congr 3 <;> omega

end Tag

end StyleHoist.Markup
