import StyleHoist.Markup.Plain
import StyleHoist.Proofs.Markup.Escaping

/-! The characters of a printed tag: which of them can stand where, and where each
attribute lies once the tag is printed at some place. Most of it holds whatever the
values are; what is asked of them is kept apart. -/
namespace StyleHoist.Markup

open Text

def endsName (c : Char) : Bool := isSpace c || c = '/' || c = '>'

theorem endsName_eq_false_of_isSpace {c : Char} (space : isSpace c = true) : endsName c = true := by
  rw [endsName,space,Bool.true_or,Bool.true_or]

theorem isSpace_cases {c : Char} (space : isSpace c = true) :
    c = ' ' ∨ c = '\t' ∨ c = '\n' ∨ c = '\x0c' ∨ c = '\r' := by
  simpa [isSpace,or_assoc] using space

theorem clear_of_isSpace {c : Char} (space : isSpace c = true) :
    isQuote c = false ∧ isBracket c = false := by
  rcases isSpace_cases space with rfl | rfl | rfl | rfl | rfl <;> decide

theorem endsName_cases {c : Char} (ends : endsName c = true) :
    isSpace c = true ∨ c = '/' ∨ c = '>' := by
  simpa [endsName,or_assoc] using ends

theorem not_mem_open_of_endsName {c : Char} (ends : endsName c = true) :
    c ∉ styleOpen ∧ c ∉ classOpen := by
  rcases endsName_cases ends with space | rfl | rfl
  · rcases isSpace_cases space with rfl | rfl | rfl | rfl | rfl <;> decide
  · decide
  · decide

/-- Text that begins with a character that ends a name. -/
def Ends (text : Text) : Prop := ∃ c rest, text = c :: rest ∧ endsName c = true

theorem Ends.append {text : Text} (ends : Ends text) (rest : Text) : Ends (text ++ rest) := by
  obtain ⟨c,tail,rfl,stop⟩ := ends
  exact ⟨c,tail ++ rest,rfl,stop⟩

namespace Attribute

theorem isNameChar_eq_true {c : Char} (letter : isNameChar c = true) :
    isSpace c = false ∧ isQuote c = false ∧ isBracket c = false ∧ c ≠ '/' ∧ c ≠ '=' := by
  simp [isNameChar] at letter
  simp [isBracket,letter]

theorem endsName_eq_false {c : Char} (letter : isNameChar c = true) : endsName c = false := by
  obtain ⟨space,-,bracket,slash,-⟩ := isNameChar_eq_true letter
  simp [isBracket] at bracket
  simp [endsName,space,slash,bracket]

theorem word_of_isNameChar {name : Text} (letters : ∀ c ∈ name, isNameChar c = true) :
    ∀ c ∈ name, isSpace c = false ∧ isQuote c = false := by
  intro c member
  have letter := isNameChar_eq_true (letters c member)
  exact ⟨letter.1,letter.2.1⟩

theorem quote_not_mem {name : Text} (letters : ∀ c ∈ name, isNameChar c = true) : '"' ∉ name := by
  intro member
  exact absurd (word_of_isNameChar letters _ member).2 (by decide)

/-- What is asked of an attribute around its value. -/
structure Formed (attr : Attribute) : Prop where
  spaced : attr.space ≠ []
  space : ∀ c ∈ attr.space, isSpace c = true
  named : attr.name ≠ []
  name : ∀ c ∈ attr.name, isNameChar c = true
  bare : attr.value = none → attr.isStyle = false ∧ attr.isClass = false

/-- What `isPlain` asks of an attribute. -/
structure Plain (attr : Attribute) : Prop extends attr.Formed where
  value : ∀ value ∈ attr.value, (∀ c ∈ value, isValueChar c = true) ∧ ¬"style=".toList <:+ value

/-- An attribute whose value the scan takes, or passes over, up to the quote that was printed. -/
structure Legible (attr : Attribute) : Prop extends attr.Formed where
  clear : ∀ value ∈ attr.value, ∀ c ∈ value, isBracket c = false
  taken : attr.isStyle = true → ∀ value ∈ attr.value, Escaped value ∧ value.getLast? ≠ some '\\'
  passed : attr.isStyle = false → ∀ value ∈ attr.value, '"' ∉ value ∧ ¬"style=".toList <:+ value

theorem plain_of_isPlain {attr : Attribute} (plain : attr.isPlain = true) : attr.Plain := by
  obtain ⟨space,name,value⟩ := attr
  simp only [isPlain,Bool.and_eq_true,decide_eq_true_eq,List.all_eq_true] at plain
  obtain ⟨⟨⟨⟨spaced,spaces⟩,named⟩,names⟩,valued⟩ := plain
  refine ⟨⟨spaced,spaces,named,names,?_⟩,?_⟩
  · rintro rfl
    simpa using valued
  · rintro value rfl
    simpa only [isPlainValue,Bool.and_eq_true,List.all_eq_true,Bool.not_eq_true',← Bool.not_eq_true,
      List.isSuffixOf_iff_suffix] using valued

theorem print_of_none {attr : Attribute} (bare : attr.value = none) :
    attr.print = attr.space ++ attr.name := by
  rw [print,bare]
  exact List.append_nil _

theorem print_of_some {attr : Attribute} {value : Text} (valued : attr.value = some value) :
    attr.print = attr.space ++ attr.name ++ '=' :: '"' :: value ++ ['"'] := by
  rw [print,valued]
  simp

/-- The place of an attribute printed at an offset, without the space before it. -/
def span (attr : Attribute) (offset : Nat) : Span :=
  ⟨offset + byteSize attr.space,offset + byteSize attr.print⟩

/-- The place of the value of an attribute printed at an offset. -/
def valueSpan (attr : Attribute) (offset : Nat) : Span :=
  ⟨offset + byteSize attr.space + byteSize attr.name + 2,offset + byteSize attr.print - 1⟩

section

variable {attr : Attribute}

theorem Plain.value_ne (plain : attr.Plain) {value : Text} (valued : attr.value = some value) {c : Char}
    (member : c ∈ value) : c ≠ '"' ∧ c ≠ '\\' ∧ isBracket c = false := by
  have inside := (plain.value value valued).1 c member
  simp [isValueChar] at inside
  simp [isBracket,inside]

theorem Plain.unquoted (plain : attr.Plain) {value : Text} (valued : attr.value = some value) :
    '"' ∉ value :=
  fun inside => (plain.value_ne valued inside).1 rfl

theorem Plain.legible (plain : attr.Plain) : attr.Legible where
  toFormed := plain.toFormed
  clear _ valued _ member := (plain.value_ne valued member).2.2
  taken _ value valued := by
    refine ⟨escaped_of_not_mem (plain.unquoted valued),fun last => ?_⟩
    exact (plain.value_ne valued (List.mem_of_getLast? last)).2.1 rfl
  passed _ value valued := ⟨plain.unquoted valued,(plain.value value valued).2⟩

namespace Formed

theorem exists_value (formed : attr.Formed) (named : attr.isStyle = true ∨ attr.isClass = true) :
    ∃ value, attr.value = some value := by
  cases valued : attr.value with
  | some value => exact ⟨value,rfl⟩
  | none =>
    obtain ⟨noStyle,noClass⟩ := formed.bare valued
    rcases named with style | names
    · rw [noStyle] at style
      contradiction
    · rw [noClass] at names
      contradiction

theorem ends (formed : attr.Formed) : Ends attr.print := by
  obtain ⟨c,space,spaces⟩ := List.exists_cons_of_ne_nil formed.spaced
  refine ⟨c,space ++ (attr.name ++ _),by rw [print,spaces,List.append_assoc]; rfl,?_⟩
  exact endsName_eq_false_of_isSpace (formed.space c (spaces ▸ List.mem_cons_self))

theorem byteSize_print_pos (formed : attr.Formed) : 0 < byteSize attr.print := by
  obtain ⟨c,rest,printed,-⟩ := formed.ends
  have := c.utf8Size_pos
  rw [printed,byteSize_cons]
  omega

theorem outer_clear (formed : attr.Formed) :
    ∀ c ∈ attr.space ++ attr.name, isQuote c = false ∧ isBracket c = false := by
  intro c member
  rcases List.mem_append.mp member with space | name
  · exact clear_of_isSpace (formed.space c space)
  · have letter := isNameChar_eq_true (formed.name c name)
    exact ⟨letter.2.1,letter.2.2.1⟩

end Formed

theorem Legible.print_clear (legible : attr.Legible) {c : Char} (member : c ∈ attr.print) :
    isBracket c = false := by
  cases valued : attr.value with
  | none => exact (legible.outer_clear c (print_of_none valued ▸ member)).2
  | some value =>
    rw [print_of_some valued] at member
    simp only [List.mem_append,List.mem_cons,List.not_mem_nil,or_false] at member
    rcases member with (out | rfl | rfl | inside) | rfl
    · exact (legible.outer_clear c (List.mem_append.mpr out)).2
    · rfl
    · rfl
    · exact legible.clear value valued c inside
    · rfl

end

end Attribute

namespace Tag

/-- What is printed behind the attributes. -/
def finish (tag : Tag) : Text := tag.space ++ if tag.slash then ['/','>'] else ['>']

theorem print_eq (tag : Tag) :
    tag.print = '<' :: (tag.name ++ (tag.attributes.flatMap Attribute.print ++ tag.finish)) := by
  simp [print,finish]

/-- What is asked of a tag around the values of its attributes. -/
structure Formed (tag : Tag) : Prop where
  letter : ∃ c rest, tag.name = c :: rest ∧ c.isAlpha = true
  name : ∀ c ∈ tag.name, Attribute.isNameChar c = true
  attributes : ∀ attr ∈ tag.attributes, attr.Formed
  single : tag.attributes.countP Attribute.isClass ≤ 1
  space : ∀ c ∈ tag.space, isSpace c = true

structure Plain (tag : Tag) : Prop extends tag.Formed where
  each : ∀ attr ∈ tag.attributes, attr.Plain

private theorem isNameChar_of_isAlphanum {c : Char} (letter : c.isAlphanum || c = '-') :
    Attribute.isNameChar c = true := by
  have others : [' ','\t','\n','\x0c','\r','"','\'','<','>','/','='].all
      (fun d => !(d.isAlphanum || d = '-')) = true := by decide
  cases named : Attribute.isNameChar c with
  | true => rfl
  | false =>
    have member : c ∈ [' ','\t','\n','\x0c','\r','"','\'','<','>','/','='] := by
      simpa [Attribute.isNameChar,isSpace,isQuote,Decidable.or_iff_not_imp_left] using named
    have special := List.all_eq_true.mp others c member
    rw [letter] at special
    contradiction

theorem plain_of_isPlain {tag : Tag} (plain : tag.isPlain = true) : tag.Plain := by
  simp only [isPlain,Bool.and_eq_true,decide_eq_true_eq,List.all_eq_true] at plain
  obtain ⟨⟨⟨⟨letter,name⟩,attributes⟩,single⟩,space⟩ := plain
  have each : ∀ attr ∈ tag.attributes, attr.Plain :=
    fun attr member => Attribute.plain_of_isPlain (attributes attr member)
  refine ⟨⟨?_,fun c member => isNameChar_of_isAlphanum (name c member),
    fun attr member => (each attr member).toFormed,single,space⟩,each⟩
  cases named : tag.name with
  | nil => simp [named] at letter
  | cons c rest => exact ⟨c,rest,rfl,by simpa [named] using letter⟩

theorem ends_finish {tag : Tag} (formed : tag.Formed) : Ends tag.finish := by
  unfold finish
  cases space : tag.space with
  | nil => cases tag.slash <;> exact ⟨_,_,rfl,rfl⟩
  | cons c rest =>
    exact ⟨c,_,rfl,endsName_eq_false_of_isSpace (formed.space c (space ▸ List.mem_cons_self))⟩

theorem ends_attributes {tag : Tag} (formed : tag.Formed) {attributes : List Attribute}
    (inside : ∀ attr ∈ attributes, attr.Formed) :
    Ends (attributes.flatMap Attribute.print ++ tag.finish) := by
  cases attributes with
  | nil => exact ends_finish formed
  | cons attr rest =>
    rw [List.flatMap_cons,List.append_assoc]
    exact (inside attr List.mem_cons_self).ends.append _

end Tag

end StyleHoist.Markup
