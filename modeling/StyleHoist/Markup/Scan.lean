import StyleHoist.Markup.Attribute
import StyleHoist.Text.Blank

/-! The scan of a document for `style` attributes, from left to right. It reads
characters and quotes, not a grammar: a place is given by the text behind it,
nearest character first, and the text ahead of it. -/
namespace StyleHoist.Markup

def styleOpen : Text := "style=\"".toList

def classOpen : Text := "class=".toList

def isQuote (c : Char) : Bool := c = '"' || c = '\''

/-- Reads through the next double quote that no backslash precedes. Gives the value read,
last character first, and the text after the quote. -/
def closeValue? (value : Text) : Text → Option (Text × Text)
  | [] => none
  | c :: rest =>
    if c = '"' && value.head? ≠ some '\\' then some (value,rest) else closeValue? (c :: value) rest

theorem closeValue?_eq_some {value text read rest : Text}
    (found : closeValue? value text = some (read,rest)) :
    ∃ inside, text = inside ++ '"' :: rest ∧ read = inside.reverse ++ value := by
  fun_induction closeValue? value text with
  | case1 => simp at found
  | case2 value c text closes =>
    simp only [Bool.and_eq_true,decide_eq_true_eq] at closes
    cases found
    exact ⟨[],by simp [closes.1],by simp⟩
  | case3 value c text goes ih =>
    obtain ⟨inside,whole,taken⟩ := ih found
    exact ⟨c :: inside,by simp [whole],by simp [taken]⟩

/-- Reads through the first closing angle bracket outside quotes. Gives the text read, last
character first. An opening angle bracket outside quotes ends the search without a result. -/
def closeTag? (quote : Option Char) (read : Text) : Text → Option Text
  | [] => none
  | c :: rest =>
    match quote with
    | some q => closeTag? (if c = q then none else some q) (c :: read) rest
    | none =>
      if isQuote c then closeTag? (some c) (c :: read) rest
      else if c = '>' then some (c :: read)
      else if c = '<' then none
      else closeTag? none (c :: read) rest

/-- The opening angle bracket nearest behind an attribute, with no closing one between:
the text before it, and the text from it to the attribute. A letter must follow it. -/
def openTag? (behind : Text) : Option (Text × Text) :=
  let isBracket := fun c => c = '<' || c = '>'
  let inside := behind.takeWhile (!isBracket ·)
  match behind.dropWhile (!isBracket ·), inside.getLast? with
  | '<' :: before, some letter =>
    if letter.isAlpha then some (before,'<' :: inside.reverse) else none
  | _, _ => none

/-- The value of a class attribute that starts at `start`, after its equals sign at `offset`. -/
def classValue? (start offset : Nat) : Text → Option ClassAttr
  | [] => some ⟨⟨start,offset⟩,⟨offset,offset⟩,false⟩
  | c :: rest =>
    if isQuote c then
      let value := rest.takeWhile (· ≠ c)
      if value.length = rest.length then none
      else
        let stop := offset + 1 + Text.byteSize value
        some ⟨⟨start,stop + 1⟩,⟨offset + 1,stop⟩,true⟩
    else
      let stop := offset + Text.byteSize ((c :: rest).takeWhile fun d => !(isSpace d || d = '>'))
      some ⟨⟨start,stop⟩,⟨offset,stop⟩,false⟩

/-- The first class attribute in the rest of a tag, outside quotes. `before` is the character
already read, `offset` the place in the document that the rest starts at. -/
def classIn? (quote : Option Char) (before : Char) (offset : Nat) : Text → Option ClassAttr
  | [] => none
  | c :: rest =>
    match quote with
    | some q => classIn? (if c = q then none else some q) c (offset + c.utf8Size) rest
    | none =>
      match (if isSpace before then Text.after? classOpen (c :: rest) else none) with
      | some value => classValue? offset (offset + Text.byteSize classOpen) value
      | none => classIn? (if isQuote c then some c else none) c (offset + c.utf8Size) rest

/-- The first class attribute of a tag. -/
def classOf? (start : Nat) : Text → Option ClassAttr
  | [] => none
  | c :: rest => classIn? none c (start + c.utf8Size) rest

/-- The attribute between two places, if a tag surrounds it. -/
def styleAttr? (behind value rest : Text) : Option StyleAttr := do
  let start := Text.byteSize behind
  let valueStart := start + Text.byteSize styleOpen
  let valueStop := valueStart + Text.byteSize value
  let (before,head) ← openTag? behind
  let tail ← closeTag? none [] rest
  let tag := head ++ styleOpen ++ value ++ '"' :: tail.reverse
  let tagStart := Text.byteSize before
  some {
    attr := ⟨start,valueStop + 1⟩
    value := ⟨valueStart,valueStop⟩
    tag := ⟨tagStart,tagStart + Text.byteSize tag⟩
    classAttr := classOf? tagStart tag }

/-- The items of the text ahead. -/
def scanFrom (behind ahead : Text) : List Item :=
  match _found : Text.after? styleOpen ahead with
  | none =>
    match ahead with
    | [] => []
    | c :: rest => scanFrom (c :: behind) rest
  | some rest =>
    let inside := styleOpen.reverse ++ behind
    if behind.head?.any isSpace then
      match _closed : closeValue? [] rest with
      | none => [.warning ⟨.malformed,Position.ofBehind behind⟩]
      | some (value,after) =>
        let item := match styleAttr? behind value.reverse after with
          | some attr => .style attr
          | none => .warning ⟨.unbounded,Position.ofBehind behind⟩
        item :: scanFrom ('"' :: value ++ inside) after
    else if behind.head?.any isQuote then
      .warning ⟨.unseparated,Position.ofBehind behind⟩ :: scanFrom inside rest
    else scanFrom inside rest
termination_by ahead.length
decreasing_by
  · simp
  · have lead := Text.length_after? _found
    obtain ⟨inside,whole,-⟩ := closeValue?_eq_some _closed
    simp only [whole,List.length_append,List.length_cons] at lead
    omega
  all_goals
    have lead := Text.length_after? _found
    have : styleOpen.length = 7 := rfl
    omega

def scan (document : Text) : List Item := scanFrom [] document

end StyleHoist.Markup
