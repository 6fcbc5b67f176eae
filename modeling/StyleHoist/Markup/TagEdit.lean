import StyleHoist.ClassId
import StyleHoist.Markup.Scan

/-! The edit of one tag: its `style` attributes go, and the classes that stand
for them join its class attribute, or a new one right behind the tag name.
The pieces are exchanged back to front, so that offsets taken from the
unchanged tag stay valid. -/
namespace StyleHoist.Markup

structure TagEdit where
  tag : Span
  styles : List StyleAttr
  classAttr : Option ClassAttr
  /-- The classes to name, each once, in the order they were first asked for. -/
  add : List ClassId
deriving DecidableEq, Repr

/-- Byte offset just behind the tag name. The first character is never part of the search. -/
def tagNameEnd : Text → Nat
  | [] => 0
  | c :: rest =>
    c.utf8Size + Text.byteSize (rest.takeWhile fun d => !(isSpace d || d = '/' || d = '>'))

/-- A piece of a tag and what takes its place. -/
structure Change where
  span : Span
  replacement : Text
deriving DecidableEq, Repr

/-- Later pieces first, and of two that start together the longer one first. -/
def Change.precedes (first second : Change) : Bool :=
  second.span.start < first.span.start ||
    (first.span.start = second.span.start && second.span.stop ≤ first.span.stop)

namespace TagEdit

def ofStyle (first : StyleAttr) : TagEdit := ⟨first.tag,[first],first.classAttr,[]⟩

def addStyle (edit : TagEdit) (style : StyleAttr) : TagEdit :=
  { edit with styles := edit.styles ++ [style] }

def addClass (edit : TagEdit) (id : ClassId) : TagEdit :=
  if id ∈ edit.add then edit else { edit with add := edit.add ++ [id] }

/-- The names already in the class attribute. -/
def existing? (edit : TagEdit) (document : Text) : Option (List Text) :=
  match edit.classAttr with
  | none => some []
  | some attr => (Text.slice? document attr.value).map Text.words

/-- The distinct existing names and then the missing ones, or nothing if none is missing. -/
def merge (existing : List Text) (add : List ClassId) : Option Text :=
  let names := existing.foldl (fun seen name => if name ∈ seen then seen else seen ++ [name]) []
  match (add.map (·.text)).filter (· ∉ names) with
  | [] => none
  | missing => some ([' '].intercalate (names ++ missing))

def classText (value : Text) : Text := "class=\"".toList ++ value ++ ['"']

/-- The removal of one attribute together with the space before it. -/
def removal? (tagText : Text) (base : Nat) (style : StyleAttr) : Option Change := do
  let span := style.attr.within base
  let (before,_) ← Text.cut? tagText span.start
  some ⟨⟨Text.byteSize (before.reverse.dropWhile isSpace),span.stop⟩,[]⟩

/-- What brings the classes into the tag. -/
def naming (edit : TagEdit) (tagText : Text) (existing : List Text) : List Change :=
  if edit.add = [] then []
  else
    match edit.classAttr with
    | none =>
      let place := tagNameEnd tagText
      [⟨⟨place,place⟩,' ' :: classText ([' '].intercalate (edit.add.map (·.text)))⟩]
    | some attr =>
      match merge existing edit.add with
      | none => []
      | some value =>
        if attr.quoted then [⟨attr.value.within edit.tag.start,value⟩]
        else [⟨attr.attr.within edit.tag.start,classText value⟩]

/-- Every piece to exchange, removals first. -/
def changes? (edit : TagEdit) (document : Text) : Option (List Change) := do
  let tagText ← Text.slice? document edit.tag
  let removals ← edit.styles.mapM (removal? tagText edit.tag.start)
  let existing ← edit.existing? document
  some (removals ++ edit.naming tagText existing)

/-- The new text of the tag. There is none if a piece falls outside the text it is cut from. -/
def render? (edit : TagEdit) (document : Text) : Option Text := do
  let tagText ← Text.slice? document edit.tag
  let changes ← edit.changes? document
  (changes.mergeSort Change.precedes).foldlM
    (fun text change => Text.splice? text change.span change.replacement) tagText

end TagEdit

end StyleHoist.Markup
