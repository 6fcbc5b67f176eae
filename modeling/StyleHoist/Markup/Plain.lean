import StyleHoist.Markup.Hoist

/-! Plain documents: start tags with quoted attributes, other markup, and the
text between. A document of this kind is printed from its pieces, so that the
meaning of hoisting can be said on tags and attributes, without offsets. -/
namespace StyleHoist.Markup

/-- An attribute and the space before it. A value stands in double quotes. -/
structure Attribute where
  space : Text
  name : Text
  value : Option Text
deriving DecidableEq, Repr

/-- A start tag. -/
structure Tag where
  name : Text
  attributes : List Attribute
  /-- What stands between the last attribute and the end. -/
  space : Text
  slash : Bool
deriving DecidableEq, Repr

inductive Piece where
  | text (text : Text)
  /-- An end tag or a declaration, without its angle brackets. -/
  | other (inside : Text)
  | tag (tag : Tag)
deriving DecidableEq, Repr

namespace Attribute

def print (attr : Attribute) : Text :=
  attr.space ++ attr.name ++
    match attr.value with
    | none => []
    | some value => '=' :: '"' :: value ++ ['"']

def isStyle (attr : Attribute) : Bool := attr.name = "style".toList

def isClass (attr : Attribute) : Bool := attr.name = "class".toList

def isNameChar (c : Char) : Bool := !(isSpace c || isQuote c || ['<','>','/','='].contains c)

def isValueChar (c : Char) : Bool := !(['"','<','>','\\'].contains c)

/-- Whether a value can stand before the closing quote of a plain attr. -/
def isPlainValue (value : Text) : Bool :=
  value.all isValueChar && !("style=".toList.isSuffixOf value)

def isPlain (attr : Attribute) : Bool :=
  attr.space ≠ [] && attr.space.all isSpace &&
    attr.name ≠ [] && attr.name.all isNameChar &&
    match attr.value with
    | none => !(attr.isStyle || attr.isClass)
    | some value => isPlainValue value

/-- Adds class names to those that the value of a class attribute lists. A value that has
them all stays as it is. -/
def addNames (attr : Attribute) (ids : List ClassId) : Attribute :=
  let names := (Text.words (attr.value.getD [])).eraseDups
  match (ids.map (·.text)).filter (!names.contains ·) with
  | [] => attr
  | missing => { attr with value := some ([' '].intercalate (names ++ missing)) }

end Attribute

namespace Tag

def print (tag : Tag) : Text :=
  '<' :: tag.name ++ tag.attributes.flatMap Attribute.print ++ tag.space ++
    if tag.slash then ['/','>'] else ['>']

def isPlain (tag : Tag) : Bool :=
  (tag.name.head?.any Char.isAlpha) && (tag.name.all fun c => c.isAlphanum || c = '-') &&
    tag.attributes.all Attribute.isPlain && (tag.attributes.countP Attribute.isClass ≤ 1) &&
    tag.space.all isSpace

/-- The values of the style attributes, in order. -/
def styles (tag : Tag) : List Text := (tag.attributes.filter Attribute.isStyle).filterMap (·.value)

/-- What the style attributes declare, without those that declare nothing. -/
def declarations (tag : Tag) : List Declaration :=
  (tag.styles.map Declaration.normalize).filter (!·.isEmpty)

/-- The tag without its style attributes and with classes named instead, in the class
attribute or in a new one in front. -/
def restyle (tag : Tag) (ids : List ClassId) : Tag :=
  let kept := tag.attributes.filter (!·.isStyle)
  let named :=
    if ids = [] then kept
    else if kept.any Attribute.isClass then
      kept.map fun attr => if attr.isClass then attr.addNames ids else attr
    else ⟨[' '],"class".toList,some ([' '].intercalate (ids.map (·.text)))⟩ :: kept
  { tag with attributes := named }

end Tag

namespace Piece

def print : Piece → Text
  | .text content => content
  | .other inside => '<' :: inside ++ ['>']
  | .tag start => start.print

/-- Whether the opening of a style attribute occurs in a text. -/
def hasStyleOpen : Text → Bool
  | [] => false
  | c :: rest => (Text.after? styleOpen (c :: rest)).isSome || hasStyleOpen rest

/-- Whether a text is free of angle brackets and style attributes. -/
def isInert (text : Text) : Bool := text.all (fun c => c ≠ '<' && c ≠ '>') && !hasStyleOpen text

def isPlain : Piece → Bool
  | .text content => isInert content
  | .other inside => (inside.head? = some '/' || inside.head? = some '!') && isInert inside
  | .tag start => start.isPlain

def isText : Piece → Bool
  | .text _ => true
  | _ => false

/-- Whether pieces form a plain document: each is plain, and no two texts meet. -/
def arePlain : List Piece → Bool
  | [] => true
  | [piece] => piece.isPlain
  | first :: second :: rest =>
    first.isPlain && !(first.isText && second.isText) && arePlain (second :: rest)

def printAll (pieces : List Piece) : Text := pieces.flatMap print

/-- The classes of declarations, each allocated in turn. -/
def allocateAll (registry : Registry) : List Declaration → Except Collision (List ClassId × Registry)
  | [] => .ok ([],registry)
  | declaration :: rest => do
    let (allocation,registry) ← registry.allocate declaration
    let (ids,registry) ← allocateAll registry rest
    .ok (allocation.id :: ids,registry)

/-- A piece with its styles turned into classes. -/
def restyle (registry : Registry) : Piece → Except Collision (Piece × Registry)
  | .tag start => do
    let (ids,registry) ← allocateAll registry start.declarations
    .ok (.tag (start.restyle ids.eraseDups),registry)
  | piece => .ok (piece,registry)

def restyleAll (registry : Registry) : List Piece → Except Collision (List Piece × Registry)
  | [] => .ok ([],registry)
  | piece :: rest => do
    let (piece,registry) ← restyle registry piece
    let (rest,registry) ← restyleAll registry rest
    .ok (piece :: rest,registry)

end Piece

end StyleHoist.Markup
