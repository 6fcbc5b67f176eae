import StyleHoist.Number.Shortest
import StyleHoist.Path

/-! JSON values and their text. Whole numbers and floating-point numbers are
told apart, members keep the order in which they were read. -/
namespace StyleHoist

inductive Json where
  | null
  | bool (value : Bool)
  | int (value : Int)
  | float (value : Double)
  | str (text : Text)
  | list (items : List Json)
  | obj (members : List (Text × Json))
deriving Repr, Inhabited

namespace Json

def ofString (text : String) : Json := .str text.toList

def ofNat (n : Nat) : Json := .int n

/-- Members with names written out. -/
def ofMembers (members : List (String × Json)) : Json :=
  .obj (members.map fun member => (member.1.toList,member.2))

/-- Puts a member in its place among sorted ones. The later one of a name counts. -/
def insert (name : Text) (value : Json) : List (Text × Json) → List (Text × Json)
  | [] => [(name,value)]
  | (other,held) :: rest =>
    if other = name then (name,value) :: rest
    else if Text.atMost name other then (name,value) :: (other,held) :: rest
    else (other,held) :: insert name value rest

mutual

/-- The value with the members of every object sorted by name, the last one of each name. -/
def sorted : Json → Json
  | .list items => .list (sortedItems items)
  | .obj members => .obj (sortedMembers [] members)
  | other => other

def sortedItems : List Json → List Json
  | [] => []
  | item :: rest => sorted item :: sortedItems rest

def sortedMembers (done : List (Text × Json)) : List (Text × Json) → List (Text × Json)
  | [] => done
  | (name,value) :: rest => sortedMembers (insert name (sorted value) done) rest

end

def namedEscapes : List (Char × Char) :=
  [('"','"'),('\\','\\'),('\x08','b'),('\x0c','f'),('\n','n'),('\r','r'),('\t','t')]

def escape (c : Char) : Text :=
  match namedEscapes.lookup c with
  | some name => ['\\',name]
  | none =>
    if c.toNat < 0x20 then
      '\\' :: 'u' :: '0' :: '0' :: (if c.toNat < 0x10 then ['0'] else []) ++ Nat.toDigits 16 c.toNat
    else [c]

def quote (text : Text) : Text := '"' :: text.flatMap escape ++ ['"']

/-- The text of a floating-point number, in which every exponent has a sign. -/
def number : Double → Text
  | .finite negative mantissa exponent => (Double.finiteText true negative mantissa exponent).toList
  | _ => "null".toList

def separated (separator : Text) (parts : List Text) : Text := separator.intercalate parts

mutual

/-- The value on one line without any blanks. -/
def compact : Json → Text
  | .null => "null".toList
  | .bool value => (if value then "true" else "false").toList
  | .int value => (toString value).toList
  | .float value => number value
  | .str text => quote text
  | .list items => '[' :: separated [','] (compactItems items) ++ [']']
  | .obj members => '{' :: separated [','] (compactMembers members) ++ ['}']

def compactItems : List Json → List Text
  | [] => []
  | item :: rest => compact item :: compactItems rest

def compactMembers : List (Text × Json) → List Text
  | [] => []
  | (name,value) :: rest => (quote name ++ ':' :: compact value) :: compactMembers rest

end

/-- An object with a line for each member, as long as its values are short. -/
def lines (members : List (Text × Json)) : Text :=
  let line := fun (member : Text × Json) =>
    ' ' :: ' ' :: quote member.1 ++ ':' :: ' ' :: compact member.2
  '{' :: '\n' :: separated [',','\n'] (members.map line) ++ ['\n','}']

end Json

end StyleHoist
