import StyleHoist.Number.Shortest
import StyleHoist.Yaml.Cursor
import StyleHoist.Yaml.Scalar

/-! How a text is written as a YAML scalar: as it is where that reads back as
the same text, else in the plainest notation that does. -/
namespace StyleHoist.Yaml

inductive Notation where
  | plain
  | single
  | double
  | literal
deriving DecidableEq, Repr

def isPrintable (c : Char) : Bool :=
  let n := c.toNat
  n = 0x0A || (0x20 ≤ n && n ≤ 0x7E) || (0xA0 ≤ n && n ≤ 0xD7FF) ||
    (0xE000 ≤ n && n ≤ 0xFFFD && n ≠ 0xFEFF) || 0x10000 ≤ n

/-- Characters that cannot stand first in a plain scalar. -/
def isOpeningMark (c : Char) : Bool := "#,[]\x7b\x7d&*!|>'\"%@\x60".toList.contains c

/-- Whether a blank, a break or the end of the text is next. -/
def endsWord : Text → Bool
  | [] => true
  | c :: _ => isBlank c || isBreak c

/-- Whether one of the characters behind the first is an indicator in its place. -/
def hasInnerMark (before : Char) : Text → Bool
  | [] => false
  | c :: rest =>
    (c = ':' && endsWord rest) || (c = '#' && (isBlank before || isBreak before)) || hasInnerMark c rest

/-- Whether a text holds what a plain scalar would end at or not begin with. -/
def hasMark (text : Text) : Bool :=
  match text with
  | [] => false
  | c :: rest =>
    text.take 3 = ['-','-','-'] || text.take 3 = ['.','.','.'] || isOpeningMark c ||
      ((c = '?' || c = ':' || c = '-') && endsWord rest) || hasInnerMark c rest

/-- Whether two characters of the given kinds stand next to each other. -/
def hasPair (first second : Char → Bool) (text : Text) : Bool :=
  (text.zip (text.drop 1)).any fun pair => first pair.1 && second pair.2

def isSpaceChar (c : Char) : Bool := c = ' '

def isEdge (c : Char) : Bool := isSpaceChar c || isBreak c

def hasEdge (text : Text) : Bool := text.head?.any isEdge || text.getLast?.any isEdge

/-- Whether only escapes can write a text. -/
def needsEscapes (text : Text) : Bool :=
  text.any (!isPrintable ·) || hasPair isSpaceChar isBreak text

def plainAllowed (text : Text) : Bool :=
  !(hasEdge text || needsEscapes text || text.any isBreak || hasMark text)

def singleAllowed (text : Text) : Bool :=
  !(needsEscapes text || hasPair isBreak isSpaceChar text)

def literalAllowed (text : Text) : Bool :=
  !(needsEscapes text || text.getLast?.any isSpaceChar)

/-- Whether a plain text would be read as something else than a text. -/
def readsOtherwise (text : Text) : Bool :=
  match Scalar.ofPlain text with
  | .str _ => Scalar.isPadded text
  | _ => true

def notationOf (text : Text) : Notation :=
  if text.contains '\n' then if literalAllowed text then .literal else .double
  else if !readsOtherwise text && plainAllowed text then .plain
  else if singleAllowed text then .single
  else .double

/-- The indentation of a scalar's own lines. -/
def inset : Text := [' ',' ']

/-- A floating-point number as a plain scalar. -/
def floatText : Double → String
  | .nan => ".nan"
  | .infinite false => ".inf"
  | .infinite true => "-.inf"
  | .finite negative mantissa exponent => Double.finiteText false negative mantissa exponent

/-- Writes characters with an indentation behind each row of breaks. -/
def insetLines (broken : Bool) : Text → Text
  | [] => []
  | c :: rest =>
    if isBreak c then c :: insetLines true rest
    else (if broken then inset else []) ++ c :: insetLines false rest

def singleQuoted (text : Text) : Text :=
  let ending := if text.getLast?.any isBreak then inset else []
  '\'' :: insetLines false (text.flatMap fun c => if c = '\'' then [c,c] else [c]) ++ ending ++ ['\'']

/-- A number in hexadecimal digits, of which the first ones may be zeros. -/
def hexPadded (width n : Nat) : Text :=
  let digits := (Nat.toDigits 16 n).map Char.toUpper
  List.replicate (width - digits.length) '0' ++ digits

def namedEscapes : List (Char × Char) :=
  [('\x00','0'),('\x07','a'),('\x08','b'),('\t','t'),('\n','n'),('\x0b','v'),('\x0c','f'),
   ('\r','r'),('\x1b','e'),('"','"'),('\\','\\'),('\u0085','N'),('\u2028','L'),('\u2029','P')]

def escape (c : Char) : Text :=
  match namedEscapes.lookup c with
  | some name => ['\\',name]
  | none =>
    if isPrintable c then [c]
    else if c.toNat ≤ 0xFF then '\\' :: 'x' :: hexPadded 2 c.toNat
    else if c.toNat ≤ 0xFFFF then '\\' :: 'u' :: hexPadded 4 c.toNat
    else '\\' :: 'U' :: hexPadded 8 c.toNat

def doubleQuoted (text : Text) : Text := '"' :: text.flatMap escape ++ ['"']

/-- What tells how the breaks at the end of a literal block count. -/
def chompMark (text : Text) : Text :=
  match text.reverse with
  | [] => ['-']
  | [c] => if isBreak c then ['+'] else ['-']
  | c :: d :: _ => if !isBreak c then ['-'] else if isBreak d then ['+'] else []

def literalBlock (text : Text) : Text :=
  let width := if text.head?.any isEdge then ['2'] else []
  let ending := if text.getLast?.any isBreak then [] else ['\n']
  '|' :: width ++ chompMark text ++ '\n' :: insetLines true text ++ ending

/-- A text as a scalar, with the end of its line. -/
def line (text : Text) : Text :=
  match notationOf text with
  | .plain => text ++ ['\n']
  | .single => singleQuoted text ++ ['\n']
  | .double => doubleQuoted text ++ ['\n']
  | .literal => literalBlock text

def entry (key : String) (text : Text) : Text := key.toList ++ ':' :: ' ' :: line text

def listEntry (key : String) (items : List Text) : Text :=
  if items = [] then key.toList ++ ": []\n".toList
  else key.toList ++ ':' :: '\n' :: items.flatMap fun item => '-' :: ' ' :: line item

end StyleHoist.Yaml
