import StyleHoist.Number.Literal

/-! What a plain scalar stands for: nothing, a truth value, a whole number, a
floating-point number, or else its own text. -/
namespace StyleHoist.Yaml

inductive Scalar where
  | null
  | bool (value : Bool)
  | int (value : Int)
  /-- A whole number that 64 bits cannot hold. -/
  | wide
  | float (value : Double)
  | str (text : Text)
deriving DecidableEq, Repr

namespace Scalar

def isNull (text : Text) : Bool :=
  ["null","Null","NULL","~"].any (·.toList = text)

def bool? (text : Text) : Option Bool :=
  if ["true","True","TRUE"].any (·.toList = text) then some true
  else if ["false","False","FALSE"].any (·.toList = text) then some false
  else none

/-- Several digits that begin with a zero, with a sign or without. They are no number. -/
def isPadded (text : Text) : Bool :=
  match (Literal.sign text).2 with
  | '0' :: c :: rest => (c :: rest).all Char.isDigit
  | _ => false

def bases : List (Text × Nat) := [(['0','x'],16),(['0','o'],8),(['0','b'],2)]

def isSigned (text : Text) : Bool := text.head? = some '+' || text.head? = some '-'

/-- The number that digits write, unless it needs more than 128 of them. No whole number is
that wide. -/
def natural? (base : Nat) (digits : Text) : Option Nat :=
  if 128 < (digits.dropWhile (· = '0')).length then none else Literal.natural? base digits

/-- The magnitude behind one of the leads that name a base. -/
def based? (text : Text) : Option Nat :=
  bases.findSome? fun (lead,base) => (Text.after? lead text).bind (natural? base)

/-- A whole number with an optional plus sign. -/
def unsigned? (text : Text) : Option Nat :=
  let digits := match text with
    | '+' :: rest => rest
    | _ => text
  match based? digits with
  | some n => some n
  | none => if isPadded text then none else natural? 10 digits

/-- The magnitude of a whole number behind a minus sign. -/
def negative? (text : Text) : Option Nat :=
  match text with
  | '-' :: rest =>
    match based? rest with
    | some n => some n
    | none => if isPadded text then none else natural? 10 rest
  | _ => none

def int? (text : Text) : Option Scalar :=
  match unsigned? text, negative? text with
  | some n, _ => if n < Nat.pow 2 64 then some (.int n) else if n < Nat.pow 2 128 then some .wide else none
  | none, some n =>
    if n ≤ Nat.pow 2 63 then some (.int (-n)) else if n ≤ Nat.pow 2 127 then some .wide else none
  | none, none => none

def float? (text : Text) : Option Double :=
  let unsigned := match text with
    | '+' :: rest => rest
    | _ => text
  let is := fun (words : List String) (text : Text) => words.any (·.toList = text)
  if text.head? = some '+' && isSigned unsigned then none
  else if is [".inf",".Inf",".INF"] unsigned then some (.infinite false)
  else if is ["-.inf","-.Inf","-.INF"] text then some (.infinite true)
  else if is [".nan",".NaN",".NAN"] text then some .nan
  else
    match Literal.double? unsigned with
    | some (.finite negative mantissa exponent) => some (.finite negative mantissa exponent)
    | _ => none

/-- The reading of a plain scalar. -/
def ofPlain (text : Text) : Scalar :=
  if text = [] || isNull text then .null
  else
    match bool? text, int? text with
    | some value, _ => .bool value
    | none, some number => number
    | none, none =>
      match if isPadded text then none else float? text with
      | some value => .float value
      | none => .str text

end Scalar

end StyleHoist.Yaml
