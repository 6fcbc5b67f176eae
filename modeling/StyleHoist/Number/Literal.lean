import StyleHoist.Number.Double
import StyleHoist.Text.Basic

/-! Decimal and other literals for numbers. -/
namespace StyleHoist.Literal

def digitValue? (c : Char) : Option Nat :=
  if '0' ≤ c && c ≤ '9' then some (c.toNat - '0'.toNat)
  else if 'a' ≤ c && c ≤ 'z' then some (c.toNat - 'a'.toNat + 10)
  else if 'A' ≤ c && c ≤ 'Z' then some (c.toNat - 'A'.toNat + 10)
  else none

def digitIn? (base : Nat) (c : Char) : Option Nat := (digitValue? c).filter (· < base)

/-- The number that a row of digits writes, if there are any and all are in the base. -/
def natural? (base : Nat) (text : Text) : Option Nat :=
  if text = [] then none
  else text.foldlM (fun n c => (digitIn? base c).map (base * n + ·)) 0

/-- The value of decimal digits. -/
def value (digits : Text) : Nat := digits.foldl (fun n c => 10 * n + (c.toNat - '0'.toNat)) 0

def sign (text : Text) : Bool × Text :=
  match text with
  | '-' :: rest => (true,rest)
  | '+' :: rest => (false,rest)
  | _ => (false,text)

/-- An exponent behind its letter: digits with a sign or without. -/
def exponent? (text : Text) : Option Int :=
  let (negative,digits) := sign text
  (natural? 10 digits).map fun n => if negative then -(n : Int) else n

/-- Exponents past this size give zero or infinity, whatever the digits. -/
def clampExponent (digits : Text) (exponent : Int) : Int :=
  max (-(400 + digits.length : Int)) (min exponent (400 + digits.length))

/-- A decimal fraction with a sign, a point and an exponent, each of them optional. There is
at least one digit. -/
def double? (text : Text) : Option Double := do
  let (negative,text) := sign text
  let whole := text.takeWhile Char.isDigit
  let rest := text.drop whole.length
  let (fraction,rest) := match rest with
    | '.' :: rest => (rest.takeWhile Char.isDigit,rest.dropWhile Char.isDigit)
    | _ => ([],rest)
  if whole = [] && fraction = [] then none
  else
    let exponent ← match rest with
      | [] => some 0
      | c :: rest => if c = 'e' || c = 'E' then exponent? rest else none
    let digits := whole ++ fraction
    some (Double.ofDecimal negative (value digits)
      (clampExponent digits exponent - fraction.length))

end StyleHoist.Literal
