/-! Binary floating-point numbers with 53 significant bits, as exact fractions:
a mantissa times a power of two. Every operation rounds the exact result to
the nearest number, a tie to the even mantissa. -/
namespace StyleHoist

inductive Double where
  | finite (negative : Bool) (mantissa : Nat) (exponent : Int)
  | infinite (negative : Bool)
  | nan
deriving DecidableEq, Repr, Inhabited

namespace Double

def leastExponent : Int := -1074

def greatestExponent : Int := 971

/-- The integer nearest to a fraction. -/
def divNearest (num den : Nat) : Nat :=
  let floor := num / den
  let twice := 2 * (num % den)
  if twice < den || (twice = den && floor % 2 = 0) then floor else floor + 1

/-- A fraction times a power of two, as a fraction. -/
def scale (num den : Nat) (exponent : Int) : Nat × Nat :=
  if 0 ≤ exponent then (num * Nat.pow 2 exponent.toNat,den) else (num,den * Nat.pow 2 (-exponent).toNat)

/-- The number nearest to a fraction. -/
def ofRatio (negative : Bool) (num den : Nat) : Double :=
  let guess : Int := (Nat.log2 num : Int) - Nat.log2 den - 53
  let scaled := scale num den (-guess)
  let exponent := if scaled.1 / scaled.2 < Nat.pow 2 53 then guess else guess + 1
  let exponent := max exponent leastExponent
  let scaled := scale num den (-exponent)
  let mantissa := divNearest scaled.1 scaled.2
  let (mantissa,exponent) := if mantissa = Nat.pow 2 53 then (Nat.pow 2 52,exponent + 1) else (mantissa,exponent)
  if mantissa = 0 then .finite negative 0 leastExponent
  else if greatestExponent < exponent then .infinite negative
  else .finite negative mantissa exponent

def ofNat (n : Nat) : Double := ofRatio false n 1

/-- The magnitude as a fraction. -/
def ratio (mantissa : Nat) (exponent : Int) : Nat × Nat := scale mantissa 1 exponent

def negate : Double → Double
  | .finite negative mantissa exponent => .finite (!negative) mantissa exponent
  | .infinite negative => .infinite (!negative)
  | .nan => .nan

def isZero : Double → Bool
  | .finite _ mantissa _ => mantissa = 0
  | _ => false

/-- The product with a power of ten, rounded once for the power and once for the product. -/
def timesPowerOfTen (x : Double) (n : Nat) : Double :=
  match x, ofNat (Nat.pow 10 n) with
  | .finite negative m e, .finite _ m' e' =>
    let (num,den) := scale (m * m') 1 (e + e')
    ofRatio negative num den
  | .finite negative _ _, _ => .infinite negative
  | x, _ => x

def overPowerOfTen (x : Double) (n : Nat) : Double :=
  match x, ofNat (Nat.pow 10 n) with
  | .finite negative m e, .finite _ m' e' =>
    let (num,den) := scale m m' (e - e')
    ofRatio negative num den
  | .finite negative _ _, _ => .finite negative 0 leastExponent
  | x, _ => x

/-- A whole number times a power of ten, rounded once. -/
def ofDecimal (negative : Bool) (digits : Nat) (exponent : Int) : Double :=
  if 0 ≤ exponent then ofRatio negative (digits * Nat.pow 10 exponent.toNat) 1
  else ofRatio negative digits (Nat.pow 10 (-exponent).toNat)

/-- Equality of numbers: both zeros are equal, and so are two numbers that are none. -/
def same (x y : Double) : Bool := x = y || (x.isZero && y.isZero)

end Double

end StyleHoist
