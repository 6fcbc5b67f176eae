import StyleHoist.Number.Double

/-! The shortest decimal text of a floating-point number: the fewest digits
that read back as the number, and of those the nearest to it. -/
namespace StyleHoist.Double

/-- The decimal exponent of the leading digit of a fraction, by search upwards. -/
def leadingExponentFrom (num den : Nat) : Nat → Int → Int
  | 0, exponent => exponent
  | fuel + 1, exponent =>
    let next := exponent + 1
    let reached := if 0 ≤ next then den * Nat.pow 10 next.toNat ≤ num else den ≤ num * Nat.pow 10 (-next).toNat
    if reached then leadingExponentFrom num den fuel next else exponent

def leadingExponent (num den : Nat) : Int := leadingExponentFrom num den 700 (-330)

/-- A fraction over a power of ten, as a fraction. -/
def overTen (num den : Nat) (exponent : Int) : Nat × Nat :=
  if 0 ≤ exponent then (num,den * Nat.pow 10 exponent.toNat) else (num * Nat.pow 10 (-exponent).toNat,den)

/-- Four times the mantissa, and four times the ends of what rounds to it. -/
def quarters (mantissa : Nat) (exponent : Int) : Nat × Nat × Nat :=
  let narrow := mantissa = Nat.pow 2 52 && leastExponent < exponent
  (4 * mantissa,4 * mantissa - (if narrow then 1 else 2),4 * mantissa + 2)

/-- The digits of a number on the decimal grid of one exponent, if a point of the grid reads
back as the number: the nearer of the two neighbours, the even one of two equally near. -/
def onGrid? (mantissa : Nat) (exponent grid : Int) : Option Nat :=
  let (middle,low,high) := quarters mantissa exponent
  let (unit,den) := scale 1 1 (exponent - 2)
  let (unit,den) := overTen unit den grid
  let floor := middle * unit / den
  let ends := mantissa % 2 = 0
  let inside := fun n : Nat =>
    if ends then low * unit ≤ n * den && n * den ≤ high * unit
    else low * unit < n * den && n * den < high * unit
  let below := middle * unit - floor * den
  let above := (floor + 1) * den - middle * unit
  match decide (inside floor), decide (inside (floor + 1)) with
  | true, true => some (if below < above || (below = above && floor % 2 = 0) then floor else floor + 1)
  | true, false => some floor
  | false, true => some (floor + 1)
  | false, false => none

/-- The coarsest grid with a point that reads back, from a grid downwards. -/
def shortestFrom (mantissa : Nat) (exponent : Int) : Nat → Int → Nat × Int
  | 0, _ => (0,0)
  | fuel + 1, grid =>
    match onGrid? mantissa exponent grid with
    | some digits => (digits,grid)
    | none => shortestFrom mantissa exponent fuel (grid - 1)

def dropZeros : Nat → Nat → Int → Nat × Int
  | 0, digits, exponent => (digits,exponent)
  | fuel + 1, digits, exponent =>
    if digits ≠ 0 && digits % 10 = 0 then dropZeros fuel (digits / 10) (exponent + 1)
    else (digits,exponent)

/-- The shortest decimal of a positive number, as digits and a power of ten. -/
def shortest (mantissa : Nat) (exponent : Int) : Nat × Int :=
  let (num,den) := ratio mantissa exponent
  let (digits,grid) := shortestFrom mantissa exponent 20 (leadingExponent num den)
  dropZeros 20 digits grid

def zeros (n : Nat) : List Char := List.replicate n '0'

/-- The layout of a decimal: a point stands inside the digits or next to zeros while the
number is below 10^16 and not below 10^-5, else the digits have an exponent. `plus` says
whether a positive exponent has a sign. -/
def layout (plus : Bool) (digits : List Char) (exponent : Int) : List Char :=
  let point := (digits.length : Int) + exponent
  if 0 ≤ exponent && point ≤ 16 then digits ++ zeros exponent.toNat ++ ['.','0']
  else if 0 < point && point ≤ 16 then digits.take point.toNat ++ '.' :: digits.drop point.toNat
  else if -5 < point && point ≤ 0 then '0' :: '.' :: zeros (-point).toNat ++ digits
  else
    let lead := match digits with
      | [d] => [d]
      | d :: rest => d :: '.' :: rest
      | [] => []
    let mark := if plus && 0 < point then ['e','+'] else ['e']
    lead ++ mark ++ (toString (point - 1)).toList

/-- The text of a finite number. -/
def finiteText (plus negative : Bool) (mantissa : Nat) (exponent : Int) : String :=
  let sign := if negative then ['-'] else []
  if mantissa = 0 then String.ofList (sign ++ ['0','.','0'])
  else
    let (digits,power) := shortest mantissa exponent
    String.ofList (sign ++ layout plus (Nat.toDigits 10 digits) power)

end StyleHoist.Double
