import StyleHoist.Json.Basic
import StyleHoist.Number.Literal

/-! Reading JSON text. Nothing but blanks may follow a value. -/
namespace StyleHoist.Json

def isGap (c : Char) : Bool := c = ' ' || c = '\n' || c = '\t' || c = '\r'

def skipGap (text : Text) : Text := text.dropWhile isGap

def isDigit (c : Char) : Bool := '0' ≤ c && c ≤ '9'

/-- Whole numbers up to this one are read exactly. -/
def greatest : Nat := Nat.pow 2 64 - 1

/-- Reads digits as long as the number stays in range. Gives also how many were read. -/
def digits (n count : Nat) : Text → Nat × Nat × Text
  | [] => (n,count,[])
  | c :: rest =>
    if isDigit c then
      let next := 10 * n + (c.toNat - '0'.toNat)
      if next ≤ greatest then digits next (count + 1) rest else (n,count,c :: rest)
    else (n,count,c :: rest)

/-- A number over a power of ten, divided step by step. -/
def divided : Nat → Double → Nat → Double
  | 0, x, n => x.overPowerOfTen n
  | fuel + 1, x, n =>
    if x.isZero then x
    else if 308 < n then divided fuel (x.overPowerOfTen 308) (n - 308)
    else x.overPowerOfTen n

/-- The floating-point number of some digits and a power of ten, if it is in range. The
digits are rounded before the power is applied. -/
def scaled? (negative : Bool) (n : Nat) (exponent : Int) : Option Double :=
  let x := Double.ofNat n
  let value :=
    if n = 0 then some x
    else if 0 ≤ exponent then
      if 308 < exponent then none
      else
        match x.timesPowerOfTen exponent.toNat with
        | .infinite _ => none
        | y => some y
    else some (divided 4 x (-exponent).toNat)
  value.map fun y => if negative then y.negate else y

/-- Reads an exponent behind its letter and gives the number. An exponent that no number
has makes zero if it is below. -/
def readExponent (negative : Bool) (n : Nat) (exponent : Int) (text : Text) : Option (Double × Text) :=
  let (below,text) := Literal.sign text
  let written := text.takeWhile isDigit
  let rest := text.dropWhile isDigit
  if written = [] then none
  else
    let size := Literal.value written
    if Nat.pow 2 31 ≤ size then
      if n ≠ 0 && !below then none
      else some (if negative then (Double.ofNat 0).negate else Double.ofNat 0,rest)
    else (scaled? negative n (if below then exponent - size else exponent + size)).map (·,rest)

/-- Reads what may follow the digits of a fraction. -/
def readEnd (negative : Bool) (n : Nat) (exponent : Int) (text : Text) : Option (Double × Text) :=
  match text with
  | 'e' :: rest => readExponent negative n exponent rest
  | 'E' :: rest => readExponent negative n exponent rest
  | _ => (scaled? negative n exponent).map (·,text)

/-- Reads a fraction behind its point. Digits past the range do not count. -/
def readFraction (negative : Bool) (n : Nat) (exponent : Int) (text : Text) : Option (Double × Text) :=
  let (n,count,rest) := digits n 0 text
  if count = 0 && !(rest.head?.any isDigit) then none
  else readEnd negative n (exponent - count) (rest.dropWhile isDigit)

/-- Reads a number behind its sign. -/
def readNumber (negative : Bool) (text : Text) : Option (Json × Text) :=
  let float := fun (found : Option (Double × Text)) => found.map fun (x,rest) => (Json.float x,rest)
  match text with
  | [] => none
  | c :: after =>
    if !isDigit c then none
    else if c = '0' && after.head?.any isDigit then none
    else
      let (n,_,rest) := digits 0 0 text
      let more := rest.takeWhile isDigit
      let rest := rest.dropWhile isDigit
      match rest with
      | '.' :: fraction => float (readFraction negative n more.length fraction)
      | _ =>
        if rest.head? = some 'e' || rest.head? = some 'E' || more ≠ [] then
          float (readEnd negative n more.length rest)
        else if !negative then some (.int n,rest)
        else if n = 0 || Nat.pow 2 63 < n then some (.float (Double.ofNat n).negate,rest)
        else some (.int (-n),rest)

/-- The code unit that four hexadecimal digits write. -/
def unit? (text : Text) : Option (Nat × Text) :=
  let written := text.take 4
  if written.length = 4 then (Literal.natural? 16 written).map (·,text.drop 4) else none

/-- Reads a code point behind its letter: one code unit, or two that make a pair. -/
def readUnits (text : Text) : Option (Char × Text) := do
  let (high,rest) ← unit? text
  if 0xDC00 ≤ high && high < 0xE000 then none
  else if 0xD800 ≤ high && high < 0xDC00 then
    match rest with
    | '\\' :: 'u' :: rest =>
      let (low,rest) ← unit? rest
      if 0xDC00 ≤ low && low < 0xE000 then
        some (Char.ofNat (0x10000 + 0x400 * (high - 0xD800) + (low - 0xDC00)),rest)
      else none
    | _ => none
  else some (Char.ofNat high,rest)

def escapes : List (Char × Char) := ('/','/') :: namedEscapes.map fun pair => (pair.2,pair.1)

/-- Reads a string behind its opening quote, after the characters read, last one first. -/
def readString : Nat → Text → Text → Option (Text × Text)
  | 0, _, _ => none
  | fuel + 1, read, text =>
    match text with
    | [] => none
    | '"' :: rest => some (read.reverse,rest)
    | '\\' :: 'u' :: rest =>
      match readUnits rest with
      | some (c,rest) => readString fuel (c :: read) rest
      | none => none
    | '\\' :: c :: rest =>
      match escapes.lookup c with
      | some c => readString fuel (c :: read) rest
      | none => none
    | c :: rest => if c = '\\' || c.toNat < 0x20 then none else readString fuel (c :: read) rest

def words : List (Text × Json) :=
  [("null".toList,.null),("true".toList,.bool true),("false".toList,.bool false)]

mutual

/-- Reads a value at most so many collections deep. -/
def readValue (depth : Nat) : Nat → Text → Option (Json × Text)
  | 0, _ => none
  | fuel + 1, text =>
    match skipGap text with
    | [] => none
    | '"' :: rest => (readString (rest.length + 1) [] rest).map fun (text,rest) => (.str text,rest)
    | '[' :: rest =>
      match depth with
      | 0 => none
      | 1 => none
      | depth + 2 =>
        match skipGap rest with
        | ']' :: rest => some (.list [],rest)
        | rest => (readItems (depth + 1) fuel rest).map fun (items,rest) => (.list items,rest)
    | '{' :: rest =>
      match depth with
      | 0 => none
      | 1 => none
      | depth + 2 =>
        match skipGap rest with
        | '}' :: rest => some (.obj [],rest)
        | rest => (readMembers (depth + 1) fuel rest).map fun (members,rest) => (.obj members,rest)
    | '-' :: rest => readNumber true rest
    | c :: rest =>
      if isDigit c then readNumber false (c :: rest)
      else words.findSome? fun (word,value) => (Text.after? word (c :: rest)).map (value,·)

def readItems (depth : Nat) : Nat → Text → Option (List Json × Text)
  | 0, _ => none
  | fuel + 1, text => do
    let (item,rest) ← readValue depth fuel text
    match skipGap rest with
    | ',' :: rest => do
      let (items,rest) ← readItems depth fuel rest
      some (item :: items,rest)
    | ']' :: rest => some ([item],rest)
    | _ => none

def readMembers (depth : Nat) : Nat → Text → Option (List (Text × Json) × Text)
  | 0, _ => none
  | fuel + 1, text =>
    match skipGap text with
    | '"' :: rest => do
      let (name,rest) ← readString (rest.length + 1) [] rest
      match skipGap rest with
      | ':' :: rest => do
        let (value,rest) ← readValue depth fuel rest
        match skipGap rest with
        | ',' :: rest => do
          let (members,rest) ← readMembers depth fuel rest
          some ((name,value) :: members,rest)
        | '}' :: rest => some ([(name,value)],rest)
        | _ => none
      | _ => none
    | _ => none

end

/-- How deep collections may be nested, and one more. -/
def depthLimit : Nat := 128

def read? (text : Text) : Option Json := do
  let (value,rest) ← readValue depthLimit (2 * text.length + 2) text
  if skipGap rest = [] then some value else none

end StyleHoist.Json
