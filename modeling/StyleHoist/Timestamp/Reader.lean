import StyleHoist.Number.Literal
import StyleHoist.Text.Blank
import StyleHoist.Timestamp.Basic

/-! Reading a date and time with its offset from UTC. Blanks may stand between
the parts, and a number may lack its leading zeros. -/
namespace StyleHoist.Timestamp

/-- Reads a number of at most so many digits. -/
def readDigits (width : Nat) (text : Text) : Option (Nat × Text) :=
  let digits := (text.take width).takeWhile Char.isDigit
  if digits = [] then none else some (Literal.value digits,text.drop digits.length)

/-- Reads a number behind blanks. -/
def readNumber (width : Nat) (text : Text) : Option (Nat × Text) :=
  readDigits width (Text.trimStart text)

/-- Reads a character behind blanks. -/
def readMark (mark : Char) (text : Text) : Option Text := Text.after? [mark] (Text.trimStart text)

/-- Reads a year: four digits at most, or any number of them behind a sign. -/
def readYear (text : Text) : Option (Int × Text) :=
  match Text.trimStart text with
  | '-' :: rest => (readDigits rest.length rest).map fun (n,rest) => (-(n : Int),rest)
  | '+' :: rest => (readDigits rest.length rest).map fun (n,rest) => ((n : Int),rest)
  | rest => (readDigits 4 rest).map fun (n,rest) => ((n : Int),rest)

def readDate (text : Text) : Option (Date × Text) := do
  let (year,rest) ← readYear text
  let (month,rest) ← readNumber 2 (← readMark '-' rest)
  let (day,rest) ← readNumber 2 (← readMark '-' rest)
  some (⟨year,month,day⟩,rest)

/-- Reads the digits behind a point as billionths. Later digits do not count. -/
def readFraction (text : Text) : Option (Nat × Text) :=
  match text with
  | '.' :: rest =>
    let digits := rest.takeWhile Char.isDigit
    let kept := digits.take 9
    if digits = [] then none
    else some (Literal.value kept * Nat.pow 10 (9 - kept.length),rest.drop digits.length)
  | _ => some (0,text)

def isSeparator (c : Char) : Bool := c = 't' || c = 'T' || c = ' '

def lowered (text : Text) : Text := text.map Char.toLower

/-- The two digits that an offset is written in. -/
def twoDigits? (text : Text) : Option (Nat × Text) :=
  match text with
  | a :: b :: rest =>
    if a.isDigit && b.isDigit then some (Literal.value [a,b],rest) else none
  | _ => none

/-- Reads an offset from UTC in seconds. -/
def readOffset (text : Text) : Option (Int × Text) :=
  if lowered (text.take 3) = ['u','t','c'] then some (0,text.drop 3)
  else
    match text with
    | [] => none
    | c :: rest =>
      if c = 'Z' || c = 'z' then some (0,rest)
      else if c = '+' || c = '-' || c = '\u2212' then do
        let (hours,rest) ← twoDigits? rest
        let (minutes,rest) ← twoDigits? (rest.dropWhile fun c => c = ':' || isBlank c)
        if minutes < 60 then
          let seconds : Int := hours * 3600 + minutes * 60
          some (if c = '+' then seconds else -seconds,rest)
        else none
      else none

/-- Reads a whole text. -/
def read? (text : Text) : Option Timestamp := do
  let (date,rest) ← readDate text
  let rest ← match rest with
    | c :: rest => if isSeparator c then some rest else none
    | [] => none
  let (hour,rest) ← readNumber 2 rest
  let (minute,rest) ← readNumber 2 (← readMark ':' rest)
  let (second,rest) ← readNumber 2 (← readMark ':' rest)
  let (nanos,rest) ← readFraction rest
  let (offset,rest) ← readOffset (Text.trimStart rest)
  let days := date.toDays
  let leap := second = 60
  let time : Int := hour * 3600 + minute * 60 + (if leap then 59 else second)
  let seconds := days * secondsPerDay + time - offset
  if Text.trimStart rest = [] && date.isValid && hour < 24 && minute < 60 && second ≤ 60 &&
      offset.natAbs < 86400 && hasYear date.year && hasDate seconds then
    some ⟨seconds,nanos,leap⟩
  else none

end StyleHoist.Timestamp
