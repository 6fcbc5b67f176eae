import StyleHoist.Json.Reader

/-! Reading chosen members of an object. The values of the others are passed
over: they have to be well formed, but a number may have any size, an escape
any code unit, and collections may be nested to any depth. -/
namespace StyleHoist.Json

/-- What follows a string, behind its opening quote. -/
def afterString : Text → Option Text
  | [] => none
  | '"' :: rest => some rest
  | '\\' :: 'u' :: a :: b :: c :: d :: rest =>
    if [a,b,c,d].all fun digit => (Literal.digitIn? 16 digit).isSome then afterString rest else none
  | '\\' :: c :: rest => if (escapes.lookup c).isSome then afterString rest else none
  | c :: rest => if c = '\\' || c.toNat < 0x20 then none else afterString rest

/-- What follows a row of digits, if there are any. -/
def afterDigits (text : Text) : Option Text :=
  if text.head?.any isDigit then some (text.dropWhile isDigit) else none

def afterFraction (text : Text) : Option Text :=
  match text with
  | '.' :: rest => afterDigits rest
  | _ => some text

def afterExponent (text : Text) : Option Text :=
  match text with
  | 'e' :: rest => afterDigits (Literal.sign rest).2
  | 'E' :: rest => afterDigits (Literal.sign rest).2
  | _ => some text

/-- What follows a number, behind its sign. -/
def afterNumber (text : Text) : Option Text := do
  let rest ← match text with
    | '0' :: rest => if rest.head?.any isDigit then none else some rest
    | _ => afterDigits text
  afterExponent (← afterFraction rest)

/-- What follows a value that is no collection. -/
def afterSimple (text : Text) : Option Text :=
  match text with
  | '"' :: rest => afterString rest
  | '-' :: rest => afterNumber rest
  | _ =>
    if text.head?.any isDigit then afterNumber text
    else words.findSome? fun word => Text.after? word.1 text

/-- A collection that has begun. -/
inductive Collection where
  | list
  | obj
deriving DecidableEq, Repr

/-- What follows the name of a member and the colon behind it. -/
def afterName (text : Text) : Option Text :=
  match skipGap text with
  | '"' :: rest =>
    match (afterString rest).map skipGap with
    | some (':' :: rest) => some rest
    | _ => none
  | _ => none

mutual

/-- What follows a value and the ends of the collections around it, innermost first. -/
def afterValue : Nat → List Collection → Text → Option Text
  | 0, _, _ => none
  | fuel + 1, around, text =>
    match skipGap text with
    | '[' :: rest =>
      match skipGap rest with
      | ']' :: rest => afterEnds fuel around rest
      | rest => afterValue fuel (.list :: around) rest
    | '{' :: rest =>
      match skipGap rest with
      | '}' :: rest => afterEnds fuel around rest
      | rest =>
        match afterName rest with
        | some rest => afterValue fuel (.obj :: around) rest
        | none => none
    | text =>
      match afterSimple text with
      | some rest => afterEnds fuel around rest
      | none => none

/-- What follows the ends of collections, behind a value in the innermost one. -/
def afterEnds : Nat → List Collection → Text → Option Text
  | 0, _, _ => none
  | _ + 1, [], text => some text
  | fuel + 1, inner :: around, text =>
    match inner, skipGap text with
    | .list, ',' :: rest => afterValue fuel (inner :: around) rest
    | .list, ']' :: rest => afterEnds fuel around rest
    | .obj, ',' :: rest =>
      match afterName rest with
      | some rest => afterValue fuel (inner :: around) rest
      | none => none
    | .obj, '}' :: rest => afterEnds fuel around rest
    | _, _ => none

end

/-- Reads the value of a member if it is one of the chosen, else passes over it. -/
def chosenValue (chosen : List Text) (name : Text) (fuel : Nat) (text : Text) :
    Option (Option Json × Text) :=
  if chosen.contains name then
    (readValue (depthLimit - 1) fuel text).map fun (value,rest) => (some value,rest)
  else (afterValue fuel [] text).map (none,·)

/-- Reads the members of an object behind those already read, last one first. -/
def chosenMembers (chosen : List Text) :
    Nat → List (Text × Json) → Text → Option (List (Text × Json) × Text)
  | 0, _, _ => none
  | fuel + 1, read, text =>
    match skipGap text with
    | '"' :: rest =>
      match readString (fuel + 1) [] rest with
      | none => none
      | some (name,rest) =>
        match skipGap rest with
        | ':' :: rest =>
          match chosenValue chosen name (2 * fuel + 2) rest with
          | none => none
          | some (value,rest) =>
            let read := match value with
              | some value => (name,value) :: read
              | none => read
            match skipGap rest with
            | ',' :: rest => chosenMembers chosen fuel read rest
            | '}' :: rest => some (read.reverse,rest)
            | _ => none
        | _ => none
    | _ => none

/-- Reads a text as `read?` does, but of an object only the members of the chosen names. -/
def select? (chosen : List Text) (text : Text) : Option Json :=
  match skipGap text with
  | '{' :: rest => do
    let (members,rest) ←
      match skipGap rest with
      | '}' :: rest => some ([],rest)
      | rest => chosenMembers chosen (rest.length + 1) [] rest
    if skipGap rest = [] then some (.obj members) else none
  | _ => read? text

end StyleHoist.Json
