import StyleHoist.Yaml.Folding

/-! The tokens of a YAML stream. Indentation becomes explicit start and end
tokens. A key without an indicator is recognised only by the colon behind it:
its token is put in afterwards, at the place where the key could have begun. -/
namespace StyleHoist.Yaml

inductive Token where
  | versionDirective
  | tagDirective (handle lead : Text)
  | documentStart
  | documentEnd
  | blockSequenceStart
  | blockMappingStart
  | blockEnd
  | flowSequenceStart
  | flowSequenceEnd
  | flowMappingStart
  | flowMappingEnd
  | blockEntry
  | flowEntry
  | key
  | value
  | alias (name : Text)
  | anchor (name : Text)
  | tag (handle suffix : Text)
  | scalar (style : Style) (text : Text)
deriving DecidableEq, Repr

/-- A place where a key may have begun. -/
structure KeyPlace where
  /-- A key has to begin here. -/
  required : Bool
  /-- The number of tokens before it. -/
  number : Nat
  index : Nat
  line : Nat
  column : Nat

/-- The state of a scan. -/
structure Scanner where
  cursor : Cursor
  tokens : Array Token
  /-- The column of the innermost block, and those around it. -/
  indent : Int
  outer : List Int
  /-- The possible key of each flow collection around, innermost first, and of the block. -/
  places : List (Option KeyPlace)
  keyAllowed : Bool

namespace Scanner

abbrev Step := Scanner → Except Fault Scanner

def inFlow (scanner : Scanner) : Bool := !(scanner.places.drop 1).isEmpty

def put (scanner : Scanner) (token : Token) : Scanner :=
  { scanner with tokens := scanner.tokens.push token }

def insertAt (scanner : Scanner) (number : Nat) (token : Token) : Scanner :=
  { scanner with tokens := scanner.tokens.extract 0 number ++ #[token] ++
      scanner.tokens.extract number scanner.tokens.size }

def move (scanner : Scanner) (cursor : Cursor) : Scanner := { scanner with cursor := cursor }

def skip (scanner : Scanner) (n : Nat) : Scanner := scanner.move (scanner.cursor.skip n)

def allowKey (scanner : Scanner) (allowed : Bool) : Scanner := { scanner with keyAllowed := allowed }

/-- Gives up a possible key. -/
def dropPlace (place : Option KeyPlace) : Except Fault (Option KeyPlace) :=
  if place.any (·.required) then fail "could not find expected ':'" else .ok none

def dropKey : Step := fun scanner =>
  match scanner.places with
  | [] => .ok scanner
  | place :: outer => do
    let place ← dropPlace place
    .ok { scanner with places := place :: outer }

/-- A key ends on the line that it begins on, at most 1024 bytes later. -/
def isStale (cursor : Cursor) (place : KeyPlace) : Bool :=
  place.line < cursor.line || place.index + 1024 < cursor.index

/-- Gives up the innermost possible key if it is too far behind. Those of the collections
around are not asked for before that. -/
def dropStaleKey : Step := fun scanner =>
  match scanner.places with
  | some place :: _ => if isStale scanner.cursor place then dropKey scanner else .ok scanner
  | _ => .ok scanner

/-- Notes that a key may begin here. -/
def saveKey : Step := fun scanner =>
  if scanner.keyAllowed then do
    let scanner ← dropKey scanner
    let place : KeyPlace := {
      required := !scanner.inFlow && scanner.indent = scanner.cursor.column
      number := scanner.tokens.size
      index := scanner.cursor.index
      line := scanner.cursor.line
      column := scanner.cursor.column }
    .ok { scanner with places := some place :: scanner.places.drop 1 }
  else .ok scanner

/-- Opens a block at a column, if it is deeper than the one around it. -/
def openBlock (scanner : Scanner) (column : Nat) (number : Nat) (token : Token) : Scanner :=
  if !scanner.inFlow && scanner.indent < column then
    { scanner.insertAt number token with indent := column, outer := scanner.indent :: scanner.outer }
  else scanner

/-- Closes the blocks that are deeper than a column. -/
def closeBlocks (column : Int) : List Int → Int → Array Token → List Int × Int × Array Token
  | [], indent, tokens => ([],indent,tokens)
  | above :: outer, indent, tokens =>
    if column < indent then closeBlocks column outer above (tokens.push .blockEnd)
    else (above :: outer,indent,tokens)

def close (scanner : Scanner) (column : Int) : Scanner :=
  if scanner.inFlow then scanner
  else
    let (outer,indent,tokens) := closeBlocks column scanner.outer scanner.indent scanner.tokens
    { scanner with outer := outer, indent := indent, tokens := tokens }

/-- Moves to the next token, over blanks, comments and breaks. A line may begin with a byte
order mark, which takes up a column. -/
def toNextToken : Nat → Scanner → Scanner
  | 0, scanner => scanner
  | fuel + 1, scanner =>
    let start := scanner.cursor
    let start := if start.column = 0 && start.peek = some '\ufeff' then start.skip 1 else start
    let tabs := scanner.inFlow || !scanner.keyAllowed
    let cursor := (start.skipWhile fun c => c = ' ' || (tabs && c = '\t')).skipComment
    if cursor.isBreakAt 0 then
      toNextToken fuel { scanner with cursor := cursor.skipBreak, keyAllowed := !scanner.inFlow || scanner.keyAllowed }
    else scanner.move cursor

def isUri (verbatim : Bool) (c : Char) : Bool :=
  isWord c || ";/?:@&=+$.!~*'()%".toList.contains c || (verbatim && ",[]".toList.contains c)

/-- The number of bytes of a character, from the first of them. -/
def widthOfByte (n : Nat) : Option Nat :=
  if n < 0x80 then some 1
  else if n / 32 = 6 then some 2
  else if n / 16 = 14 then some 3
  else if n / 8 = 30 then some 4
  else none

def escapedByte? (text : Text) : Option Nat :=
  match text with
  | '%' :: high :: low :: _ => hexNumber? [high,low]
  | _ => none

/-- Reads a character written as percent signs and digits, byte by byte. -/
def uriEscape (cursor : Cursor) : Except Fault (Text × Cursor) :=
  match escapedByte? cursor.ahead with
  | none => fail "did not find URI escaped octet"
  | some first =>
    match widthOfByte first with
    | none => fail "found an incorrect leading UTF-8 octet"
    | some width =>
      match (List.range (width - 1)).mapM fun i => escapedByte? (cursor.ahead.drop (3 * (i + 1))) with
      | none => fail "did not find URI escaped octet"
      | some later =>
        if later.all fun n => n / 64 = 2 then
          let bytes := ((first :: later).map Nat.toUInt8).toByteArray
          let text := ((String.fromUTF8? bytes).map String.toList).getD ['\ufffd']
          .ok (text,cursor.skip (3 * width))
        else fail "found an incorrect trailing UTF-8 octet"

/-- Reads the characters of a tag, which follow those in `text`, last character first. -/
def uri (verbatim : Bool) : Nat → Text → Cursor → Except Fault (Text × Cursor)
  | 0, text, cursor => .ok (text.reverse,cursor)
  | fuel + 1, text, cursor =>
    match cursor.peek with
    | some c =>
      if isUri verbatim c then
        if c = '%' then do
          let (escaped,rest) ← uriEscape cursor
          uri verbatim fuel (escaped.reverse ++ text) rest
        else uri verbatim fuel (c :: text) (cursor.skip 1)
      else .ok (text.reverse,cursor)
    | none => .ok (text.reverse,cursor)

def nonemptyUri (verbatim : Bool) (cursor : Cursor) : Except Fault (Text × Cursor) :=
  if cursor.peek.any (isUri verbatim) then uri verbatim (cursor.ahead.length + 1) [] cursor
  else fail "did not find expected tag URI"

/-- Reads a tag handle: an exclamation mark, or a word between two of them. Without the
second one the word is left to the suffix. -/
def tagHandle (cursor : Cursor) : Except Fault (Text × Cursor) :=
  if cursor.peek = some '!' then
    let (word,rest) := (cursor.skip 1).takeWhile isWord
    if rest.peek = some '!' then .ok ('!' :: word ++ ['!'],rest.skip 1)
    else .ok ('!' :: word,rest)
  else fail "did not find expected '!'"

def scanTag (cursor : Cursor) : Except Fault (Token × Cursor) := do
  if cursor.peekAt 1 = some '<' then
    let (suffix,rest) ← nonemptyUri true (cursor.skip 2)
    if rest.peek = some '>' then .ok (.tag [] suffix,rest.skip 1)
    else fail "did not find the expected '>'"
  else
    let (handle,rest) ← tagHandle cursor
    if handle.length ≠ 1 && handle.getLast? = some '!' then
      let (suffix,rest) ← nonemptyUri false rest
      .ok (.tag handle suffix,rest)
    else
      let (suffix,rest) ← uri false (rest.ahead.length + 1) (handle.drop 1).reverse rest
      if suffix = [] then .ok (.tag [] ['!'],rest) else .ok (.tag ['!'] suffix,rest)

def versionNumber (cursor : Cursor) : Except Fault (Text × Cursor) :=
  let (digits,rest) := cursor.takeWhile Char.isDigit
  if digits = [] then fail "did not find expected version number"
  else if 9 < digits.length then fail "found extremely long version number"
  else .ok (digits,rest)

/-- Reads what follows the name of a version directive: one of the versions 1.1 and 1.2. -/
def versionDirective (cursor : Cursor) : Except Fault Cursor := do
  let (major,rest) ← versionNumber (cursor.skipWhile isBlank)
  if rest.peek ≠ some '.' then fail "did not find expected digit or '.' character"
  else
    let (minor,rest) ← versionNumber (rest.skip 1)
    let number := fun digits => digits.foldl (fun n c => 10 * n + (c.toNat - '0'.toNat)) 0
    if number major = 1 && (number minor = 1 || number minor = 2) then .ok rest
    else fail "found incompatible YAML document"

def tagDirective (cursor : Cursor) : Except Fault (Token × Cursor) := do
  let (handle,rest) ← tagHandle (cursor.skipWhile isBlank)
  if handle.length ≠ 1 && handle.getLast? ≠ some '!' then fail "did not find expected '!'"
  else if !rest.isBlankAt 0 then fail "did not find expected whitespace"
  else
    let (lead,rest) ← nonemptyUri true (rest.skipWhile isBlank)
    if rest.endsWordAt 0 then .ok (.tagDirective handle lead,rest)
    else fail "did not find expected whitespace or line break"

def directive : Step := fun scanner => do
  let scanner := (← dropKey (scanner.close (-1))).allowKey false
  let (name,rest) := (scanner.cursor.skip 1).takeWhile isWord
  if name = [] then fail "could not find expected directive name"
  else if !rest.endsWordAt 0 then fail "found unexpected non-alphabetical character"
  else
    let (token,rest) ←
      if name = "YAML".toList then
        (versionDirective rest).map fun rest => (Token.versionDirective,rest)
      else if name = "TAG".toList then tagDirective rest
      else fail "found unknown directive name"
    let rest ← rest.finishLine
    .ok ((scanner.put token).move rest)

def marker (token : Token) : Step := fun scanner => do
  let scanner := (← dropKey (scanner.close (-1))).allowKey false
  .ok ((scanner.put token).skip 3)

def openFlow (token : Token) : Step := fun scanner => do
  let scanner ← saveKey scanner
  .ok (({ scanner with places := none :: scanner.places, keyAllowed := true }.put token).skip 1)

def closeFlow (token : Token) : Step := fun scanner => do
  let scanner ← dropKey scanner
  let places := if scanner.inFlow then scanner.places.drop 1 else scanner.places
  .ok (({ scanner with places := places, keyAllowed := false }.put token).skip 1)

def flowEntry : Step := fun scanner => do
  .ok ((((← dropKey scanner).allowKey true).put .flowEntry).skip 1)

/-- Opens a block for an indicator that stands here. -/
def openHere (problem : String) (token : Token) : Step := fun scanner =>
  if scanner.inFlow then .ok scanner
  else if !scanner.keyAllowed then fail problem
  else .ok (scanner.openBlock scanner.cursor.column scanner.tokens.size token)

def blockEntry : Step := fun scanner => do
  let scanner ← openHere "block sequence entries are not allowed in this context"
    .blockSequenceStart scanner
  .ok ((((← dropKey scanner).allowKey true).put .blockEntry).skip 1)

def key : Step := fun scanner => do
  let scanner ← openHere "mapping keys are not allowed in this context" .blockMappingStart scanner
  .ok ((((← dropKey scanner).allowKey !scanner.inFlow).put .key).skip 1)

def value : Step := fun scanner => do
  match scanner.places with
  | some place :: outer =>
    let scanner := (scanner.insertAt place.number .key).openBlock place.column place.number .blockMappingStart
    .ok (({ scanner with places := none :: outer, keyAllowed := false }.put .value).skip 1)
  | _ =>
    let scanner ← openHere "mapping values are not allowed in this context" .blockMappingStart scanner
    .ok (((scanner.allowKey !scanner.inFlow).put .value).skip 1)

/-- Reads the name of an anchor or an alias, behind its indicator. -/
def name (token : Text → Token) : Step := fun scanner => do
  let scanner := (← saveKey scanner).allowKey false
  let (name,rest) := (scanner.cursor.skip 1).takeWhile isWord
  if name ≠ [] && (rest.endsWordAt 0 || rest.peek.any (",]?:\x7d%@\x60".toList.contains ·)) then
    .ok ((scanner.put (token name)).move rest)
  else fail "did not find expected alphabetic or numeric character"

def tag : Step := fun scanner => do
  let scanner := (← saveKey scanner).allowKey false
  let (token,rest) ← scanTag scanner.cursor
  if rest.endsWordAt 0 || (scanner.inFlow && rest.peek = some ',') then
    .ok ((scanner.put token).move rest)
  else fail "did not find expected whitespace or line break"

def blockScalar (style : Style) : Step := fun scanner => do
  let scanner := (← dropKey scanner).allowKey true
  let (text,rest) ← readBlock (style = .literal) scanner.indent scanner.cursor
  .ok ((scanner.put (.scalar style text)).move rest)

def quotedScalar (style : Style) : Step := fun scanner => do
  let scanner := (← saveKey scanner).allowKey false
  let (text,rest) ← readQuoted (style = .singleQuoted) scanner.cursor
  .ok ((scanner.put (.scalar style text)).move rest)

def plainScalar : Step := fun scanner => do
  let scanner := (← saveKey scanner).allowKey false
  let (text,rest,broken) ← readPlain scanner.inFlow (scanner.indent + 1) scanner.cursor
  .ok (((scanner.put (.scalar .plain text)).move rest).allowKey broken)

/-- Whether a plain scalar may begin with a character. -/
def isPlainStart (scanner : Scanner) (c : Char) : Bool :=
  !(isBlank c || "-?:,[]\x7b\x7d#&*!|>'\"%@\x60".toList.contains c) ||
    (c = '-' && !scanner.cursor.isBlankAt 1) ||
    (!scanner.inFlow && (c = '?' || c = ':') && !scanner.cursor.endsWordAt 1)

/-- Reads the token that begins with a character. -/
def fetch (c : Char) : Step := fun scanner =>
  let cursor := scanner.cursor
  let alone := cursor.endsWordAt 1
  if cursor.column = 0 && c = '%' then directive scanner
  else if cursor.isMarker '-' then marker .documentStart scanner
  else if cursor.isMarker '.' then marker .documentEnd scanner
  else if c = '[' then openFlow .flowSequenceStart scanner
  else if c = '{' then openFlow .flowMappingStart scanner
  else if c = ']' then closeFlow .flowSequenceEnd scanner
  else if c = '}' then closeFlow .flowMappingEnd scanner
  else if c = ',' then flowEntry scanner
  else if c = '-' && alone then blockEntry scanner
  else if c = '?' && (scanner.inFlow || alone) then key scanner
  else if c = ':' && (scanner.inFlow || alone) then value scanner
  else if c = '*' then name .alias scanner
  else if c = '&' then name .anchor scanner
  else if c = '!' then tag scanner
  else if c = '|' && !scanner.inFlow then blockScalar .literal scanner
  else if c = '>' && !scanner.inFlow then blockScalar .folded scanner
  else if c = '\'' then quotedScalar .singleQuoted scanner
  else if c = '"' then quotedScalar .doubleQuoted scanner
  else if scanner.isPlainStart c then plainScalar scanner
  else fail "found character that cannot start any token"

/-- Closes every block at the end of the stream. -/
def finish (scanner : Scanner) : Except Fault (List Token) := do
  let scanner ← dropKey (scanner.close (-1))
  .ok scanner.tokens.toList

def run : Nat → Scanner → Except Fault (List Token)
  | 0, scanner => finish scanner
  | fuel + 1, scanner => do
    let scanner := toNextToken (fuel + 1) scanner
    let scanner ← dropStaleKey scanner
    let scanner := scanner.close scanner.cursor.column
    match scanner.cursor.peek with
    | none => finish scanner
    | some c => run fuel (← fetch c scanner)

end Scanner

/-- The tokens of a text. -/
def Token.scan (text : Text) : Except Fault (List Token) :=
  if text.all isAllowed then
    Scanner.run (text.length + 1) ⟨Cursor.start text,#[],-1,[],[none],true⟩
  else fail "control characters are not allowed"

end StyleHoist.Yaml
