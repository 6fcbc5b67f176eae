import StyleHoist.Yaml.Cursor

/-! The text of a scalar, in each of its four notations: plain, in single or
double quotes, and as an indented block. Line breaks inside are folded. -/
namespace StyleHoist.Yaml

inductive Style where
  | plain
  | singleQuoted
  | doubleQuoted
  | literal
  | folded
deriving DecidableEq, Repr

/-- A scalar being read. Texts are kept last character first. -/
structure Folding where
  text : Text
  /-- Blanks since the last other character, within a line. -/
  spaces : Text
  /-- The first break since the last other character, and those after it. -/
  firstBreak : Text
  laterBreaks : Text
  broken : Bool
deriving Inhabited

namespace Folding

def start : Folding := ⟨[],[],[],[],false⟩

def push (folding : Folding) (c : Char) : Folding := { folding with text := c :: folding.text }

/-- Writes the blanks or breaks that were held back. A single line feed becomes a space. -/
def join (folding : Folding) : Folding :=
  let written :=
    if folding.broken then
      if folding.firstBreak.getLast? = some '\n' then
        if folding.laterBreaks = [] then [' '] else folding.laterBreaks
      else folding.laterBreaks ++ folding.firstBreak
    else folding.spaces
  ⟨written ++ folding.text,[],[],[],false⟩

/-- Holds back the blanks and breaks ahead. A tab may not stand in the indentation of a
plain scalar. -/
def blanks (indent : Option Int) : Nat → Folding → Cursor → Except Fault (Folding × Cursor)
  | 0, folding, cursor => .ok (folding,cursor)
  | fuel + 1, folding, cursor =>
    match cursor.peek with
    | none => .ok (folding,cursor)
    | some c =>
      if isBlank c then
        if folding.broken then
          if c = '\t' && indent.any fun n => (cursor.column : Int) < n then
            fail "found a tab character that violates indentation"
          else blanks indent fuel folding (cursor.skip 1)
        else blanks indent fuel { folding with spaces := c :: folding.spaces } (cursor.skip 1)
      else if isBreak c then
        let (text,rest) := cursor.readBreak
        if folding.broken then
          blanks indent fuel { folding with laterBreaks := text.reverse ++ folding.laterBreaks } rest
        else blanks indent fuel { folding with spaces := [], firstBreak := text, broken := true } rest
      else .ok (folding,cursor)

end Folding

def hexValue? (c : Char) : Option Nat :=
  if '0' ≤ c && c ≤ '9' then some (c.toNat - '0'.toNat)
  else if 'a' ≤ c && c ≤ 'f' then some (c.toNat - 'a'.toNat + 10)
  else if 'A' ≤ c && c ≤ 'F' then some (c.toNat - 'A'.toNat + 10)
  else none

def hexNumber? (digits : Text) : Option Nat :=
  digits.foldlM (fun n c => (hexValue? c).map (16 * n + ·)) 0

/-- Escapes of one character. -/
def escapes : List (Char × Char) :=
  [('0','\x00'),('a','\x07'),('b','\x08'),('t','\t'),('\t','\t'),('n','\n'),('v','\x0b'),
   ('f','\x0c'),('r','\r'),('e','\x1b'),(' ',' '),('"','"'),('/','/'),('\\','\\'),
   ('N','\u0085'),('_','\u00a0'),('L','\u2028'),('P','\u2029')]

/-- Escapes that give a code point in a fixed number of digits. -/
def escapeWidths : List (Char × Nat) := [('x',2),('u',4),('U',8)]

/-- Reads an escape behind its backslash. -/
def readEscape (cursor : Cursor) : Except Fault (Char × Cursor) :=
  match cursor.peek with
  | none => fail "found unexpected end of stream"
  | some kind =>
    match escapes.lookup kind, escapeWidths.lookup kind with
    | some c, _ => .ok (c,cursor.skip 1)
    | none, some width =>
      let digits := (cursor.skip 1).ahead.take width
      match (if digits.length = width then hexNumber? digits else none) with
      | none => fail "did not find expected hexdecimal number"
      | some n =>
        if n.isValidChar then .ok (Char.ofNat n,cursor.skip (1 + width))
        else fail "found invalid Unicode character escape code"
    | none, none => fail "found unknown escape character"

/-- Reads the characters of a quoted scalar up to a blank, a break or the closing quote. -/
def quotedWord (single : Bool) : Nat → Folding → Cursor → Except Fault (Folding × Cursor)
  | 0, folding, cursor => .ok (folding,cursor)
  | fuel + 1, folding, cursor =>
    match cursor.peek with
    | none => .ok (folding,cursor)
    | some c =>
      if isBlank c || isBreak c then .ok (folding,cursor)
      else if single then
        if c = '\'' then
          if cursor.peekAt 1 = some '\'' then quotedWord single fuel (folding.push c) (cursor.skip 2)
          else .ok (folding,cursor)
        else quotedWord single fuel (folding.push c) (cursor.skip 1)
      else if c = '"' then .ok (folding,cursor)
      else if c = '\\' then
        if cursor.isBreakAt 1 then .ok ({ folding with broken := true },(cursor.skip 1).skipBreak)
        else do
          let (d,rest) ← readEscape (cursor.skip 1)
          quotedWord single fuel (folding.push d) rest
      else quotedWord single fuel (folding.push c) (cursor.skip 1)

def quotedWords (single : Bool) : Nat → Folding → Cursor → Except Fault (Text × Cursor)
  | 0, _, _ => fail "found unexpected end of stream"
  | fuel + 1, folding, cursor => do
    if cursor.atDocumentMarker then fail "found unexpected document indicator"
    else if cursor.isEnd then fail "found unexpected end of stream"
    else
      let (folding,rest) ← quotedWord single (fuel + 1) folding cursor
      if rest.peek = some (if single then '\'' else '"') then
        .ok (folding.text.reverse,rest.skip 1)
      else
        let (folding,rest) ← Folding.blanks none (fuel + 1) folding rest
        quotedWords single fuel folding.join rest

/-- Reads a quoted scalar, from its opening quote. -/
def readQuoted (single : Bool) (cursor : Cursor) : Except Fault (Text × Cursor) :=
  quotedWords single (cursor.ahead.length + 1) Folding.start (cursor.skip 1)

def isFlowMark (c : Char) : Bool := c = ',' || c = '[' || c = ']' || c = '{' || c = '}'

/-- Reads the characters of a plain scalar up to a blank, a break or an indicator. -/
def plainWord (flow : Bool) : Nat → Folding → Cursor → Except Fault (Folding × Cursor)
  | 0, folding, cursor => .ok (folding,cursor)
  | fuel + 1, folding, cursor =>
    match cursor.peek with
    | none => .ok (folding,cursor)
    | some c =>
      if isBlank c || isBreak c then .ok (folding,cursor)
      else if flow && c = ':' && (cursor.peekAt 1).any (fun d => isFlowMark d || d = '?') then
        fail "found unexpected ':'"
      else if (c = ':' && cursor.endsWordAt 1) || (flow && isFlowMark c) then .ok (folding,cursor)
      else plainWord flow fuel (folding.join.push c) (cursor.skip 1)

def plainWords (flow : Bool) (indent : Int) : Nat → Folding → Cursor → Except Fault (Folding × Cursor)
  | 0, folding, cursor => .ok (folding,cursor)
  | fuel + 1, folding, cursor => do
    if cursor.atDocumentMarker || cursor.peek = some '#' then .ok (folding,cursor)
    else
      let (folding,rest) ← plainWord flow (fuel + 1) folding cursor
      if rest.isBlankAt 0 || rest.isBreakAt 0 then
        let (folding,rest) ← Folding.blanks (some indent) (fuel + 1) folding rest
        if !flow && (rest.column : Int) < indent then .ok (folding,rest)
        else plainWords flow indent fuel folding rest
      else .ok (folding,rest)

/-- Reads a plain scalar. The last part says whether line breaks were read behind it. -/
def readPlain (flow : Bool) (indent : Int) (cursor : Cursor) : Except Fault (Text × Cursor × Bool) := do
  let (folding,rest) ← plainWords flow indent (cursor.ahead.length + 1) Folding.start cursor
  .ok (folding.text.reverse,rest,folding.broken)

/-- What becomes of the breaks at the end of a block. -/
inductive Chomp where
  | strip
  | clip
  | keep
deriving DecidableEq, Repr

/-- Reads empty lines and the indentation of the next one. An indentation of none is found
out here. Gives the breaks, last first, and the widest indentation seen. -/
def blockBreaks (indent : Option Nat) : Nat → Text → Nat → Cursor → Except Fault (Text × Nat × Cursor)
  | 0, breaks, widest, cursor => .ok (breaks,widest,cursor)
  | fuel + 1, breaks, widest, cursor =>
    let spaces := (cursor.ahead.takeWhile (· = ' ')).length
    let rest := cursor.skip (match indent with
      | none => spaces
      | some n => min spaces (n - cursor.column))
    let widest := max widest rest.column
    if rest.peek = some '\t' && indent.all (rest.column < ·) then
      fail "found a tab character where an indentation space is expected"
    else if rest.isBreakAt 0 then
      let (text,next) := rest.readBreak
      blockBreaks indent fuel (text.reverse ++ breaks) widest next
    else .ok (breaks,widest,rest)

/-- The lines of a block read so far. Texts are kept last character first. -/
structure Block where
  text : Text
  lastBreak : Text
  laterBreaks : Text
  /-- Whether the line read last begins with a blank. -/
  blankLine : Bool

def Block.join (block : Block) (literal : Bool) (blankNext : Bool) : Text :=
  let first :=
    if !literal && block.lastBreak.head? = some '\n' && !block.blankLine && !blankNext then
      if block.laterBreaks = [] then [' '] else []
    else block.lastBreak
  block.laterBreaks ++ first ++ block.text

def blockLines (literal : Bool) (indent : Nat) : Nat → Block → Cursor → Except Fault (Block × Cursor)
  | 0, block, cursor => .ok (block,cursor)
  | fuel + 1, block, cursor => do
    if cursor.column = indent && !cursor.isEnd then
      let blank := cursor.isBlankAt 0
      let (line,rest) := cursor.takeWhile (!isBreak ·)
      let (lastBreak,rest) := rest.readBreak
      let (breaks,_,next) ← blockBreaks (some indent) (fuel + 1) [] 0 rest
      blockLines literal indent fuel ⟨line.reverse ++ block.join literal blank,lastBreak,breaks,blank⟩ next
    else .ok (block,cursor)

def chomp? (cursor : Cursor) : Option (Chomp × Cursor) :=
  match cursor.peek with
  | some '+' => some (.keep,cursor.skip 1)
  | some '-' => some (.strip,cursor.skip 1)
  | _ => none

def increment? (cursor : Cursor) : Except Fault (Option (Nat × Cursor)) :=
  match cursor.peek with
  | some c =>
    if c = '0' then fail "found an indentation indicator equal to 0"
    else if c.isDigit then .ok (some (c.toNat - '0'.toNat,cursor.skip 1))
    else .ok none
  | none => .ok none

/-- Reads the indicators of a block in either order. -/
def blockHeader (cursor : Cursor) : Except Fault (Chomp × Option Nat × Cursor) := do
  match chomp? cursor with
  | some (chomp,rest) =>
    match ← increment? rest with
    | some (n,rest) => .ok (chomp,some n,rest)
    | none => .ok (chomp,none,rest)
  | none =>
    match ← increment? cursor with
    | some (n,rest) =>
      match chomp? rest with
      | some (chomp,rest) => .ok (chomp,some n,rest)
      | none => .ok (.clip,some n,rest)
    | none => .ok (.clip,none,cursor)

/-- Reads a block scalar, from its indicator. `parent` is the indentation around it. -/
def readBlock (literal : Bool) (parent : Int) (cursor : Cursor) : Except Fault (Text × Cursor) := do
  let (chomp,increment,rest) ← blockHeader (cursor.skip 1)
  let rest ← rest.finishLine
  let given := increment.map fun n => if 0 ≤ parent then parent.toNat + n else n
  let (breaks,widest,rest) ← blockBreaks given (rest.ahead.length + 1) [] 0 rest
  let indent := given.getD (max (max widest (parent + 1).toNat) 1)
  let (block,rest) ← blockLines literal indent (rest.ahead.length + 1) ⟨[],[],breaks,false⟩ rest
  let text := match chomp with
    | .strip => block.text
    | .clip => block.lastBreak ++ block.text
    | .keep => block.laterBreaks ++ block.lastBreak ++ block.text
  .ok (text.reverse,rest)

end StyleHoist.Yaml
