import StyleHoist.Text.Basic

/-! A place in a YAML stream, with the classes of characters that its grammar
is written in. -/
namespace StyleHoist.Yaml

/-- What is wrong with a stream. -/
structure Fault where
  problem : String
deriving DecidableEq, Repr

def fail {α : Type} (problem : String) : Except Fault α := .error ⟨problem⟩

def isBreak (c : Char) : Bool :=
  c = '\r' || c = '\n' || c = '\u0085' || c = '\u2028' || c = '\u2029'

def isBlank (c : Char) : Bool := c = ' ' || c = '\t'

def isWord (c : Char) : Bool := c.isAlphanum || c = '_' || c = '-'

/-- Characters that a stream may hold. -/
def isAllowed (c : Char) : Bool :=
  let n := c.toNat
  n = 0x09 || n = 0x0A || n = 0x0D || (0x20 ≤ n && n ≤ 0x7E) || n = 0x85 ||
    (0xA0 ≤ n && n ≤ 0xD7FF) || (0xE000 ≤ n && n ≤ 0xFFFD) || 0x10000 ≤ n

structure Cursor where
  ahead : Text
  /-- The number of bytes behind. -/
  index : Nat
  line : Nat
  column : Nat
deriving Inhabited

namespace Cursor

def start (text : Text) : Cursor := ⟨text,0,0,0⟩

def peek (cursor : Cursor) : Option Char := cursor.ahead.head?

def peekAt (cursor : Cursor) (n : Nat) : Option Char := cursor.ahead[n]?

def isEnd (cursor : Cursor) : Bool := cursor.ahead.isEmpty

def isBlankAt (cursor : Cursor) (n : Nat) : Bool := (cursor.peekAt n).any isBlank

def isBreakAt (cursor : Cursor) (n : Nat) : Bool := (cursor.peekAt n).any isBreak

/-- A break or the end of the stream. -/
def endsLineAt (cursor : Cursor) (n : Nat) : Bool := (cursor.peekAt n).all isBreak

/-- A blank, a break or the end of the stream. -/
def endsWordAt (cursor : Cursor) (n : Nat) : Bool :=
  (cursor.peekAt n).all fun c => isBlank c || isBreak c

/-- Moves on within a line. -/
def skip (cursor : Cursor) (n : Nat) : Cursor :=
  ⟨cursor.ahead.drop n,cursor.index + Text.byteSize (cursor.ahead.take n),cursor.line,cursor.column + n⟩

def skipWhile (cursor : Cursor) (test : Char → Bool) : Cursor :=
  cursor.skip (cursor.ahead.takeWhile test).length

/-- The text up to the first character that fails a test, and the place behind it. -/
def takeWhile (cursor : Cursor) (test : Char → Bool) : Text × Cursor :=
  let taken := cursor.ahead.takeWhile test
  (taken,cursor.skip taken.length)

/-- Reads a line break. All breaks but the two Unicode separators become a line feed. -/
def readBreak (cursor : Cursor) : Text × Cursor :=
  let behind := fun n => ({ cursor.skip n with line := cursor.line + 1, column := 0 } : Cursor)
  match cursor.ahead with
  | '\r' :: '\n' :: _ => (['\n'],behind 2)
  | c :: _ =>
    if c = '\u2028' || c = '\u2029' then ([c],behind 1)
    else if isBreak c then (['\n'],behind 1)
    else ([],cursor)
  | [] => ([],cursor)

def skipBreak (cursor : Cursor) : Cursor := cursor.readBreak.2

def skipComment (cursor : Cursor) : Cursor :=
  if cursor.peek = some '#' then cursor.skipWhile (!isBreak ·) else cursor

/-- A document marker at the start of a line. -/
def isMarker (cursor : Cursor) (c : Char) : Bool :=
  cursor.column = 0 && cursor.peekAt 0 = some c && cursor.peekAt 1 = some c &&
    cursor.peekAt 2 = some c && cursor.endsWordAt 3

def atDocumentMarker (cursor : Cursor) : Bool := cursor.isMarker '-' || cursor.isMarker '.'

/-- Reads the rest of a line that may hold blanks and a comment only. -/
def finishLine (cursor : Cursor) : Except Fault Cursor :=
  let rest := (cursor.skipWhile isBlank).skipComment
  if rest.endsLineAt 0 then .ok rest.skipBreak
  else fail "did not find expected comment or line break"

end Cursor

end StyleHoist.Yaml
