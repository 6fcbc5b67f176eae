import StyleHoist.Text.Basic

/-! Line and column of a place in a text, both counted from one. Columns count
characters, offsets count bytes. -/
namespace StyleHoist

structure Position where
  offset : Nat
  line : Nat
  column : Nat
deriving DecidableEq, Repr, Inhabited

namespace Position

/-- The position reached after reading `behind`, given nearest character first. -/
def ofBehind (behind : Text) : Position where
  offset := Text.byteSize behind
  line := behind.count '\n' + 1
  column := (behind.takeWhile (· ≠ '\n')).length + 1

/-- The position of a byte offset, if the offset is a character boundary. -/
def locate? (text : Text) (offset : Nat) : Option Position :=
  (Text.cut? text offset).map fun parts => ofBehind parts.1.reverse

def text (position : Position) : String :=
  toString position.line ++ ":" ++ toString position.column

end Position

end StyleHoist
