import StyleHoist.Text.Basic

/-! White space in the two senses that matter here: the five ASCII characters
that separate attributes, and the Unicode `White_Space` property that
separates the words of a value. -/
namespace StyleHoist

/-- Space, tab, line feed, form feed and carriage return. -/
def isSpace (c : Char) : Bool :=
  c = ' ' || c = '\t' || c = '\n' || c = '\x0c' || c = '\r'

/-- The Unicode property `White_Space`, as ranges of code points. -/
def blankRanges : List (Nat × Nat) :=
  [(0x09,0x0D),(0x20,0x20),(0x85,0x85),(0xA0,0xA0),(0x1680,0x1680),(0x2000,0x200A),
   (0x2028,0x2029),(0x202F,0x202F),(0x205F,0x205F),(0x3000,0x3000)]

def isBlank (c : Char) : Bool :=
  blankRanges.any fun range => range.1 ≤ c.toNat && c.toNat ≤ range.2

theorem isBlank_of_isSpace {c : Char} (space : isSpace c = true) : isBlank c = true := by
  simp only [isSpace,Bool.or_eq_true,decide_eq_true_eq] at space
  rcases space with (((rfl | rfl) | rfl) | rfl) | rfl <;> decide

namespace Text

/-- The maximal runs of characters that are not blank, in order. -/
def words (text : Text) : List Text :=
  (text.splitOnP isBlank).filter (· ≠ [])

def trimStart (text : Text) : Text := text.dropWhile isBlank

end Text

end StyleHoist
