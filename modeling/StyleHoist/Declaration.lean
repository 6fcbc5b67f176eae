import StyleHoist.Text.Blank

/-! The canonical form of a `style` value. A value is read as segments between
semicolons, each a list of words; writing the segments back in one fixed
spacing gives the text under which equal styles share a class. Segments keep
their order because a later declaration overrides an earlier one. -/
namespace StyleHoist

/-- A declaration text in canonical form. -/
structure Declaration where
  text : Text
deriving DecidableEq, Repr, Inhabited

namespace Declaration

/-- The words of every segment that has any. -/
def segments (raw : Text) : List (List Text) :=
  ((raw.splitOn ';').map Text.words).filter (· ≠ [])

/-- Words one space apart, segments by a semicolon and a space, a semicolon at the end. -/
def ofSegments (parts : List (List Text)) : Declaration :=
  if parts = [] then ⟨[]⟩
  else ⟨[';',' '].intercalate (parts.map [' '].intercalate) ++ [';']⟩

def normalize (raw : Text) : Declaration := ofSegments (segments raw)

def isEmpty (declaration : Declaration) : Bool := declaration.text.isEmpty

end Declaration

end StyleHoist
