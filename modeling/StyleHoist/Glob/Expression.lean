import StyleHoist.Glob.Strategy

/-! Patterns as expressions over bytes: sequences of pieces, choices between
sequences, and groups around choices. An expression may not be nested too deep. -/
namespace StyleHoist.Glob

abbrev Bytes := List UInt8

def encode (c : Char) : Bytes := String.utf8EncodeChar c

/-- The byte ranges of a set. Of a wide character each byte counts for itself. -/
def byteRanges (range : Char × Char) : List (UInt8 × UInt8) :=
  let low := encode range.1
  let high := encode range.2
  let single := fun b => (b,b)
  if range.1 = range.2 then low.map single
  else low.dropLast.map single ++ (low.getLast?.getD 0,high.headD 0) :: high.tail.map single

mutual

/-- Whether a token stands for nothing at all: a group without a branch that stands for something. -/
def Token.vacant : Token → Bool
  | .alternates branches => vacantBranches branches
  | _ => false

def vacantTokens : List Token → Bool
  | [] => true
  | token :: rest => token.vacant && vacantTokens rest

def vacantBranches : List (List Token) → Bool
  | [] => true
  | branch :: rest => vacantTokens branch && vacantBranches rest

end

/-- The pieces that tokens are compiled to. -/
structure Pieces where
  count : Nat
  /-- How deep the deepest piece is nested. -/
  depth : Nat
deriving DecidableEq, Repr

namespace Pieces

def none : Pieces := ⟨0,0⟩

def one (depth : Nat) : Pieces := ⟨1,depth⟩

def followedBy (first second : Pieces) : Pieces :=
  ⟨first.count + second.count,max first.depth second.depth⟩

/-- The depth of the pieces as one: two or more are a level of their own. -/
def joined (pieces : Pieces) : Nat := if 1 < pieces.count then pieces.depth + 1 else pieces.depth

end Pieces

mutual

def Token.pieces : Token → Pieces
  | .literal c => ⟨(encode c).length,0⟩
  | .any => .one 0
  | .star => .one 1
  | .leading => .one 4
  | .trailing => ⟨2,1⟩
  | .between => .one 4
  | .set _ ranges => .one (Pieces.joined ⟨(ranges.flatMap byteRanges).length,1⟩)
  | .alternates branches =>
    if vacantBranches branches then .none else .one ((branchPieces branches).joined + 1)

def patternPieces : List Token → Pieces
  | [] => .none
  | token :: rest => token.pieces.followedBy (patternPieces rest)

/-- Each branch that stands for something, as a piece of a choice. -/
def branchPieces : List (List Token) → Pieces
  | [] => .none
  | branch :: rest =>
    if vacantTokens branch then branchPieces rest
    else (Pieces.one (patternPieces branch).joined).followedBy (branchPieces rest)

end

/-- How deep the expression of a pattern is nested. The ends of the path are pieces of it. -/
def depth (pattern : Pattern) : Nat := ((Pieces.mk 2 0).followedBy (patternPieces pattern)).joined

def depthLimit : Nat := 250

/-- Characters that have a meaning in expressions. -/
def marks : List Char := "\\.+*?()|[]\x7b\x7d^$#&-~".toList

def byteText (b : UInt8) : Text :=
  if b < 128 then
    let c := Char.ofNat b.toNat
    if marks.contains c then ['\\',c] else [c]
  else '\\' :: 'x' :: Nat.toDigits 16 b.toNat

def charText (c : Char) : Text := (encode c).flatMap byteText

def rangeText (range : Char × Char) : Text :=
  if range.1 = range.2 then charText range.1 else charText range.1 ++ '-' :: charText range.2

mutual

def Token.text : Token → Text
  | .literal c => charText c
  | .any => ['.']
  | .star => ['.','*']
  | .leading => "(?:/?|.*/)".toList
  | .trailing => "/.*".toList
  | .between => "(?:/|/.*/)".toList
  | .set negated ranges => '[' :: (if negated then ['^'] else []) ++ ranges.flatMap rangeText ++ [']']
  | .alternates branches =>
    if vacantBranches branches then [] else "(?:".toList ++ ['|'].intercalate (branchTexts branches) ++ [')']

def patternText : List Token → Text
  | [] => []
  | token :: rest => token.text ++ patternText rest

def branchTexts : List (List Token) → List Text
  | [] => []
  | branch :: rest =>
    if vacantTokens branch then branchTexts rest else patternText branch :: branchTexts rest

end

/-- The expression of a pattern, which works on bytes and stands for whole paths. -/
def expressionText (pattern : Pattern) : Text := "(?-u)^".toList ++ patternText pattern ++ ['$']

/-- Why patterns cannot be compiled together. -/
inductive SetFault where
  /-- The expression of a pattern is nested too deep. -/
  | alone (expression : Text)
  /-- The same of one of the patterns that are nothing but expressions. -/
  | among (index : Nat)
deriving DecidableEq, Repr

def SetFault.message : SetFault → String
  | .alone expression =>
    "error parsing glob '" ++ String.ofList expression ++ "': error parsing pattern 0"
  | .among index => "error parsing pattern " ++ toString index

/-- What keeps patterns from being compiled together. -/
def setFault? (patterns : List Pattern) : Option SetFault :=
  let tooDeep := fun pattern => depthLimit < depth pattern
  let compared := patterns.filter (strategy · = .extensionThenExpression)
  let others := patterns.filter (strategy · = .expression)
  match compared.find? (tooDeep ·) with
  | some pattern => some (.alone (expressionText pattern))
  | none => (others.findIdx? (tooDeep ·)).map .among

end StyleHoist.Glob
