import StyleHoist.Glob.Expression
import StyleHoist.Glob.Parser

/-! Matching a pattern against the bytes of a path. The places of a path, from
before its first byte to behind its last, are taken together: a token leads
from the places where it can begin to those where it can end. Stars and single
wildcards match a slash like any other byte. -/
namespace StyleHoist.Glob

def slash : UInt8 := 47

/-- For each place of a path, whether it has been reached. -/
abbrev Places := List Bool

/-- The place before the first byte. -/
def atStart (path : Bytes) : Places := true :: path.map fun _ => false

/-- The places behind one byte that passes a test. -/
def behindByte (test : UInt8 → Bool) (path : Bytes) (places : Places) : Places :=
  false :: List.zipWith (fun b here => here && test b) path places

def behindBytes (expected path : Bytes) (places : Places) : Places :=
  expected.foldl (fun places a => behindByte (· = a) path places) places

/-- The places reached, and all that follow one of them. -/
def onward (reached : Bool) : Places → Places
  | [] => []
  | here :: rest => (reached || here) :: onward (reached || here) rest

def either (left right : Places) : Places := List.zipWith (· || ·) left right

def behindSlash : Bytes → Places → Places := behindByte (· = slash)

/-- The places reached, and those behind any later slash. -/
def intoFolders (path : Bytes) (places : Places) : Places :=
  either places (behindSlash path (onward false places))

def inSet (ranges : List (Char × Char)) (b : UInt8) : Bool :=
  (ranges.flatMap byteRanges).any fun range => range.1 ≤ b && b ≤ range.2

mutual

/-- The places where a token can end. -/
def Token.ends (path : Bytes) : Token → Places → Places
  | .literal c, places => behindBytes (encode c) path places
  | .any, places => behindByte (fun _ => true) path places
  | .star, places => onward false places
  | .leading, places => intoFolders path places
  | .trailing, places => onward false (behindSlash path places)
  | .between, places => intoFolders path (behindSlash path places)
  | .set negated ranges, places => behindByte (fun b => inSet ranges b != negated) path places
  | .alternates branches, places =>
    if vacantBranches branches then places else branchEnds path branches places

def patternEnds (path : Bytes) : List Token → Places → Places
  | [], places => places
  | token :: rest, places => patternEnds path rest (token.ends path places)

/-- Branches that stand for nothing match nothing. -/
def branchEnds (path : Bytes) : List (List Token) → Places → Places
  | [], places => places.map fun _ => false
  | branch :: rest, places =>
    if vacantTokens branch then branchEnds path rest places
    else either (patternEnds path branch places) (branchEnds path rest places)

end

/-- Whether the last component of a path is the step upwards, which is not a name. -/
def endsInStepUp (path : Bytes) : Bool :=
  path.reverse.takeWhile (· ≠ slash) = [46,46]

/-- Whether a pattern is decided by the last name of a path. -/
def Strategy.asksName : Strategy → Bool
  | .name => true
  | .extension => true
  | .extensionThenExpression => true
  | _ => false

/-- Whether a pattern stands for a whole path. Two stars alone stand for every path. -/
def covers (pattern : Pattern) (path : Bytes) : Bool :=
  match pattern with
  | [.leading] => true
  | _ =>
    !(endsInStepUp path && (strategy pattern).asksName) &&
      (patternEnds path pattern (atStart path)).getLast? = some true

/-- The selection of paths by patterns to include and patterns to leave out. -/
structure Selector where
  included : List Pattern
  excluded : List Pattern
deriving Inhabited

def Selector.matches (selector : Selector) (path : Text) : Bool :=
  let bytes := path.flatMap encode
  (selector.included.any (covers · bytes)) && !(selector.excluded.any (covers · bytes))

end StyleHoist.Glob
