import StyleHoist.Text.Basic

/-! File paths as they are written. The text of a path is kept; empty segments
and single dots in it do not count when paths are compared, and double dots
are not resolved. -/
namespace StyleHoist

structure Path where
  text : Text
deriving DecidableEq, Repr, Inhabited

inductive Component where
  | root
  | up
  | name (text : Text)
deriving DecidableEq, Repr

/-- Order of code points, which is also the order of the UTF-8 bytes. -/
def Text.atMost : Text → Text → Bool
  | [], _ => true
  | _ :: _, [] => false
  | a :: left, b :: right => a < b || (a = b && atMost left right)

def Component.atMost : Component → Component → Bool
  | .root, _ => true
  | .up, .root => false
  | .up, _ => true
  | .name left, .name right => Text.atMost left right
  | .name _, _ => false

namespace Path

def ofString (text : String) : Path := ⟨text.toList⟩

def display (path : Path) : String := String.ofList path.text

def isAbsolute (path : Path) : Bool := path.text.head? = some '/'

def segments (path : Path) : List Text := path.text.splitOn '/'

/-- Segments that name no step. -/
def isIdle (segment : Text) : Bool := segment = [] || segment = ['.']

def component? (segment : Text) : Option Component :=
  if isIdle segment then none
  else if segment = ['.','.'] then some .up
  else some (.name segment)

def components (path : Path) : List Component :=
  (if path.isAbsolute then [.root] else []) ++ path.segments.filterMap component?

/-- Whether two texts write the same path. -/
def same (left right : Path) : Bool := left.components = right.components

def componentsAtMost : List Component → List Component → Bool
  | [], _ => true
  | _ :: _, [] => false
  | a :: left, b :: right => if a = b then componentsAtMost left right else a.atMost b

/-- The order of paths, component by component. -/
def atMost (left right : Path) : Bool := componentsAtMost left.components right.components

/-- A path below another. An absolute path stays as it is. -/
def join (base path : Path) : Path :=
  if path.isAbsolute then path
  else if base.text = [] || base.text.getLast? = some '/' then ⟨base.text ++ path.text⟩
  else ⟨base.text ++ '/' :: path.text⟩

/-- The same name with more text at its end. -/
def extend (path : Path) (ending : String) : Path := ⟨path.text ++ ending.toList⟩

def ofSegments (segments : List Text) : Text := ['/'].intercalate segments

/-- The directory of a path. The root has none. -/
def parent? (path : Path) : Option Path :=
  match path.segments.reverse.dropWhile isIdle with
  | [] => none
  | _ :: above =>
    match above.dropWhile isIdle with
    | [] => some ⟨if path.isAbsolute then ['/'] else []⟩
    | steps => some ⟨ofSegments steps.reverse⟩

/-- The last name of a path, unless it ends in a step upwards. -/
def fileName? (path : Path) : Option Text :=
  match path.components.getLast? with
  | some (.name text) => some text
  | _ => none

def dropSteps : Nat → List Text → List Text
  | 0, segments => segments.dropWhile isIdle
  | n + 1, segments => dropSteps n ((segments.dropWhile isIdle).drop 1)

/-- The rest of a path behind a base that it begins with, component by component. -/
def below? (path base : Path) : Option Path :=
  if base.components.isPrefixOf path.components then
    let steps := (base.segments.filterMap component?).length
    some ⟨ofSegments ((dropSteps steps path.segments).reverse.dropWhile isIdle).reverse⟩
  else none

end Path

end StyleHoist
