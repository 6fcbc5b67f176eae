import StyleHoist.Disk.Basic

/-! Where a path leads. Names are looked up one by one, links on the way are
followed up to a limit, and everything but the last name has to be a folder. -/
namespace StyleHoist.Disk

/-- What a path comes to: a folder as such, or a name in a folder, which need not exist. -/
inductive Spot where
  | folder (place : Place)
  | name (parent : Place) (name : Text) (slash : Bool)
deriving DecidableEq, Repr

def Spot.place : Spot → Place
  | .folder place => place
  | .name parent last _ => last :: parent

/-- How far one goes without following a link. -/
inductive Reach where
  | spot (spot : Spot)
  | link (here : Place) (target : Text) (rest : List Text)
deriving DecidableEq, Repr

/-- Whether a last link is followed, and whether the last name may end in a slash. -/
inductive Mode where
  | follow
  | create
  | bare
deriving DecidableEq, Repr

/-- The length that no name exceeds, in bytes. -/
def longestName : Nat := 255

/-- The length that no path exceeds, in bytes. -/
def longestPath : Nat := 4095

/-- The number of links that may be followed. -/
def mostLinks : Nat := 40

/-- Goes along steps from a folder up to the last name or the next link. -/
def advance (disk : Disk) (here : Place) : List Text → Except FileError Reach
  | [] => .ok (.spot (.folder here))
  | step :: rest =>
    if Path.isIdle step then advance disk here rest
    else if step = ['.','.'] then advance disk here.tail rest
    else if longestName < Text.byteSize step then .error .nameTooLong
    else if rest.all (· = []) then .ok (.spot (.name here step (!rest.isEmpty)))
    else
      match disk.find (step :: here) with
      | none => .error .notFound
      | some .folder => advance disk (step :: here) rest
      | some (.file _) => .error .notDirectory
      | some (.link target) => .ok (.link here target rest)

theorem advance_of_idle {disk : Disk} {here : Place} {step : Text} {rest : List Text} (idle : Path.isIdle step = true) :
    disk.advance here (step :: rest) = disk.advance here rest := by
  rw [advance,if_pos idle]

/-- Where the steps of a link begin. -/
def baseOf (here : Place) (target : Text) : Place := if target.head? = some '/' then [] else here

/-- The spot that steps from a folder lead to, with at most so many links followed. -/
def spotFrom (disk : Disk) (mode : Mode) : Nat → Place → List Text → Except FileError Spot
  | links, here, steps => do
    match ← advance disk here steps with
    | .link here target rest =>
      match links with
      | 0 => .error .tooManyLinks
      | links + 1 => spotFrom disk mode links (baseOf here target) (target.splitOn '/' ++ rest)
    | .spot (.folder place) => .ok (.folder place)
    | .spot (.name parent name slash) =>
      if mode = .create && slash then .error .isDirectory
      else
        match if mode = .bare then none else disk.find (name :: parent) with
        | some (.link target) =>
          match links with
          | 0 => .error .tooManyLinks
          | links + 1 =>
            spotFrom disk mode links (baseOf parent target)
              (target.splitOn '/' ++ if slash then [[]] else [])
        | _ => .ok (.name parent name slash)

theorem spotFrom_error {disk : Disk} {mode : Mode} {links : Nat} {here : Place} {steps : List Text} {cause : FileError}
    (failed : disk.advance here steps = .error cause) :
    disk.spotFrom mode links here steps = .error cause := by
  rw [spotFrom,failed]
  rfl

/-- The spot of a path of any length. Relative paths start in a given folder. -/
def trace (disk : Disk) (base : Place) (mode : Mode) (path : Path) : Except FileError Spot :=
  if path.text = [] then .error .notFound
  else if path.text.contains '\x00' then .error .emptyCharacter
  else spotFrom disk mode mostLinks (baseOf base path.text) path.segments

/-- The spot of a path. -/
def spot (disk : Disk) (base : Place) (mode : Mode) (path : Path) : Except FileError Spot :=
  if longestPath < Text.byteSize path.text && !path.text.contains '\x00' then .error .nameTooLong
  else trace disk base mode path

end StyleHoist.Disk
