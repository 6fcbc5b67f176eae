import StyleHoist.Disk.Walk

/-! What can be done with files, and when it fails. Paths are relative to a
folder, the working directory. -/
namespace StyleHoist.Disk

inductive Kind where
  | folder
  | file
deriving DecidableEq, Repr

/-- What there is at a spot. Only a folder may have a slash behind its name. -/
def entryAt (disk : Disk) : Spot → Except FileError Entry
  | .folder _ => .ok .folder
  | .name parent name slash =>
    match disk.find (name :: parent) with
    | none => .error .notFound
    | some .folder => .ok .folder
    | some entry => if slash then .error .notDirectory else .ok entry

/-- Whether a path leads to a folder or to something else. -/
def kind (disk : Disk) (base : Place) (path : Path) : Except FileError Kind := do
  match ← disk.entryAt (← disk.spot base .follow path) with
  | .folder => .ok .folder
  | _ => .ok .file

def read (disk : Disk) (base : Place) (path : Path) : Except FileError ByteArray := do
  match ← disk.entryAt (← disk.spot base .follow path) with
  | .file bytes => .ok bytes
  | _ => .error .isDirectory

/-- The absolute path of a place. -/
def pathOf (place : Place) : Path :=
  match place with
  | [] => ⟨['/']⟩
  | _ => ⟨place.reverse.flatMap fun name => '/' :: name⟩

/-- The absolute path without links and steps upwards. It is found name by name, so that the
path may have any length. -/
def realPath (disk : Disk) (base : Place) (path : Path) : Except FileError Path := do
  let spot ← disk.trace base .follow path
  let _ ← disk.entryAt spot
  .ok (pathOf spot.place)

/-- The names that lead from a folder to a place below it, outermost first. -/
def namesBelow? (folder place : Place) : Option (List Text) :=
  let names := place.take (place.length - folder.length)
  if names ≠ [] && names ++ folder = place then some names.reverse else none

/-- The regular files below a folder, as paths that begin with the folder's. -/
def below (disk : Disk) (base : Place) (path : Path) : Except FileError (List Path) := do
  let spot ← disk.spot base .follow path
  match ← disk.entryAt spot with
  | .folder =>
    .ok (disk.entries.filterMap fun
      | (place,.file _) => (namesBelow? spot.place place).map fun names =>
          path.join ⟨Path.ofSegments names⟩
      | _ => none)
  | _ => .error .notDirectory

/-- Makes an empty file, or empties the one that is there. -/
def create (disk : Disk) (base : Place) (path : Path) : Except FileError Disk := do
  match ← disk.spot base .create path with
  | .folder _ => .error .isDirectory
  | .name parent name _ =>
    match disk.find (name :: parent) with
    | some .folder => .error .isDirectory
    | _ => .ok (disk.put (name :: parent) (.file .empty))

/-- Makes an empty file where nothing is. -/
def createNew (disk : Disk) (base : Place) (path : Path) : Except FileError Disk := do
  match ← disk.spot base .bare path with
  | .folder _ => .error .exists
  | .name parent name slash =>
    if slash then .error .isDirectory
    else
      match disk.find (name :: parent) with
      | some _ => .error .exists
      | none => .ok (disk.put (name :: parent) (.file .empty))

/-- Makes an empty file unless there is one. -/
def openEnd (disk : Disk) (base : Place) (path : Path) : Except FileError Disk := do
  match ← disk.spot base .create path with
  | .folder _ => .error .isDirectory
  | .name parent name _ =>
    match disk.find (name :: parent) with
    | some .folder => .error .isDirectory
    | some _ => .ok disk
    | none => .ok (disk.put (name :: parent) (.file .empty))

/-- Writes at the end of a file. -/
def write (disk : Disk) (base : Place) (path : Path) (bytes : ByteArray) : Except FileError Disk := do
  let spot ← disk.spot base .follow path
  match ← disk.entryAt spot with
  | .file held => .ok (disk.put spot.place (.file (held ++ bytes)))
  | _ => .error .isDirectory

def makeFolder (disk : Disk) (base : Place) (path : Path) : Except FileError Disk := do
  match ← disk.spot base .bare path with
  | .folder _ => .error .exists
  | .name parent name _ =>
    match disk.find (name :: parent) with
    | some _ => .error .exists
    | none => .ok (disk.put (name :: parent) .folder)

/-- Gives a file or link another name, in place of what has that name. -/
def rename (disk : Disk) (base : Place) (source target : Path) : Except FileError Disk := do
  match ← disk.spot base .bare source, ← disk.spot base .bare target with
  | .name parent name slash, .name parent' name' slash' =>
    match disk.find (name :: parent), disk.find (name' :: parent') with
    | none, _ => .error .notFound
    | some .folder, _ => .error .isDirectory
    | some entry, other =>
      if slash || slash' then .error .notDirectory
      else
        match other with
        | some .folder => .error .isDirectory
        | _ =>
          if name :: parent = name' :: parent' then .ok disk
          else .ok ((disk.erase (name :: parent)).put (name' :: parent') entry)
  | _, _ => .error .busy

/-- Takes a file or link away. -/
def remove (disk : Disk) (base : Place) (path : Path) : Except FileError Disk := do
  match ← disk.spot base .bare path with
  | .folder _ => .error .isDirectory
  | .name parent name slash =>
    match disk.find (name :: parent) with
    | none => .error .notFound
    | some .folder => .error .isDirectory
    | some _ => if slash then .error .notDirectory else .ok (disk.erase (name :: parent))

end StyleHoist.Disk
