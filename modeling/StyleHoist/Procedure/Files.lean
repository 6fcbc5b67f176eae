import StyleHoist.Procedure.Basic

/-! Careful file handling: text files, folders made when they are missing, and
files that are replaced as a whole or not at all. -/
namespace StyleHoist

/-- The characters that bytes are the UTF-8 form of. -/
def decodeText? (bytes : ByteArray) : Except FileError Text :=
  match bytes.utf8Decode? with
  | some characters => .ok characters.toList
  | none => .error .notText

/-- The UTF-8 form of characters. -/
def encodeText (text : Text) : ByteArray := (String.ofList text).toByteArray

theorem decodeText?_encodeText (text : Text) : decodeText? (encodeText text) = .ok text := by
  simp [decodeText?,encodeText]

namespace Procedure

def exists? (path : Path) : Procedure Bool := do
  match ← request (.kind path) with
  | .ok _ => pure true
  | .error _ => pure false

def isFolder? (path : Path) : Procedure Bool := do
  match ← request (.kind path) with
  | .ok .folder => pure true
  | _ => pure false

def readText (path : Path) : Procedure (Except FileError Text) := do
  match ← request (.read path) with
  | .ok bytes => pure (decodeText? bytes)
  | .error cause => pure (.error cause)

/-- Makes a folder in a folder that is there. One that is there already will do. -/
def makeFolder (path : Path) : Procedure (Except FileError Unit) := do
  match ← request (.makeFolder path) with
  | .ok () => pure (.ok ())
  | .error cause => if ← isFolder? path then pure (.ok ()) else pure (.error cause)

/-- Makes a folder and those around it that are missing. -/
def makeFolders : Nat → Path → Procedure (Except FileError Unit)
  | 0, _ => pure (.error .notFound)
  | fuel + 1, path => do
    if path.text = [] then pure (.ok ())
    else
      match ← request (.makeFolder path) with
      | .ok () => pure (.ok ())
      | .error .notFound =>
        match path.parent? with
        | none => pure (.error .notFound)
        | some parent =>
          match ← makeFolders fuel parent with
          | .error cause => pure (.error cause)
          | .ok () => makeFolder path
      | .error cause => if ← isFolder? path then pure (.ok ()) else pure (.error cause)

end Procedure

namespace Attempt

open Procedure

/-- Makes the folder that a file is to be in, if it is missing. -/
def ensureFolderOf (path : Path) : Attempt Unit := do
  match path.parent? with
  | none => pure ()
  | some parent =>
    if parent.text = [] then pure ()
    else if ← exists? parent then pure ()
    else ask (makeFolders (parent.segments.length + 1) parent) (.file "create directory" parent)

/-- The file beside a file that its new content is written to. -/
def temporary? (path : Path) : Option Path := do
  let name ← path.fileName?
  let folder := path.parent?.getD ⟨['.']⟩
  some (folder.join ⟨'.' :: name ++ ".destyle.tmp".toList⟩)

/-- Replaces a file as a whole. The new content is complete before it takes the place of
the old one. -/
def replaceBytes (path : Path) (bytes : ByteArray) : Attempt Unit := do
  ensureFolderOf path
  match temporary? path with
  | none => throw (.misuse ("invalid file path '" ++ path.display ++ "'"))
  | some temporary =>
    ask (request (.create temporary)) (.file "create" temporary)
    match ← request (.write temporary bytes) with
    | .error cause =>
      let _ ← request (.remove temporary)
      throw (.file "write" temporary cause)
    | .ok () =>
      match ← request (.rename temporary path) with
      | .error cause =>
        let _ ← request (.remove temporary)
        throw (.file "replace" path cause)
      | .ok () => pure ()

def replace (path : Path) (content : Text) : Attempt Unit := replaceBytes path (encodeText content)

/-- Where the first version of a file is kept. -/
def backupPath (path : Path) (suffix : Text) : Path := ⟨path.text ++ '.' :: suffix⟩

/-- Copies a file. Only the content of a file can be copied, not a folder. -/
def copy (source target : Path) : Procedure (Except FileError Unit) := do
  match ← request (.read source) with
  | .error .isDirectory => pure (.error .notFile)
  | .error cause => pure (.error cause)
  | .ok bytes =>
    match ← request (.create target) with
    | .error cause => pure (.error cause)
    | .ok () => request (.write target bytes)

/-- Copies a file to its backup unless there is one. Gives the backup if it is new. -/
def backUp (path : Path) (suffix : Text) : Attempt (Option Path) := do
  let backup := backupPath path suffix
  if ← exists? backup then pure none
  else
    ask (copy path backup) (.file "back up" path)
    pure (some backup)

end Attempt

end StyleHoist
