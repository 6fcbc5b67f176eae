import StyleHoist.Failure

/-! A store of files: folders, files and symbolic links by their place. A place
is a list of names with the innermost first, so that the folder around it is
its tail. -/
namespace StyleHoist

abbrev Place := List Text

inductive Entry where
  | folder
  | file (bytes : ByteArray)
  | link (target : Text)
deriving Inhabited

/-- Everything below the root, which is always a folder. -/
structure Disk where
  entries : List (Place × Entry)
deriving Inhabited

namespace Disk

def empty : Disk := ⟨[]⟩

def find (disk : Disk) (place : Place) : Option Entry :=
  if place = [] then some .folder else disk.entries.lookup place

def erase (disk : Disk) (place : Place) : Disk := ⟨disk.entries.filter fun entry => entry.1 ≠ place⟩

def put (disk : Disk) (place : Place) (entry : Entry) : Disk :=
  ⟨(disk.erase place).entries ++ [(place,entry)]⟩

end Disk

end StyleHoist
