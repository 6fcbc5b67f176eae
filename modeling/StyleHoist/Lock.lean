import StyleHoist.Json.Selection
import StyleHoist.Procedure.Files
import StyleHoist.Timestamp.Reader

/-! The lock of a stylesheet. While a run holds it, a file beside the
stylesheet tells who does; no other run can make that file until it is gone. -/
namespace StyleHoist

/-- Who carries out a run. -/
structure Identity where
  /-- User and machine. -/
  actor : Text
  /-- The number of the process. -/
  pid : Nat
deriving DecidableEq, Repr, Inhabited

/-- What a lock file tells. -/
structure LockNote where
  owner : Text
  pid : Option Nat
  created : Timestamp
  action : Text
deriving DecidableEq, Repr

namespace LockNote

def text (note : LockNote) : Text :=
  let pid := match note.pid with
    | some pid => [("pid".toList,Json.ofNat pid)]
    | none => []
  Json.lines (("owner".toList,.str note.owner) :: pid ++
    [("created_at".toList,.str note.created.text),("action".toList,.str note.action)])

/-- The number of a process: 32 bits, or none. -/
def readPid? : Json → Option (Option Nat)
  | .null => some none
  | .int n => if 0 ≤ n && n < Nat.pow 2 32 then some (some n.toNat) else none
  | _ => none

def readText? : Json → Option Text
  | .str text => some text
  | _ => none

def readTime? : Json → Option Timestamp
  | .str text => Timestamp.read? text
  | _ => none

def ofParts? (owner pid created action : Json) : Option LockNote := do
  some ⟨← readText? owner,← readPid? pid,← readTime? created,← readText? action⟩

def names : List Text := ["owner".toList,"pid".toList,"created_at".toList,"action".toList]

/-- Reads a note from an object of its parts or from the list of them. No part may be given
twice. -/
def ofJson? : Json → Option LockNote
  | .obj members => do
    let part := fun (name : String) => members.lookup name.toList
    if names.any fun name => 1 < (members.map (·.1)).count name then none
    else ofParts? (← part "owner") ((part "pid").getD .null) (← part "created_at") (← part "action")
  | .list [owner,pid,created,action] => ofParts? owner pid created action
  | _ => none

/-- Reads a note from its text, in which members of other names do not count. -/
def ofText? (text : Text) : Option LockNote := do ofJson? (← Json.select? names text)

/-- The lines that report who holds a lock. -/
def report (note : LockNote) (path : Path) (now : Timestamp) : String :=
  let pid := match note.pid with
    | some pid => toString pid
    | none => "unknown"
  "\nLock: " ++ path.display ++ " (created " ++ Timestamp.ageText (now.since note.created) ++
    " ago by " ++ String.ofList note.owner ++ ", pid " ++ pid ++ ")\nAction: " ++ String.ofList note.action

end LockNote

namespace Lock

open Procedure

def pathFor (stylesheet : Path) : Path := stylesheet.extend ".lock"

/-- Reads the note in a lock file. -/
def readNote (path : Path) : Attempt LockNote := do
  let text ← Attempt.ask (readText path) (.file "read lock file" path)
  match LockNote.ofText? text with
  | some note => pure note
  | none => throw (.lock ("failed to parse lock file '" ++ path.display ++ "': invalid content"))

/-- What is known of a lock that another run holds. -/
def holder (path : Path) : Procedure String := do
  match ← (readNote path).toProcedure with
  | .ok note =>
    let now ← request .clock
    pure (note.report path now)
  | .error _ => pure ("\nLock: " ++ path.display)

/-- Takes the lock of a stylesheet. Gives the lock file. -/
def acquire (identity : Identity) (stylesheet : Path) (action : Text) : Attempt Path := do
  let path := pathFor stylesheet
  let now ← request .clock
  Attempt.ensureFolderOf path
  match ← request (.createNew path) with
  | .error .exists =>
    let report ← holder path
    throw (.lock ("stylesheet is locked by another run" ++ report ++
      "\nIf no other run is active, delete the lock file and retry."))
  | .error cause =>
    throw (.lock ("failed to acquire lock '" ++ path.display ++ "': " ++ cause.message))
  | .ok () =>
    let note : LockNote := ⟨identity.actor,some identity.pid,now,action⟩
    match ← request (.write path (encodeText note.text)) with
    | .error cause =>
      let _ ← request (.remove path)
      throw (.lock ("failed to write lock metadata: " ++ cause.message))
    | .ok () => pure path

/-- Gives a lock back. If its file cannot be removed there is a warning. -/
def release (path : Path) : Procedure Unit := do
  match ← request (.remove path) with
  | .ok () => pure ()
  | .error cause =>
    warn ("failed to release lock '" ++ path.display ++ "': " ++ cause.message)

/-- Makes an attempt while holding the lock of a stylesheet. The lock is given back however
the attempt ends. -/
def holding {α : Type} (identity : Identity) (stylesheet : Path) (action : Text) (attempt : Attempt α) :
    Attempt α := do
  let path ← acquire identity stylesheet action
  let result ← ExceptT.lift attempt.toProcedure
  release path
  ExceptT.mk (pure result)

end Lock

end StyleHoist
