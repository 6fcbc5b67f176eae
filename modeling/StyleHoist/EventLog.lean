import StyleHoist.Event
import StyleHoist.Lock

/-! The log of runs: a file with an event on each line. -/
namespace StyleHoist.EventLog

open Procedure

/-- Adds an event to a log. The log and the folder it is in are made if they are missing. -/
def append (path : Path) (event : Event) : Attempt Unit := do
  Attempt.ensureFolderOf path
  Attempt.ask (request (.openEnd path)) (.file "open event log" path)
  Attempt.ask (request (.write path (encodeText (event.line ++ ['\n'])))) (.file "write event to" path)

/-- Notes a run in a log. -/
def record (identity : Identity) (path : Path) (action : Action) (details : Json) : Attempt Unit := do
  let now ← request .clock
  append path ⟨now,action,identity.actor,details.sorted⟩

end StyleHoist.EventLog
