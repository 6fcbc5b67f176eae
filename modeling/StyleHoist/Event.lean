import StyleHoist.Json.Basic
import StyleHoist.Timestamp.Reader

/-! The events of the log: when a run took place, what it did, who ran it, and
figures that depend on the kind of run. An event is one line of JSON. -/
namespace StyleHoist

inductive Action where
  | convert
  | scan
deriving DecidableEq, Repr

def Action.text : Action → String
  | .convert => "convert"
  | .scan => "scan"

structure Event where
  time : Timestamp
  action : Action
  actor : Text
  details : Json
deriving Repr

namespace Event

/-- The line of an event, without its end. -/
def line (event : Event) : Text :=
  (Json.ofMembers [("ts",.str event.time.text),("action",Json.ofString event.action.text),
    ("actor",.str event.actor),("details",event.details)]).compact

def actions : List (Text × Action) :=
  [Action.convert,Action.scan].map fun action => (action.text.toList,action)

/-- An action by its name, alone or as the only member of an object. -/
def readAction? : Json → Option Action
  | .str name => actions.lookup name
  | .obj [(name,.null)] => actions.lookup name
  | _ => none

def readTime? : Json → Option Timestamp
  | .str text => Timestamp.read? text
  | _ => none

def readText? : Json → Option Text
  | .str text => some text
  | _ => none

def ofParts? (time action actor details : Json) : Option Event := do
  some ⟨← readTime? time,← readAction? action,← readText? actor,details⟩

/-- Reads an event from an object, in which other members do not count, or from the list of
its four parts. -/
def ofJson? (value : Json) : Option Event :=
  match value.sorted with
  | .obj members => do
    let part := fun (name : String) => members.lookup name.toList
    ofParts? (← part "ts") (← part "action") (← part "actor") (← part "details")
  | .list [time,action,actor,details] => ofParts? time action actor details
  | _ => none

end Event

end StyleHoist
