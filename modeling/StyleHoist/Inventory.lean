import StyleHoist.EventLog
import StyleHoist.Markup.Scan
import StyleHoist.Sources

/-! The inventory of a project: every distinct style, the class that a
conversion would give it, and how often and where it occurs. -/
namespace StyleHoist

/-- A distinct style. -/
structure Inventory.Entry where
  declaration : Declaration
  id : ClassId
  occurrences : Nat
  /-- The names of the documents that it occurs in, each once. -/
  documents : List String
  /-- Whether the stylesheet has its class already. -/
  existing : Bool
deriving DecidableEq, Repr

structure Inventory where
  entries : List Inventory.Entry
  documents : Nat
  /-- The number of attributes that declare nothing. -/
  empty : Nat
  warnings : List String
deriving DecidableEq, Repr

namespace Inventory

def start : Inventory := ⟨[],0,0,[]⟩

def Entry.count (name : String) (entry : Entry) : Entry :=
  { entry with
    occurrences := entry.occurrences + 1
    documents := if name ∈ entry.documents then entry.documents else entry.documents ++ [name] }

/-- Counts an occurrence of a style that has an entry. -/
def count (inventory : Inventory) (name : String) (declaration : Declaration) : Inventory :=
  { inventory with entries := inventory.entries.map fun entry =>
      if entry.declaration = declaration then entry.count name else entry }

/-- The inventory with an entry for a style, and the registry with a class for it. -/
def enter (inventory : Inventory) (registry : Registry) (declaration : Declaration) :
    Except Collision (Inventory × Registry) :=
  if inventory.entries.any (·.declaration = declaration) then .ok (inventory,registry)
  else do
    let existing := (registry.lookup declaration).isSome
    let (allocation,registry) ← registry.allocate declaration
    .ok ({ inventory with
        entries := inventory.entries ++ [⟨declaration,allocation.id,0,[],existing⟩] },registry)

/-- Takes in one item of the scan of a document. -/
def add (name : String) (text : Text) (state : Inventory × Registry) (item : Markup.Item) :
    Except Failure (Inventory × Registry) := do
  let (inventory,registry) := state
  match item with
  | .warning found =>
    .ok ({ inventory with warnings := inventory.warnings ++ [name ++ ":" ++ found.text] },registry)
  | .style attr =>
    match Text.slice? text attr.value with
    | none => .error .outside
    | some value =>
      let declaration := Declaration.normalize value
      if declaration.isEmpty then .ok ({ inventory with empty := inventory.empty + 1 },registry)
      else
        match inventory.enter registry declaration with
        | .error collision => .error (.collision (collision.inSource name))
        | .ok (inventory,registry) => .ok (inventory.count name declaration,registry)

def addDocument (state : Inventory × Registry) (source : Source) : Except Failure (Inventory × Registry) := do
  let text ← source.text
  let (inventory,registry) := state
  let inventory := { inventory with documents := inventory.documents + 1 }
  (Markup.scan text).foldlM (add source.name text) (inventory,registry)

/-- More frequent entries first, then those with the lesser class name. -/
def Entry.precedes (first second : Entry) : Bool :=
  second.occurrences < first.occurrences ||
    (first.occurrences = second.occurrences && Text.atMost first.id.text second.id.text)

def ofSources (sources : Sources) : Except Failure Inventory := do
  let (inventory,_) ← sources.documents.foldlM addDocument (start,sources.registry)
  .ok { inventory with entries := inventory.entries.mergeSort Entry.precedes }

/-- The inventory of what the paths name. -/
def take (project : Project) (paths : List Path) : Attempt Inventory := do
  let sources ← Sources.gather project paths
  ExceptT.mk (pure (ofSources sources))

def entryLines (entry : Entry) : List String :=
  ["  " ++ String.ofList entry.id.text ++ (if entry.existing then " [exists] " else " [new] ") ++
     toString entry.occurrences ++ "x in " ++ toString entry.documents.length ++ " document(s)",
   "    " ++ String.ofList entry.declaration.text]

def lines (inventory : Inventory) : List String :=
  let documents := toString inventory.documents ++ " document(s)"
  let listing :=
    if inventory.entries.isEmpty then ["No inline styles found in " ++ documents ++ "."]
    else
      let total := inventory.entries.foldr (fun entry sum => entry.occurrences + sum) 0
      ["Inline styles (" ++ toString inventory.entries.length ++ " distinct, " ++ toString total ++
        " occurrence(s) in " ++ documents ++ "):",""] ++ inventory.entries.flatMap entryLines
  listing ++ if inventory.empty = 0 then []
    else ["","Empty style attributes: " ++ toString inventory.empty]

/-- The figures of a run for the log. -/
def details (inventory : Inventory) : Json :=
  Json.ofMembers
    [("documents_scanned",Json.ofNat inventory.documents),
     ("distinct",Json.ofNat inventory.entries.length),
     ("new",Json.ofNat (inventory.entries.filter (!·.existing)).length),
     ("warnings",Json.ofNat inventory.warnings.length)]

open Procedure in
def run (identity : Identity) (arguments : ProjectArguments) : Attempt Unit := do
  let project ← Project.ofArguments arguments
  let inventory ← take project arguments.paths
  inventory.warnings.forM fun line => ExceptT.lift (warn line)
  inventory.lines.forM fun line => ExceptT.lift (say line)
  match project.eventsLogPath with
  | none => pure ()
  | some log => EventLog.record identity log .scan inventory.details

end Inventory

end StyleHoist
