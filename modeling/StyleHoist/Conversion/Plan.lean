import StyleHoist.Markup.Hoist
import StyleHoist.Sources

/-! Everything that a conversion would write, worked out before anything is
written. The first document that cannot be read or converted ends the plan. -/
namespace StyleHoist

/-- A document after its conversion in memory. -/
structure DocumentPlan where
  path : Path
  name : String
  outcome : Markup.Outcome

structure Conversion where
  documents : List DocumentPlan
  stylesheetPath : Path
  /-- The stylesheet with the new rules. -/
  stylesheet : Text
  /-- The new classes in the order in which they were made. -/
  added : List Binding

namespace Conversion

/-- Converts a document. -/
def planDocument (registry : Registry) (source : Source) : Except Failure (DocumentPlan × Registry) := do
  let text ← source.text
  match Markup.hoist text registry with
  | (.ok outcome,registry) => .ok (⟨source.path,source.name,outcome⟩,registry)
  | (.error (.collision collision),_) => .error (.collision (collision.inSource source.name))
  | (.error .outside,_) => .error .outside

/-- Converts documents one after the other with the classes of those before. -/
def planDocuments (registry : Registry) : List Source → Except Failure (List DocumentPlan × Registry)
  | [] => .ok ([],registry)
  | source :: rest => do
    let (document,registry) ← planDocument registry source
    let (documents,registry) ← planDocuments registry rest
    .ok (document :: documents,registry)

def ofSources (project : Project) (sources : Sources) : Except Failure Conversion := do
  let (documents,registry) ← planDocuments sources.registry sources.documents
  .ok {
    documents := documents
    stylesheetPath := project.stylesheetPath
    stylesheet := Stylesheet.extend sources.stylesheet project.config.blockComment registry.pending
    added := registry.pending }

/-- The plan for what the paths name. -/
def plan (project : Project) (paths : List Path) : Attempt Conversion := do
  let sources ← Sources.gather project paths
  ExceptT.mk (pure (ofSources project sources))

/-- The documents whose text changes. -/
def modified (conversion : Conversion) : List DocumentPlan :=
  conversion.documents.filter (·.outcome.changed)

def total (count : Markup.Outcome → Nat) (conversion : Conversion) : Nat :=
  conversion.documents.foldr (fun document sum => count document.outcome + sum) 0

def reused : Conversion → Nat := total (·.reused)

def stripped : Conversion → Nat := total (·.stripped)

def warned : Conversion → Nat := total (·.warnings.length)

def hasChanges (conversion : Conversion) : Bool :=
  !conversion.modified.isEmpty || !conversion.added.isEmpty

end Conversion

end StyleHoist
