import StyleHoist.Discovery
import StyleHoist.Stylesheet

/-! What a run reads before it decides anything: the stylesheet, with the classes
that it already has, and the selected documents in order. -/
namespace StyleHoist

/-- A selected document as it was read. -/
structure Source where
  path : Path
  /-- The name under which the document is reported. -/
  name : String
  content : Except FileError Text

/-- The text of a document that could be read. -/
def Source.text (source : Source) : Except Failure Text :=
  match source.content with
  | .ok text => .ok text
  | .error cause => .error (.file "read document" source.path cause)

structure Sources where
  stylesheet : Text
  registry : Registry
  documents : List Source

namespace Sources

open Procedure

/-- The text of a stylesheet. One that does not exist is empty. -/
def readStylesheet (path : Path) : Attempt Text := do
  match ← readText path with
  | .ok text => pure text
  | .error .notFound => pure []
  | .error cause => throw (.file "read stylesheet" path cause)

def seed (project : Project) (stylesheet : Text) : Except Failure Registry :=
  match Stylesheet.seed project.config.classPrefix stylesheet with
  | .ok registry => .ok registry
  | .error collision => .error (.collision collision)

def readDocument (project : Project) (path : Path) : Procedure Source := do
  let content ← readText path
  pure ⟨path,project.relative path,content⟩

/-- Reads what the paths name. The stylesheet is not a document. -/
def gather (project : Project) (paths : List Path) : Attempt Sources := do
  let stylesheet ← readStylesheet project.stylesheetPath
  let registry ← ExceptT.mk (pure (seed project stylesheet))
  let selected ← Discovery.documents project paths
  let documents ← (selected.filter fun path => !path.same project.stylesheetPath).mapM fun path =>
    ExceptT.lift (readDocument project path)
  pure ⟨stylesheet,registry,documents⟩

end Sources

end StyleHoist
