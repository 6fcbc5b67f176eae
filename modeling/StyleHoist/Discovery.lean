import StyleHoist.Project

/-! Which documents a run works on: files that are named, and the files below
named folders, or below the root, that the globs select. -/
namespace StyleHoist.Discovery

open Procedure

/-- What a path argument stands for. -/
inductive Target where
  | document (path : Path)
  | folder (files : List Path)
deriving DecidableEq, Repr

def target (path : Path) : Attempt Target := do
  let kind ← Attempt.ask (request (.kind path)) fun cause =>
    .misuse ("cannot read '" ++ path.display ++ "': " ++ cause.message)
  match kind with
  | .file => pure (.document path)
  | .folder =>
    let files ← Attempt.ask (request (.below path)) (.file "read directory" path)
    pure (.folder files)

/-- The documents of a target. A named file need not be selected. -/
def chosen (project : Project) (selector : Glob.Selector) : Target → List Path
  | .document path => [path]
  | .folder files => files.filter fun path => selector.matches (project.relative path).toList

/-- Drops every path that is the same as the one before it. -/
def dropRepeated : List Path → List Path
  | [] => []
  | path :: rest =>
    match dropRepeated rest with
    | [] => [path]
    | next :: later => if path.same next then path :: later else path :: next :: later

def arrange (paths : List Path) : List Path := dropRepeated (paths.mergeSort Path.atMost)

/-- The documents that paths name, in order and each once. No paths stand for the whole
project. -/
def documents (project : Project) (paths : List Path) : Attempt (List Path) := do
  let selector ← ExceptT.mk (pure project.config.selector)
  let named := if paths = [] then [project.root] else paths.map project.resolve
  let targets ← named.mapM target
  pure (arrange (targets.flatMap (chosen project selector)))

end StyleHoist.Discovery
