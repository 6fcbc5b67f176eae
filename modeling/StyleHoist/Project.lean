import StyleHoist.Arguments
import StyleHoist.Config
import StyleHoist.Procedure.Files

/-! A project: the folder that documents, stylesheet and log are in, and the
settings that hold for it. -/
namespace StyleHoist

structure Project where
  /-- The folder, as an absolute path without links. -/
  root : Path
  /-- The file of the settings, which need not exist. -/
  configPath : Path
  config : Config
deriving Inhabited

namespace Project

open Procedure

def configName : Path := Path.ofString "destyle.yaml"

/-- A path of the project, relative to the root unless it is absolute. -/
def resolve (project : Project) (path : Path) : Path := project.root.join path

def stylesheetPath (project : Project) : Path := project.resolve ⟨project.config.stylesheet⟩

def eventsLogPath (project : Project) : Option Path :=
  project.config.eventsLog.map fun text => project.resolve ⟨text⟩

/-- How a path is shown: from the root on, with forward slashes. -/
def relative (project : Project) (path : Path) : String :=
  let shown := (path.below? project.root).getD path
  String.ofList (shown.text.map fun c => if c = '\\' then '/' else c)

/-- Reads settings from a file that has to exist. -/
def load (path : Path) : Attempt Config := do
  let text ← Attempt.ask (readText path) fun cause =>
    .misuse ("failed to read config file '" ++ path.display ++ "': " ++ cause.message)
  ExceptT.mk (pure (Config.ofText text))

/-- The project in a folder. Without a file of settings the default ones hold. -/
def openAt (folder : Path) : Attempt Project := do
  let root ← Attempt.ask (request (.realPath folder)) fun cause =>
    .misuse ("project root '" ++ folder.display ++ "' is not accessible: " ++ cause.message)
  if ← isFolder? root then
    let path := root.join configName
    let config ← if ← exists? path then load path else pure Config.default
    pure ⟨root,path,config⟩
  else throw (.misuse ("project root '" ++ root.display ++ "' is not a directory"))

def workingFolder : Attempt Path :=
  Attempt.ask (request .workingFolder) fun cause =>
    .misuse ("failed to get current working directory: " ++ cause.message)

/-- The project that arguments name, with the settings that they override. -/
def ofArguments (arguments : ProjectArguments) : Attempt Project := do
  let folder ← match arguments.root with
    | some root => pure root
    | none => workingFolder
  let project ← openAt folder
  let project ← match arguments.config with
    | some path => do
      let path := project.resolve path
      let config ← load path
      pure { project with configPath := path, config := config }
    | none => pure project
  let config := { project.config with
    stylesheet := (arguments.stylesheet.map Path.text).getD project.config.stylesheet
    classPrefix := arguments.classPrefix.getD project.config.classPrefix }
  match config.validate with
  | .ok () => pure { project with config := config }
  | .error failure => throw failure

end Project

end StyleHoist
