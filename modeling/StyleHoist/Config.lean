import StyleHoist.Failure
import StyleHoist.Glob.Match
import StyleHoist.Stylesheet
import StyleHoist.Yaml.Printer
import StyleHoist.Yaml.Value

/-! The settings of a project, read from a YAML mapping. Every setting has a
default, settings of other names are kept but have no effect, and settings that
cannot work are refused. -/
namespace StyleHoist

structure Config where
  /-- The stylesheet that receives the generated rules. -/
  stylesheet : Text
  /-- Globs that select documents below a directory. -/
  includes : List Text
  /-- Globs that leave documents out again. -/
  excludes : List Text
  /-- The text that every generated class name begins with. -/
  classPrefix : Text
  /-- The comment above a block of generated rules. -/
  blockComment : Text
  /-- Whether a document is copied before it is first changed. -/
  backup : Bool
  /-- What the name of such a copy ends in, behind a period. -/
  backupSuffix : Text
  eventsLog : Option Text
  /-- Settings of other names, sorted by name. -/
  extra : List (Text × Yaml.Value)
deriving Repr, Inhabited

namespace Config

def default : Config where
  stylesheet := "css/styles.css".toList
  includes := ["**/*.html".toList]
  excludes := ["**/*.bak".toList,"**/node_modules/**".toList,"**/.git/**".toList]
  classPrefix := ClassId.defaultClassPrefix
  blockComment := Stylesheet.defaultComment
  backup := true
  backupSuffix := "bak".toList
  eventsLog := none
  extra := []

/-- The settings that have a place of their own. -/
inductive Field where
  | stylesheet
  | includes
  | excludes
  | classPrefix
  | blockComment
  | backup
  | backupSuffix
  | eventsLog
deriving DecidableEq, Repr

def fieldNames : List (String × Field) :=
  [("stylesheet",.stylesheet),("include",.includes),("exclude",.excludes),
   ("class_prefix",.classPrefix),("block_comment",.blockComment),("backup",.backup),
   ("backup_suffix",.backupSuffix),("events_log",.eventsLog)]

def isClassStart (c : Char) : Bool := c.isAlpha || c = '_' || c = '-'

def isClassChar (c : Char) : Bool := c.isAlphanum || c = '_' || c = '-'

/-- Whether class names can begin with a text. -/
def isValidPrefix (text : Text) : Bool :=
  match text with
  | [] => false
  | c :: rest => isClassStart c && rest.all isClassChar

/-- Whether a comment would end inside a text. -/
def closesComment : Text → Bool
  | '*' :: '/' :: _ => true
  | _ :: rest => closesComment rest
  | [] => false

/-- What is wrong with a setting. -/
inductive Flaw where
  | classPrefix (given : Text)
  | noInclude
  | glob (key : String) (given : Text) (fault : Glob.Fault)
  | noSuffix
  | suffixPeriod (given : Text)
  | comment
deriving DecidableEq, Repr

def globMessage (key : String) (given : Text) (fault : Glob.Fault) : String :=
  "invalid glob in " ++ key ++ ": '" ++ String.ofList given ++ "' - " ++ fault.message (String.ofList given)

def Flaw.message : Flaw → String
  | .classPrefix given => "class_prefix '" ++ String.ofList given ++
      "' is not a valid CSS class name start (use letters, digits, '-' or '_', not starting with a digit)"
  | .noInclude => "include must list at least one glob"
  | .glob key given fault => globMessage key given fault
  | .noSuffix => "backup_suffix must be non-empty"
  | .suffixPeriod given => "backup_suffix must not have a leading dot (found '" ++ String.ofList given ++
      "'). Use '" ++ String.ofList (given.dropWhile (· = '.')) ++ "' instead."
  | .comment => "block_comment must not contain '*/'"

/-- The first glob of a list that is ill formed. -/
def globFlaw? (key : String) (globs : List Text) : Option Flaw :=
  globs.findSome? fun glob =>
    match Glob.parse (String.ofList glob) with
    | .ok _ => none
    | .error fault => some (.glob key glob fault)

/-- The first flaw of the settings. -/
def flaw? (config : Config) : Option Flaw :=
  if !isValidPrefix config.classPrefix then some (.classPrefix config.classPrefix)
  else if config.includes = [] then some .noInclude
  else
    match (globFlaw? "include" config.includes).or (globFlaw? "exclude" config.excludes) with
    | some flaw => some flaw
    | none =>
      if config.backupSuffix = [] then some .noSuffix
      else if config.backupSuffix.head? = some '.' then some (.suffixPeriod config.backupSuffix)
      else if closesComment config.blockComment then some .comment
      else none

def validate (config : Config) : Except Failure Unit :=
  match config.flaw? with
  | none => .ok ()
  | some flaw => .error (.misuse ("config validation failed: " ++ flaw.message))

/-- The selection of documents that the globs make. -/
def selector (config : Config) : Except Failure Glob.Selector := do
  let compile := fun key (globs : List Text) => do
    let patterns ← globs.mapM fun glob =>
      match Glob.parse (String.ofList glob) with
      | .ok pattern => .ok pattern
      | .error fault => .error (Failure.misuse (globMessage key glob fault))
    match Glob.setFault? patterns with
    | none => .ok patterns
    | some fault => .error (Failure.misuse ("failed to build " ++ key ++ " globs: " ++ fault.message))
  let included ← compile "include" config.includes
  let excluded ← compile "exclude" config.excludes
  .ok ⟨included,excluded⟩

/-- Keeps a setting of another name. The last one of a name counts. -/
def keep (extra : List (Text × Yaml.Value)) (name : Text) (value : Yaml.Value) :
    List (Text × Yaml.Value) :=
  match extra with
  | [] => [(name,value)]
  | (other,held) :: rest =>
    if other = name then (name,value) :: rest
    else if Text.atMost name other then (name,value) :: (other,held) :: rest
    else (other,held) :: keep rest name value

/-- Reads a setting of a known name. -/
def set (document : Yaml.Document) (config : Config) (field : Field) (node : Yaml.Node) :
    Yaml.Document.Reading Config := fun followed => do
  match field with
  | .stylesheet =>
    let (text,followed) ← document.text node followed
    .ok ({ config with stylesheet := text },followed)
  | .includes =>
    let (texts,followed) ← document.texts node followed
    .ok ({ config with includes := texts },followed)
  | .excludes =>
    let (texts,followed) ← document.texts node followed
    .ok ({ config with excludes := texts },followed)
  | .classPrefix =>
    let (text,followed) ← document.text node followed
    .ok ({ config with classPrefix := text },followed)
  | .blockComment =>
    let (text,followed) ← document.text node followed
    .ok ({ config with blockComment := text },followed)
  | .backup =>
    let (value,followed) ← document.bool node followed
    .ok ({ config with backup := value },followed)
  | .backupSuffix =>
    let (text,followed) ← document.text node followed
    .ok ({ config with backupSuffix := text },followed)
  | .eventsLog =>
    let (text,followed) ← document.text? node followed
    .ok ({ config with eventsLog := text },followed)

/-- Reads settings one by one. No known one may be given twice. -/
def setAll (document : Yaml.Document) (config : Config) (seen : List Field) :
    List (Yaml.Node × Yaml.Node) → Yaml.Document.Reading Config
  | [], followed => .ok (config,followed)
  | (key,node) :: rest, followed => do
    let (name,followed) ← document.text key followed
    match fieldNames.lookup (String.ofList name) with
    | some field =>
      if field ∈ seen then Yaml.fail "duplicate field"
      else do
        let (config,followed) ← config.set document field node followed
        setAll document config (field :: seen) rest followed
    | none => do
      let (value,followed) ← document.value (Yaml.Document.depthLimit - 1) node followed
      setAll document { config with extra := keep config.extra name value } seen rest followed

/-- The settings that a YAML text gives. -/
def read (text : Text) : Except Yaml.Fault Config := do
  match ← Yaml.Node.read? text with
  | none => .ok default
  | some root =>
    let document := Yaml.Document.ofNode root
    let (entries,followed) ← document.entries 0
    let (config,_) ← setAll document default [] entries followed
    .ok config

/-- The settings of a configuration file, if they can be read and can work. -/
def ofText (text : Text) : Except Failure Config :=
  if text.all StyleHoist.isBlank then .ok default
  else
    match read text with
    | .error fault => .error (.misuse ("failed to parse config YAML: " ++ fault.problem))
    | .ok config => (config.validate).map fun _ => config

/-- The settings that have a place of their own, as YAML. -/
def render (config : Config) : Text :=
  Yaml.entry "stylesheet" config.stylesheet ++
    Yaml.listEntry "include" config.includes ++
    Yaml.listEntry "exclude" config.excludes ++
    Yaml.entry "class_prefix" config.classPrefix ++
    Yaml.entry "block_comment" config.blockComment ++
    (if config.backup then "backup: true\n" else "backup: false\n").toList ++
    Yaml.entry "backup_suffix" config.backupSuffix ++
    match config.eventsLog with
    | none => []
    | some path => Yaml.entry "events_log" path

end Config

end StyleHoist
