import StyleHoist.Path

/-! The command line: which command is asked for, on which project, and the
ways in which a line of arguments can be wrong. Arguments are taken from left
to right and the first thing that is wrong counts. -/
namespace StyleHoist

/-- What the commands have in common. -/
structure ProjectArguments where
  /-- Documents and directories to work on. -/
  paths : List Path
  root : Option Path
  config : Option Path
  stylesheet : Option Path
  classPrefix : Option Text
deriving DecidableEq, Repr, Inhabited

structure ConvertArguments where
  project : ProjectArguments
  dryRun : Bool
  noBackup : Bool
  log : Option Path
deriving DecidableEq, Repr, Inhabited

inductive Command where
  | convert (arguments : ConvertArguments)
  | scan (project : ProjectArguments)
deriving DecidableEq, Repr

/-- Why no command is run. -/
inductive Usage where
  | help
  | version
  | noCommand
  | unknownCommand
  | unknownArgument
  | repeated
  | badValue
  | surplusValue
deriving DecidableEq, Repr

/-- Asking for help or for the version is no mistake. -/
def Usage.exitCode : Usage → Nat
  | .help => 0
  | .version => 0
  | _ => 2

namespace Arguments

inductive Verb where
  | convert
  | scan
deriving DecidableEq, Repr

def verbs : List (String × Verb) := [("convert",.convert),("scan",.scan)]

/-- Options that take a value. -/
inductive Setting where
  | root
  | config
  | stylesheet
  | classPrefix
  | log
deriving DecidableEq, Repr

/-- Options that take none. -/
inductive Switch where
  | dryRun
  | noBackup
deriving DecidableEq, Repr

inductive Flag where
  | setting (setting : Setting)
  | switch (switch : Switch)
  | usage (usage : Usage)
deriving DecidableEq, Repr

def usageFlags : List (String × Flag) := [("help",.usage .help),("version",.usage .version)]

/-- The flags of a command by name. -/
def flags : Verb → List (String × Flag)
  | .scan =>
    [("root",.setting .root),("config",.setting .config),("stylesheet",.setting .stylesheet),
     ("prefix",.setting .classPrefix)] ++ usageFlags
  | .convert =>
    [("root",.setting .root),("config",.setting .config),("stylesheet",.setting .stylesheet),
     ("prefix",.setting .classPrefix),("log",.setting .log),("dry-run",.switch .dryRun),
     ("no-backup",.switch .noBackup)] ++ usageFlags

/-- How an argument is written. -/
inductive Form where
  | separator
  | long (name : String) (value : Option String)
  | short (first : Char)
  | word
deriving DecidableEq, Repr

def Form.ofString (argument : String) : Form :=
  match argument.toList with
  | ['-','-'] => .separator
  | '-' :: '-' :: rest =>
    let name := rest.takeWhile (· ≠ '=')
    let value := if name.length = rest.length then none
      else some (String.ofList (rest.drop (name.length + 1)))
    .long (String.ofList name) value
  | '-' :: c :: _ => .short c
  | _ => .word

/-- A single letter asks for help or for the version. -/
def shortUsage : Char → Usage
  | 'h' => .help
  | 'V' => .version
  | _ => .unknownArgument

/-- Values that have been read but not accepted yet. -/
inductive Pending where
  | nothing
  | paths (given : List String)
  | setting (setting : Setting) (value : Option String)
deriving DecidableEq, Repr

structure Progress where
  paths : List String
  settings : List (Setting × String)
  switches : List Switch
  pending : Pending
  /-- Whether everything from here on is a path. -/
  trailing : Bool
deriving DecidableEq, Repr

namespace Progress

def start : Progress := ⟨[],[],[],.nothing,false⟩

/-- A path has to have a name. A class prefix may be empty here. -/
def isAcceptable (setting : Setting) (value : String) : Bool :=
  setting = .classPrefix || value ≠ ""

def set (progress : Progress) (setting : Setting) (value : String) : Except Usage Progress :=
  if progress.settings.any (·.1 = setting) then .error .repeated
  else if isAcceptable setting value then
    .ok { progress with settings := (setting,value) :: progress.settings }
  else .error .badValue

/-- Accepts the values that were held back. -/
def settle (progress : Progress) : Except Usage Progress :=
  let settled := { progress with pending := .nothing }
  match progress.pending with
  | .nothing => .ok settled
  | .paths given =>
    if given.contains "" then .error .badValue
    else .ok { settled with paths := settled.paths ++ given }
  | .setting _ none => .error .badValue
  | .setting setting (some value) => settled.set setting value

def addPath (progress : Progress) (path : String) : Except Usage Progress :=
  match progress.pending with
  | .paths given => .ok { progress with pending := .paths (given ++ [path]) }
  | _ => do
    let settled ← progress.settle
    .ok { settled with pending := .paths [path] }

/-- Takes a flag. A setting without a value of its own takes the next word. -/
def addFlag (progress : Progress) (flag : Flag) (value : Option String) : Except Usage Progress :=
  match flag, value with
  | .setting setting, some value => do (← progress.settle).set setting value
  | .setting setting, none => do
    .ok { (← progress.settle) with pending := .setting setting none }
  | _, some _ => .error .surplusValue
  | .usage usage, none => do
    let _ ← progress.settle
    .error usage
  | .switch switch, none => do
    let settled ← progress.settle
    if switch ∈ settled.switches then .error .repeated
    else .ok { settled with switches := switch :: settled.switches }

def addWord (progress : Progress) (word : String) : Except Usage Progress :=
  match progress.pending with
  | .setting setting none => .ok { progress with pending := .setting setting (some word) }
  | _ => progress.addPath word

/-- Takes the next argument of a command. -/
def add (verb : Verb) (progress : Progress) (argument : String) : Except Usage Progress :=
  if progress.trailing then progress.addPath argument
  else
    match Form.ofString argument with
    | .separator => .ok { progress with trailing := true }
    | .long name value =>
      match (flags verb).lookup name with
      | some flag => progress.addFlag flag value
      | none => .error .unknownArgument
    | .short c =>
      match shortUsage c with
      | .unknownArgument => .error .unknownArgument
      | usage => progress.addFlag (.usage usage) none
    | .word => progress.addWord argument

def text? (progress : Progress) (setting : Setting) : Option String := progress.settings.lookup setting

def path? (progress : Progress) (setting : Setting) : Option Path :=
  (progress.text? setting).map Path.ofString

def project (progress : Progress) : ProjectArguments where
  paths := progress.paths.map Path.ofString
  root := progress.path? .root
  config := progress.path? .config
  stylesheet := progress.path? .stylesheet
  classPrefix := (progress.text? .classPrefix).map String.toList

def command (progress : Progress) : Verb → Command
  | .scan => .scan progress.project
  | .convert => .convert ⟨progress.project,.dryRun ∈ progress.switches,
      .noBackup ∈ progress.switches,progress.path? .log⟩

end Progress

/-- Reads the arguments of a command. -/
def readVerb (verb : Verb) (arguments : List String) : Except Usage Command := do
  let progress ← arguments.foldlM (Progress.add verb) Progress.start
  .ok ((← progress.settle).command verb)

def isCommandName (word : String) : Bool := word = "help" || verbs.any (·.1 = word)

/-- What asking for help on something comes to. -/
def helpOn : List String → Usage
  | [] => .help
  | [word] => if isCommandName word then .help else .unknownCommand
  | _ => .unknownCommand

/-- Reads a whole line of arguments. -/
def read (arguments : List String) : Except Usage Command :=
  match arguments with
  | [] => .error .noCommand
  | first :: rest =>
    match Form.ofString first with
    | .separator =>
      match rest with
      | [] => .error .noCommand
      | word :: _ => .error (if isCommandName word then .unknownArgument else .unknownCommand)
    | .long name value =>
      match usageFlags.lookup name, value with
      | some (.usage usage), none => .error usage
      | some _, some _ => .error .surplusValue
      | _, _ => .error .unknownArgument
    | .short c => .error (shortUsage c)
    | .word =>
      if first = "help" then .error (helpOn rest)
      else
        match verbs.lookup first with
        | some verb => readVerb verb rest
        | none => .error .unknownCommand

end Arguments

end StyleHoist
