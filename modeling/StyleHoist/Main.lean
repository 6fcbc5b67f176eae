import StyleHoist.Command
import Std.Time.DateTime.Timestamp

/-! The command line program: procedures carried out on the files of a machine. -/
namespace StyleHoist.Main

/-- The reason that the system gives for a failure. -/
def causeOf : IO.Error → FileError
  | .noFileOrDirectory _ _ _ => .notFound
  | .alreadyExists _ _ _ => .exists
  | .resourceBusy _ _ => .busy
  | .inappropriateType _ code details => known code details
  | .invalidArgument _ code details => known code details
  | .permissionDenied _ code details => known code details
  | .resourceExhausted _ code details => known code details
  | .otherError code details => known code details
  | failure => .other (toString failure)
where
  known (code : UInt32) (details : String) : FileError :=
    match code.toInt32.toInt.natAbs with
    | 2 => .notFound
    | 17 => .exists
    | 20 => .notDirectory
    | 21 => .isDirectory
    | 36 => .nameTooLong
    | 40 => .tooManyLinks
    | 1 => .other "Operation not permitted (os error 1)"
    | 13 => .other "Permission denied (os error 13)"
    | 28 => .other "No space left on device (os error 28)"
    | 30 => .other "Read-only file system (os error 30)"
    | n => .other (details ++ " (os error " ++ toString n ++ ")")

variable {α : Type}

/-- Tries something with a path. -/
def onPath (path : Path) (action : IO.FS.DirEntry → IO α) : IO (Except FileError α) := do
  if path.text = [] then return .error .notFound
  else if path.text.contains '\x00' then return .error .emptyCharacter
  else
    try return .ok (← action ⟨".",path.display⟩)
    catch failure => return .error (causeOf failure)

partial def filesBelow (path : Path) : IO (List Path) := do
  let folder : IO.FS.DirEntry := ⟨".",path.display⟩
  let mut found := #[]
  for entry in ← folder.path.readDir do
    let child := path.join (Path.ofString entry.fileName)
    match (← entry.path.symlinkMetadata).type with
    | .dir => found := found ++ (← filesBelow child).toArray
    | .file => found := found.push child
    | _ => pure ()
  return found.toList

def openAndClose (mode : IO.FS.Mode) (path : Path) : IO (Except FileError Unit) :=
  onPath path fun entry => do
    let _ ← IO.FS.Handle.mk entry.path mode

def now : IO Timestamp := do
  let time := (← Std.Time.Timestamp.now).val
  return ⟨time.second.val,time.nano.val.toNat,false⟩

/-- Answers a request. -/
def perform : (request : Request) → IO request.Reply
  | .workingFolder => do
    try return .ok (Path.ofString (← IO.currentDir).toString)
    catch failure => return .error (causeOf failure)
  | .clock => now
  | .kind path => onPath path fun entry => do
    match (← entry.path.metadata).type with
    | .dir => return .folder
    | _ => return .file
  | .read path => onPath path fun entry => IO.FS.readBinFile entry.path
  | .realPath path => onPath path fun entry => do
    let _ ← entry.path.metadata
    return Path.ofString (← IO.FS.realPath entry.path).toString
  | .below path => onPath path fun _ => filesBelow path
  | .create path => openAndClose .write path
  | .createNew path => openAndClose .writeNew path
  | .openEnd path => openAndClose .append path
  | .write path bytes => onPath path fun entry => do
    let _ ← entry.path.metadata
    let file ← IO.FS.Handle.mk entry.path .append
    file.write bytes
    file.flush
  | .makeFolder path => onPath path fun entry => IO.FS.createDir entry.path
  | .rename source target => onPath source fun entry =>
    IO.FS.rename entry.path (⟨".",target.display⟩ : IO.FS.DirEntry).path
  | .remove path => onPath path fun entry => IO.FS.removeFile entry.path
  | .print text => do
    let output ← IO.getStdout
    output.putStr text
    output.flush
  | .warn text => IO.eprint text

/-- Carries out a procedure. -/
def carryOut : Procedure α → IO α
  | .done value => return value
  | .ask request next => do carryOut (next (← perform request))

/-- The first words of a file of the system. -/
def firstWords (path : String) : IO (List Text) := do
  try return Text.words (← IO.FS.readFile path).toList
  catch _ => return []

/-- User, machine and process. -/
def identity : IO Identity := do
  let named ← IO.getEnv "USER"
  let other ← IO.getEnv "USERNAME"
  let user := ((named.or other).getD "unknown").toList
  let host := (← firstWords "/proc/sys/kernel/hostname").headD "unknown".toList
  let process := (← firstWords "/proc/self/stat").headD []
  return ⟨user ++ '@' :: host,(Literal.natural? 10 process).getD 0⟩

def helpText : String :=
  "Moves inline styles of markup documents into classes of a stylesheet.\n\n" ++
  "Usage: destyle convert [PATH]... [OPTION]...\n" ++
  "       destyle scan [PATH]... [OPTION]...\n\n" ++
  "convert edits the selected documents, scan lists what would be extracted.\n\n" ++
  "Options:\n" ++
  "  --root DIR          project root (default: current directory)\n" ++
  "  --config FILE       config file (default: destyle.yaml in the root)\n" ++
  "  --stylesheet FILE   stylesheet that receives the rules\n" ++
  "  --prefix TEXT       beginning of generated class names\n" ++
  "  --dry-run           show what would change (convert)\n" ++
  "  --no-backup         make no copies of edited documents (convert)\n" ++
  "  --log FILE          append an event to this file (convert)\n"

def usageText : Usage → String
  | .help => helpText
  | .version => "destyle 0.1.0\n"
  | .noCommand => helpText
  | .unknownCommand => "error: unrecognized subcommand\n\n" ++ helpText
  | .unknownArgument => "error: unexpected argument\n\n" ++ helpText
  | .repeated => "error: an option was given more than once\n\n" ++ helpText
  | .badValue => "error: an option or path needs a value\n\n" ++ helpText
  | .surplusValue => "error: an option takes no value\n\n" ++ helpText

end StyleHoist.Main

open StyleHoist in
def main (arguments : List String) : IO UInt32 := do
  match Arguments.read arguments with
  | .error usage =>
    let text := Main.usageText usage
    if usage.exitCode = 0 then IO.print text else IO.eprint text
    return usage.exitCode.toUInt32
  | .ok command =>
    let code ← Main.carryOut (command.invoke (← Main.identity))
    return code.toUInt32
