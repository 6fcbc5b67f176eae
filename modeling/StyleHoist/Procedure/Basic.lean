import StyleHoist.Disk.Operation
import StyleHoist.Timestamp.Basic

/-! Procedures: what a run asks of its surroundings, one request after the
other, each answer deciding how to go on. A procedure does nothing by itself;
it can be carried out on files in memory or on those of a machine. -/
namespace StyleHoist

inductive Request where
  | workingFolder
  | clock
  | kind (path : Path)
  | read (path : Path)
  | realPath (path : Path)
  | below (path : Path)
  | create (path : Path)
  | createNew (path : Path)
  | openEnd (path : Path)
  | write (path : Path) (bytes : ByteArray)
  | makeFolder (path : Path)
  | rename (source target : Path)
  | remove (path : Path)
  | print (text : String)
  | warn (text : String)

/-- What a request is answered with. -/
abbrev Request.Reply : Request → Type
  | .workingFolder => Except FileError Path
  | .clock => Timestamp
  | .kind _ => Except FileError Disk.Kind
  | .read _ => Except FileError ByteArray
  | .realPath _ => Except FileError Path
  | .below _ => Except FileError (List Path)
  | .print _ => Unit
  | .warn _ => Unit
  | _ => Except FileError Unit

inductive Procedure (α : Type) where
  | done (value : α)
  | ask (request : Request) (next : request.Reply → Procedure α)

namespace Procedure

variable {α β : Type}

def bind : Procedure α → (α → Procedure β) → Procedure β
  | .done value, next => next value
  | .ask request later, next => .ask request fun reply => (later reply).bind next

instance : Monad Procedure where
  pure := .done
  bind := bind

/-- The procedure that asks once. -/
def request (request : Request) : Procedure request.Reply := .ask request .done

def print (text : String) : Procedure Unit := request (.print text)

/-- Prints a line. -/
def say (line : String) : Procedure Unit := print (line ++ "\n")

/-- Warns in a line. -/
def warn (line : String) : Procedure Unit := request (.warn ("Warning: " ++ line ++ "\n"))

end Procedure

/-- A procedure that can fail. -/
abbrev Attempt (α : Type) := ExceptT Failure Procedure α

namespace Attempt

variable {α : Type}

/-- Asks for a file operation. If it cannot be done, the attempt fails as told. -/
def ask (answer : Procedure (Except FileError α)) (failure : FileError → Failure) : Attempt α :=
  ExceptT.mk (answer.bind fun
    | .ok value => .done (.ok value)
    | .error cause => .done (.error (failure cause)))

/-- Goes on after a failure. -/
def toProcedure (attempt : Attempt α) : Procedure (Except Failure α) := attempt.run

end Attempt

end StyleHoist
