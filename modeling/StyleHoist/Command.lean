import StyleHoist.Conversion.Run
import StyleHoist.Inventory

/-! The commands, and a whole invocation from its arguments to its exit code. -/
namespace StyleHoist

def Command.run (identity : Identity) : Command → Attempt Unit
  | .convert arguments => Conversion.run identity arguments
  | .scan arguments => Inventory.run identity arguments

/-- Runs a command, reports its failure and gives the exit code. -/
def Command.invoke (identity : Identity) (command : Command) : Procedure Nat := do
  match ← (command.run identity).toProcedure with
  | .ok () => pure 0
  | .error failure =>
    let _ ← Procedure.request (.warn ("Error: " ++ failure.message ++ "\n"))
    pure failure.exitCode

end StyleHoist
