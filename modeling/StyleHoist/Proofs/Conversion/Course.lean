import StyleHoist.Proofs.Sharing.Discipline

/-! The parts of a run, one after the other: the project is opened, the lock is
taken, the plan is made, and then it is followed. -/
namespace StyleHoist.Conversion

open Sharing Procedure Attempt

variable (identity : Identity) (project : Project) (arguments : ConvertArguments)

/-- Says what became of a plan and notes it in the log. -/
def closing (conversion : Conversion) (written : Option Written) : Attempt Unit := do
  if arguments.dryRun then
    sayAll (conversion.summaryLines none ++ ["","Dry-run mode: no changes made."])
  else if written.isSome then sayAll ("" :: conversion.summaryLines written)
  match logOf project arguments with
  | none => pure ()
  | some log => EventLog.record identity log .convert (conversion.details project written arguments.dryRun)

/-- Whether a run makes backups. -/
def backsUp : Bool := project.config.backup && !arguments.noBackup

/-- Reports a plan and, unless it is only to be shown, carries it out. -/
def follow (conversion : Conversion) : Attempt Unit := do
  warnAll (conversion.documents.flatMap warnings)
  sayAll (conversion.planLines (project.relative project.stylesheetPath))
  let written ←
    if arguments.dryRun || !conversion.hasChanges then pure none
    else some <$> commit project conversion (backsUp project arguments)
  closing identity project arguments conversion written

/-- The run in a project. -/
def runIn : Attempt Unit :=
  if arguments.dryRun then runUnlocked identity project arguments
  else
    Lock.holding identity project.stylesheetPath "convert".toList
      (runUnlocked identity project arguments)

theorem runUnlocked_eq : runUnlocked identity project arguments =
    plan project arguments.project.paths >>= follow identity project arguments := rfl

theorem run_eq : run identity arguments =
    Project.ofArguments arguments.project >>= fun project => runIn identity project arguments := rfl

theorem quiet_sayAll {ways : Path → Prop} (lines : List String) : (sayAll lines).toProcedure.Asks (Request.Quiet ways) :=
  asks_forM (fun _ => asks_liftM (asks_request trivial)) lines

theorem quiet_warnAll {ways : Path → Prop} (lines : List String) : (warnAll lines).toProcedure.Asks (Request.Quiet ways) :=
  asks_forM (fun _ => asks_liftM (asks_request trivial)) lines

end StyleHoist.Conversion
