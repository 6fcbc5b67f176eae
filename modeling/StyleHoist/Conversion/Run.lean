import StyleHoist.Conversion.Report
import StyleHoist.EventLog

/-! A conversion run. The lock is held from before the stylesheet is read, the
stylesheet is written before any document that needs its new rules, and each
document is backed up before it is replaced. -/
namespace StyleHoist.Conversion

open Procedure

/-- Writes the stylesheet, if it has new rules. -/
def commitStylesheet (project : Project) (conversion : Conversion) : Attempt Bool := do
  if conversion.added.isEmpty then pure false
  else
    Attempt.replace conversion.stylesheetPath conversion.stylesheet
    say ("Appended " ++ toString conversion.added.length ++ " rule(s) to " ++
      project.relative conversion.stylesheetPath)
    pure true

/-- Writes a document, after its backup if there is to be one. -/
def commitDocument (project : Project) (backup : Bool) (document : DocumentPlan) :
    Attempt (Option Path) := do
  let made ← if backup then Attempt.backUp document.path project.config.backupSuffix else pure none
  Attempt.replace document.path document.outcome.text
  say ("Rewrote: " ++ document.name)
  pure made

def commit (project : Project) (conversion : Conversion) (backup : Bool) : Attempt Written := do
  let stylesheet ← commitStylesheet project conversion
  let made ← conversion.modified.mapM (commitDocument project backup)
  pure ⟨made.length,made.filterMap id,stylesheet⟩

def sayAll (lines : List String) : Attempt Unit := lines.forM fun line => ExceptT.lift (say line)

def warnAll (lines : List String) : Attempt Unit := lines.forM fun line => ExceptT.lift (warn line)

/-- Plans, reports and, unless it is only to be shown, carries out. -/
def runUnlocked (identity : Identity) (project : Project) (arguments : ConvertArguments) : Attempt Unit := do
  let conversion ← plan project arguments.project.paths
  warnAll (conversion.documents.flatMap warnings)
  sayAll (conversion.planLines (project.relative project.stylesheetPath))
  let written ←
    if arguments.dryRun || !conversion.hasChanges then pure none
    else some <$> commit project conversion (project.config.backup && !arguments.noBackup)
  if arguments.dryRun then
    sayAll (conversion.summaryLines none ++ ["","Dry-run mode: no changes made."])
  else if written.isSome then sayAll ("" :: conversion.summaryLines written)
  match (arguments.log.map project.resolve).or project.eventsLogPath with
  | none => pure ()
  | some log =>
    EventLog.record identity log .convert (conversion.details project written arguments.dryRun)

def run (identity : Identity) (arguments : ConvertArguments) : Attempt Unit := do
  let project ← Project.ofArguments arguments.project
  if arguments.dryRun then runUnlocked identity project arguments
  else
    Lock.holding identity project.stylesheetPath "convert".toList
      (runUnlocked identity project arguments)

end StyleHoist.Conversion
