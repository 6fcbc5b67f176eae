import StyleHoist.Proofs.Conversion.Planning
import StyleHoist.Proofs.Conversion.Reading
import StyleHoist.Proofs.Sharing.Phase

/-! A run keeps to the protocol. It takes the lock first, touches the stylesheet
only while it has the lock, and gives the lock back however it ends. -/
namespace StyleHoist

open Procedure Attempt Sharing

namespace Sharing

variable {α : Type} {told : Reading} {project : Project} {base : Place} {identity : Identity}

/-- A document can be rewritten and backed up without touching what the runs share. -/
structure Harmless (project : Project) (base : Place) (path : Path) : Prop where
  own : path.Clear (Guarded project.stylesheetPath base) base
  backup : ¬ Guarded project.stylesheetPath base ((backupPath path project.config.backupSuffix).place base)

/-- An answer moves a run on. What is read beside the stylesheet is harmless. -/
def Admits (told : Reading) (project : Project) (base : Place) (phase : Phase) (request : Request)
    (reply : request.Reply) (next : Phase) : Prop :=
  next = phase.after project.stylesheetPath request reply ∧
    (phase.took = true → ∀ path content,
      (⟨request,reply⟩ : (request : Request) × request.Reply) = ⟨.read path,content⟩ →
        told path content ∧ (path.same project.stylesheetPath = false → Harmless project base path))

abbrev Obeys (told : Reading) (project : Project) (base : Place) (procedure : Procedure α) (phase : Phase)
    (ends : α → Phase → Prop) : Prop :=
  procedure.Ensures (Admits told project base) (Phase.Allows told project base) phase ends

/-- The stylesheet has been read. -/
def Phase.Read (css : Text) (phase : Phase) : Prop := ∃ draft written, phase = .holding (some css) draft written

variable (apart : ∀ folder, (Lock.pathFor project.stylesheetPath).Above folder →
  ¬ Guarded project.stylesheetPath base (folder.place base))

/-- What is planned for a stylesheet that has been read. -/
structure Ready (told : Reading) (project : Project) (base : Place) (css : Text) (conversion : Conversion) : Prop where
  path : conversion.stylesheetPath = project.stylesheetPath
  text : conversion.stylesheet = Stylesheet.extend css project.config.blockComment conversion.added
  planned : conversion.added ≠ [] → Planned told project css conversion.added
  harmless : ∀ document ∈ conversion.documents, Harmless project base document.path

theorem spares_sayAll (guarded : Place → Prop) (lines : List String) :
    (Conversion.sayAll lines).toProcedure.Asks (Request.Spares guarded base) :=
  asks_forM (fun line => (ensures_lift _ _).mpr (asks_say line)) lines

theorem spares_warnAll (guarded : Place → Prop) (lines : List String) :
    (Conversion.warnAll lines).toProcedure.Asks (Request.Spares guarded base) :=
  asks_forM (fun line => (ensures_lift _ _).mpr (asks_warn line)) lines

/-- The log of a run, if it has one. -/
def logOf (project : Project) (arguments : ConvertArguments) : Option Path :=
  (arguments.log.map project.resolve).or project.eventsLogPath

section

theorem spares_note {guarded : Place → Prop} {arguments : ConvertArguments}
    (logs : ∀ log, logOf project arguments = some log → ¬ guarded (log.place base) ∧
      ∀ folder, log.Above folder → ¬ guarded (folder.place base)) (details : Json) :
    Procedure.Asks (Request.Spares guarded base)
      (match logOf project arguments with
        | none => pure ()
        | some log => EventLog.record identity log .convert details : Attempt Unit).run := by
  split
  next => trivial
  next log there =>
    obtain ⟨own,above⟩ := logs log there
    exact EventLog.spares_record identity _ _ own above

variable {arguments : ConvertArguments}
  (ways : ∀ folder, project.stylesheetPath.Above folder → ¬ Guarded project.stylesheetPath base (folder.place base))
  (logs : ∀ log, logOf project arguments = some log → ¬ Guarded project.stylesheetPath base (log.place base) ∧
    ∀ folder, log.Above folder → ¬ Guarded project.stylesheetPath base (folder.place base))

include logs

theorem spares_closing {conversion : Conversion} (written : Option Conversion.Written) :
    Procedure.Asks (Request.Spares (Guarded project.stylesheetPath base) base) (do
      if arguments.dryRun then
        Conversion.sayAll (conversion.summaryLines none ++ ["","Dry-run mode: no changes made."])
      else if written.isSome then Conversion.sayAll ("" :: conversion.summaryLines written)
      match logOf project arguments with
      | none => pure ()
      | some log =>
        EventLog.record identity log .convert (conversion.details project written arguments.dryRun) :
          Attempt Unit).run := by
  have noted := @spares_note project base identity _ arguments logs (conversion.details project written arguments.dryRun)
  have said : ∀ lines, Procedure.Asks (Request.Spares (Guarded project.stylesheetPath base) base)
      (Conversion.sayAll lines >>= fun _ => match logOf project arguments with
        | none => pure ()
        | some log =>
          EventLog.record identity log .convert (conversion.details project written arguments.dryRun) :
            Attempt Unit).run := by
    intro lines
    refine (Attempt.ensures_bind _ _ _).mpr ((spares_sayAll _ lines).mono fun done _ _ => ?_)
    cases done with
    | error failure => trivial
    | ok done => exact noted
  by_cases dry : arguments.dryRun = true
  · simpa only [dry,if_true] using said _
  · rw [Bool.not_eq_true] at dry
    cases written with
    | none => simpa only [dry,Option.isSome_none,Bool.false_eq_true,if_false] using noted
    | some written => simpa only [dry,Option.isSome_some,Bool.false_eq_true,if_false,if_true] using said _

include ways

end

end Sharing

end StyleHoist
