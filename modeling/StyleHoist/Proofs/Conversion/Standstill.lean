import StyleHoist.Proofs.Conversion.Commit
import StyleHoist.Proofs.Conversion.Course
import StyleHoist.Proofs.Conversion.Opening
import StyleHoist.Proofs.Procedure.Paving

/-! A run that is only to be shown, or that comes to an end before its plan is
made, writes nothing but a line of the log, whatever goes wrong. -/
namespace StyleHoist

open Procedure Attempt

variable {σ : Type} {carried : Request → Prop} {world : World} {ways : Path → Prop}

/-- Once the file of a lock is made it stays until it is removed. -/
theorem World.Locked.noted {lock : Path} {middle later : World} (locked : world.Locked lock middle)
    {bytes : ByteArray} {reply : Except FileError Unit} (answered : middle.Answers (.write lock bytes) reply later) :
    world.Locked lock later := by
  obtain ⟨first,parent,name,held,paved,found,vacant,base,put⟩ := locked
  rcases World.answers_write_part answered with still | ⟨part,rest,-,same,written⟩
  · exact .still ⟨first,parent,name,held,paved,found,vacant,base,put⟩ still
  · obtain ⟨spot,old,reached,-,new⟩ := Disk.write_update written
    have onwards := (Disk.WaysKept.of_update vacant (by nofun) put).spot_ok found
    rw [← base] at onwards
    have follows := Disk.spot_follow (fun _ => by simp [put,Disk.Spot.place]) onwards
    rw [follows] at reached
    cases reached
    refine ⟨first,parent,name,old ++ part,paved,found,vacant,same.trans base,?_⟩
    rw [new,put]
    exact Function.update_idem ..

theorem Procedure.ensures_removal {lock : Path} {middle : World} (removed : carried (.remove lock))
    (locked : world.Locked lock middle) :
    (request (.remove lock)).Ensures (World.Obliges carried) (fun _ _ => True) middle fun reply later =>
      reply = .ok () ∧ world.Paved lock.Above later := by
  refine .request trivial fun reply later answered => ?_
  obtain ⟨last,performed,paved⟩ := locked.removed
  cases (answered.2 removed).trans performed
  exact ⟨rfl,paved⟩

theorem Lock.ensures_release {lock : Path} {middle : World} (removed : carried (.remove lock))
    (locked : world.Locked lock middle) :
    (release lock).Ensures (World.Obliges carried) (fun _ _ => True) middle fun _ later => world.Paved lock.Above later := by
  refine (Procedure.ensures_bind _ _ _).mpr ((ensures_removal removed locked).mono ?_)
  rintro reply later ⟨rfl,paved⟩
  exact paved

theorem Lock.ensures_acquire (identity : Identity) (stylesheet : Path) (action : Text)
    (removed : carried (.remove (pathFor stylesheet))) :
    Attempt.Ensures (World.Obliges carried) (fun _ _ => True) (acquire identity stylesheet action) world
      (continues (fun lock later => lock = pathFor stylesheet ∧ world.Locked (pathFor stylesheet) later)
        fun _ later => world.Paved (pathFor stylesheet).Above later) := by
  rw [acquire]
  simp only [Attempt.ensures_bind,ensures_liftM]
  refine .request trivial fun now first answered => ?_
  have start : world.Still first := World.answers_still .clock trivial answered.1
  refine (asks_ensureFolderOf _).paved.mono fun made middle paved => ?_
  replace paved := start.paved.trans paved
  cases made with
  | error failure => exact paved
  | ok done =>
    rw [continues_ok]
    refine .request trivial fun taken second answered => ?_
    rcases World.locked_of_answers paved answered.1 with ⟨⟨cause,rfl⟩,paved⟩ | ⟨rfl,locked⟩
    · rw [continues_ok]
      split
      next =>
        simp only [Attempt.ensures_bind,ensures_liftM]
        exact (asks_holder _).still.mono fun report last still => paved.trans still.paved
      next => exact paved
      next same => cases same
    · simp only [continues_ok,Attempt.ensures_bind,ensures_liftM]
      refine .request trivial fun noted third answered => ?_
      replace locked := locked.noted answered.1
      cases noted with
      | ok done => exact ⟨rfl,locked⟩
      | error cause =>
        simp only [continues_ok,Attempt.ensures_bind,ensures_liftM]
        exact (ensures_removal removed locked).mono fun _ _ => And.right

theorem EventLog.ensures_append (log : Path) (event : Event) :
    Attempt.Ensures (World.Obliges carried) (fun _ _ => True) (append log event) world fun _ later =>
      world.Paved log.Above later ∨ world.Noted log (encodeText (event.line ++ ['\n'])) later := by
  rw [append]
  simp only [Attempt.ensures_bind,ensures_ask]
  refine (asks_ensureFolderOf log).paved.mono fun made middle paved => ?_
  cases made with
  | error failure => exact .inl paved
  | ok done =>
    rw [continues_ok]
    refine .request trivial fun opened first answered => ?_
    have ready := World.opened_of_answers paved answered.1
    cases opened with
    | error cause => exact ready.paved_or_noted _
    | ok done =>
      rw [Except.mapError,continues_ok]
      refine .request trivial fun written last answered => ?_
      rcases World.answers_write_part answered.1 with still | ⟨part,rest,whole,base,put⟩
      · exact (ready.still still).paved_or_noted _
      · exact .inr (ready.noted whole base put)


namespace Conversion

open Sharing

/-- The requests that give locks back. -/
def Releases (request : Request) : Prop := ∃ stylesheet, request = .remove (Lock.pathFor stylesheet)

/-- A run in a project does not get as far as a plan. -/
def Stops (machine : Machine Releases σ) (identity : Identity) (project : Project) (paths : List Path)
    (opened : World × σ) : Prop :=
  match machine.run (Lock.acquire identity project.stylesheetPath "convert".toList).toProcedure opened with
  | (.error _,_) => True
  | (.ok _,locked) => ∃ failure later, machine.run (plan project paths).toProcedure locked = (.error failure,later)

/-- The line of the log for a plan that is only shown. -/
def dryLine (identity : Identity) (project : Project) (conversion : Conversion) (time : Timestamp) : ByteArray :=
  encodeText (Event.line ⟨time,.convert,identity.actor,(conversion.details project none true).sorted⟩ ++ ['\n'])

section

variable {identity : Identity} {project : Project} {arguments : ConvertArguments} {conversion : Conversion}

/-- What a run leaves of the files that only shows its plan. -/
def Shown (identity : Identity) (project : Project) (arguments : ConvertArguments) (conversion : Conversion)
    (world later : World) : Prop :=
  world.Still later ∨ ∃ log time, logOf project arguments = some log ∧
    (world.Paved log.Above later ∨ world.Noted log (dryLine identity project conversion time) later)

theorem ensures_closing_dry (dry : arguments.dryRun = true) :
    Attempt.Ensures (World.Obliges carried) (fun _ _ => True) (closing identity project arguments conversion none) world
      fun _ later => Shown identity project arguments conversion world later := by
  rw [closing,if_pos dry]
  refine (Attempt.ensures_bind _ _ _).mpr ((quiet_sayAll _).still.mono fun said first still => ?_)
  cases said with
  | error failure => exact .inl still
  | ok done =>
    rw [continues_ok]
    cases noted : logOf project arguments with
    | none => exact .inl still
    | some log =>
      dsimp only
      rw [EventLog.record]
      refine (Attempt.ensures_bind _ _ _).mpr ((ensures_liftM _ _).mpr (.request trivial fun time second answered => ?_))
      have next := still.trans (World.answers_still .clock trivial answered.1)
      refine (EventLog.ensures_append log _).mono fun _ later ends => .inr ⟨log,time,noted,?_⟩
      rw [dry] at ends
      exact ends.imp next.paved.trans (World.Noted.since next)

theorem Shown.since {middle later : World} (still : world.Still middle)
    (shown : Shown identity project arguments conversion middle later) :
    Shown identity project arguments conversion world later := by
  rcases shown with same | ⟨log,time,noted,ends⟩
  · exact .inl (still.trans same)
  · exact .inr ⟨log,time,noted,ends.imp still.paved.trans (World.Noted.since still)⟩

theorem ensures_follow_dry (dry : arguments.dryRun = true) :
    Attempt.Ensures (World.Obliges carried) (fun _ _ => True) (follow identity project arguments conversion) world
      fun _ later => Shown identity project arguments conversion world later := by
  rw [follow]
  refine (Attempt.ensures_bind _ _ _).mpr ((quiet_warnAll _).still.mono fun warned first still => ?_)
  cases warned with
  | error failure => exact .inl still
  | ok done =>
    refine (Attempt.ensures_bind _ _ _).mpr ((quiet_sayAll _).still.mono fun said second still' => ?_)
    replace still := still.trans still'
    cases said with
    | error failure => exact .inl still
    | ok done =>
      simp only [continues_ok,dry,Bool.true_or,if_true,pure_bind]
      exact (ensures_closing_dry dry).mono fun _ later ends => ends.since still

end

section

variable (machine : Machine Releases σ) {identity : Identity} {project : Project} {arguments : ConvertArguments}
  {opened : World × σ}

theorem paved_of_stops (stops : Stops machine identity project arguments.project.paths opened) :
    opened.1.Paved (Lock.pathFor project.stylesheetPath).Above
      (machine.run (Lock.holding identity project.stylesheetPath "convert".toList
        (runUnlocked identity project arguments)).toProcedure opened).2.1 := by
  have taking := machine.attempt_ensures opened (Lock.ensures_acquire identity project.stylesheetPath "convert".toList ⟨_,rfl⟩)
  rw [Stops] at stops
  rw [Lock.holding]
  rcases taken : machine.run (Lock.acquire identity project.stylesheetPath "convert".toList).toProcedure opened with
    ⟨failure | lock,locked⟩
  · rw [taken] at taking
    rw [machine.run_bind_error _ taken]
    exact taking
  · rw [taken] at taking stops
    obtain ⟨rfl,held⟩ := taking
    obtain ⟨failure,later,failed⟩ := stops
    have planning := machine.ensures locked (asks_plan project arguments.project.paths).still
    rw [failed] at planning
    have ended : machine.run (runUnlocked identity project arguments).toProcedure locked = (.error failure,later) := by
      rw [runUnlocked_eq,machine.run_bind_error _ failed]
    have released := machine.ensures later (Lock.ensures_release ⟨_,rfl⟩ (held.still planning))
    have given := machine.run_lift (Lock.release (Lock.pathFor project.stylesheetPath)) later
    rw [machine.run_bind_ok _ taken,machine.run_bind_ok _ (machine.run_lift _ _),ended]
    exact (machine.run_bind_ok _ given).symm ▸ released

/-- A run that is only to be shown writes no more than a line of the log, for a plan it has shown. -/
theorem shown_of_dryRun (dry : arguments.dryRun = true) (final : World)
    (ended : final = (machine.run (runUnlocked identity project arguments).toProcedure opened).2.1) :
    opened.1.Still final ∨ ∃ conversion planned,
      machine.run (plan project arguments.project.paths).toProcedure opened = (.ok conversion,planned) ∧
        Shown identity project arguments conversion opened.1 final := by
  have planning := machine.ensures opened (asks_plan project arguments.project.paths).still
  rw [ended,runUnlocked_eq]
  rcases made : machine.run (plan project arguments.project.paths).toProcedure opened with ⟨failure | conversion,planned⟩
  · rw [made] at planning
    rw [machine.run_bind_error _ made]
    exact .inl planning
  · rw [made] at planning
    rw [machine.run_bind_ok _ made]
    exact .inr ⟨conversion,planned,rfl,(machine.attempt_ensures planned (ensures_follow_dry dry)).since planning⟩

end

/-- A run that is only to be shown, or that does not get as far as a plan, writes nothing but a line
of the log for a plan that was shown. Of its lock no more is left than folders on the way to it. -/
theorem run_writes_nothing (machine : Machine Releases σ) (identity : Identity) (arguments : ConvertArguments)
    (start : World × σ) :
    let final := (machine.run (run identity arguments).toProcedure start).2.1
    match machine.run (Project.ofArguments arguments.project).toProcedure start with
    | (.error _,_) => start.1.Still final
    | (.ok project,opened) =>
      if arguments.dryRun then
        start.1.Still final ∨ ∃ conversion planned,
          machine.run (plan project arguments.project.paths).toProcedure opened = (.ok conversion,planned) ∧
            Shown identity project arguments conversion start.1 final
      else Stops machine identity project arguments.project.paths opened →
        start.1.Paved (Lock.pathFor project.stylesheetPath).Above final := by
  intro final
  have reading := machine.ensures start (Project.asks_ofArguments arguments.project).still
  rcases done : machine.run (Project.ofArguments arguments.project).toProcedure start with ⟨failure | project,opened⟩
  · rw [done] at reading
    have ended : final = opened.1 := by simp only [final,run_eq,machine.run_bind_error _ done]
    exact ended ▸ reading
  rw [done] at reading
  have started : final = (machine.run (runIn identity project arguments).toProcedure opened).2.1 := by
    simp only [final,run_eq,machine.run_bind_ok _ done]
  -- a plan that is only shown needs no lock; otherwise the attempt stops at one
  by_cases dry : arguments.dryRun = true
  · rw [runIn,if_pos dry] at started
    simp only [if_pos dry]
    refine (shown_of_dryRun machine dry final started).imp reading.trans ?_
    exact fun ⟨conversion,planned,made,shown⟩ => ⟨conversion,planned,made,shown.since reading⟩
  · rw [runIn,if_neg dry] at started
    simp only [if_neg dry]
    intro stops
    rw [started]
    exact reading.paved.trans (paved_of_stops machine stops)

def brokenArguments : ConvertArguments where
  project := { (default : ProjectArguments) with paths := [⟨['d']⟩,⟨['e']⟩] }
  dryRun := false
  noBackup := false
  log := none

/-- A document to be converted and one that is not text, in a project without settings. -/
def brokenWorld : World :=
  { (default : World) with
    disk := ⟨[([['d']],.file (encodeText loneText)),([['e']],.file ⟨#[255]⟩)]⟩
    base := [] }

def plainProject : Project := ⟨⟨['/']⟩,⟨"/destyle.yaml".toList⟩,Config.default⟩

def brokenLocked : World :=
  ((Lock.acquire default plainProject.stylesheetPath "convert".toList).toProcedure.run brokenWorld).2

theorem ofArguments_broken : (Project.ofArguments brokenArguments.project).toProcedure.run brokenWorld =
    (.ok plainProject,brokenWorld) := by
  have opened := Project.run_openAt_plain (show (brokenWorld.disk.kind brokenWorld.base ⟨"/destyle.yaml".toList⟩).isOk = false by cbv)
  exact Project.run_ofArguments rfl rfl rfl opened
    (Config.validate_of_suffix rfl rfl rfl rfl (List.cons_ne_nil _ _) (by decide))

def brokenSources : Sources :=
  ⟨[],Registry.empty "inl-".toList,[⟨⟨"/d".toList⟩,"d",.ok loneText⟩,⟨⟨"/e".toList⟩,"e",.error .notText⟩]⟩

theorem gather_broken : ((Sources.gather plainProject brokenArguments.project.paths).toProcedure.run brokenLocked).1 =
    .ok brokenSources := by
  rw [Sources.gather_eq (Config.selector_of_globs rfl rfl)]
  cbv

theorem ofSources_broken (project : Project) : ∃ failure, ofSources project brokenSources = .error failure := by
  cases made : ofSources project brokenSources with
  | error failure => exact ⟨failure,rfl⟩
  | ok conversion =>
    obtain ⟨texts,outcomes,last,contents,-⟩ := ofSources_eq_ok.mp made
    have unread : Except.error FileError.notText ∈ texts.map Except.ok := by
      rw [← contents]
      exact List.mem_cons_of_mem _ List.mem_cons_self
    simp at unread

/-- The lock is taken and one document is read, but the next cannot be: all stays as it is. -/
theorem run_writes_nothing_broken :
    (∃ opened, (Machine.sound Releases).run (Project.ofArguments brokenArguments.project).toProcedure
      (brokenWorld,()) = (.ok plainProject,opened) ∧
      Stops (Machine.sound Releases) default plainProject brokenArguments.project.paths opened) ∧
    brokenWorld.Paved (Lock.pathFor plainProject.stylesheetPath).Above
      ((Machine.sound Releases).run (run default brokenArguments).toProcedure (brokenWorld,())).2.1 := by
  have opened : (Machine.sound Releases).run (Project.ofArguments brokenArguments.project).toProcedure
      (brokenWorld,()) = (.ok plainProject,brokenWorld,()) := by
    rw [Machine.run_sound,ofArguments_broken]
  have stops : Stops (Machine.sound Releases) default plainProject brokenArguments.project.paths (brokenWorld,()) := by
    rw [Stops,Machine.run_sound]
    split
    next => trivial
    next lock locked taken =>
      obtain ⟨-,rfl⟩ := Prod.mk.inj taken
      obtain ⟨failure,failed⟩ := ofSources_broken plainProject
      have planned := run_plan (Prod.ext gather_broken rfl :
        (Sources.gather plainProject brokenArguments.project.paths).toProcedure.run brokenLocked = (_,_))
      rw [Except.bind,failed] at planned
      refine ⟨failure,(((Sources.gather plainProject brokenArguments.project.paths).toProcedure.run brokenLocked).2,()),?_⟩
      rw [Machine.run_sound,← brokenLocked,planned]
  refine ⟨⟨_,opened,stops⟩,?_⟩
  have written := run_writes_nothing (Machine.sound Releases) default brokenArguments (brokenWorld,())
  rw [opened] at written
  exact written stops

end Conversion

end StyleHoist
