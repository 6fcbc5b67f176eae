import StyleHoist.Proofs.Conversion.Effects
import StyleHoist.Proofs.Conversion.Opening
import StyleHoist.Proofs.Json.OneLine

/-! What a run leaves behind that goes through: what its plan says, place by
place, and nothing else. The plan is the one that is shown without the lock. -/
namespace StyleHoist

open Procedure Attempt Markup

variable {world later : World}

namespace Conversion

open Sharing

variable {conversion : Conversion} {project : Project} {arguments : ConvertArguments} {identity : Identity}
  {start final : World} {suffix : Text} {backup : Bool} {base place : Place} {document : DocumentPlan}

theorem houses_lock {paths : List Path} {lock : Path} {action : Text} {locked : World} (ground : world.Grounded)
    (houses : world.disk.Houses world.base project.stylesheetPath)
    (taken : (Lock.acquire identity project.stylesheetPath action).toProcedure.run world = (.ok lock,locked))
    (made : (plan project paths).toProcedure.run locked = (.ok conversion,later)) :
    world.disk.Houses world.base (Lock.pathFor project.stylesheetPath) := by
  have plain : '/' ∉ ".lock".toList := by decide
  obtain ⟨front,last,whole,longer⟩ := Path.splitOn_append project.stylesheetPath.text plain
  have moving := (Path.isIdle_of_longer (last ++ ".lock".toList) (by simp)).1
  cases idle : Path.isIdle last with
  | false =>
    rw [Lock.pathFor,Path.extend,Disk.Houses,Path.parent?_append plain whole idle moving]
    exact houses
  | true =>
    by_cases empty : project.stylesheetPath.text = []
    · intro folder around filled
      rw [Lock.pathFor,Path.extend,empty] at around
      cases around
      exact absurd rfl filled
    · obtain ⟨-,ground',-,parent,name,found⟩ := (Lock.succeeds_acquire_name identity _ action ground).run taken
      have folder := Disk.read_of_idle ground' plain empty whole idle found
      rw [plan] at made
      obtain ⟨sources,middle,gathered,-⟩ := run_bind_eq_ok.mp made
      rw [Sources.gather] at gathered
      obtain ⟨css,first,read,-⟩ := run_bind_eq_ok.mp gathered
      rw [Sources.run_readStylesheet,folder] at read
      cases read

/-- What is at a place is the same, or nothing was there and now there is a folder on the way to
the log. -/
def Undisturbed (log : Option Path) (base place : Place) (before after : Option Entry) : Prop :=
  after = before ∨ before = none ∧ after = some .folder ∧
    ∃ path ∈ log, ∃ folder, path.Above folder ∧ folder.place base = place

theorem Undisturbed.eq_of_some {log : Option Path} {entry : Entry} {after : Option Entry}
    (undisturbed : Undisturbed log base place (some entry) after) : after = some entry := by
  rcases undisturbed with same | ⟨none,-⟩
  · exact same
  · cases none

section

variable {find : Place → Option Entry}

theorem Carries.becomes (carries : Carries identity project arguments conversion find world later) :
    world.Becomes later.disk.find later := by
  obtain ⟨middle,becomes,ends⟩ := carries
  split at ends
  next =>
    have onwards := becomes.trans (ends.becomes becomes.ground)
    rwa [← ends.2] at onwards
  next =>
    obtain ⟨written,time,last,held,within,-,grown⟩ := ends
    have onwards := becomes.trans (within.becomes.trans grown)
    rwa [← grown.find_eq] at onwards

theorem Carries.undisturbed (carries : Carries identity project arguments conversion find world later)
    (apart : ∀ log ∈ logOf project arguments, place ≠ log.place world.base) :
    Undisturbed (logOf project arguments) world.base place (find place) (later.disk.find place) := by
  obtain ⟨middle,becomes,ends⟩ := carries
  split at ends
  next => exact .inl (by rw [ends.2,becomes.find_eq])
  next log named =>
    obtain ⟨written,time,last,held,within,-,grown⟩ := ends
    have away := apart log named
    rw [← becomes.base,← within.base] at away
    rw [grown.find_eq,Function.update_of_ne away,← becomes.find_eq]
    refine (within.elsewhere place id).imp_right ?_
    rintro ⟨⟨folder,above,same⟩,vacant,made⟩
    rw [becomes.base] at same
    exact ⟨vacant,made,log,named,folder,above,same⟩

theorem Carries.log (carries : Carries identity project arguments conversion find world later) {log : Path}
    (named : log ∈ logOf project arguments) : ∃ held written time,
      (find (log.place world.base) = some (.file held) ∨ find (log.place world.base) = none ∧ held = .empty) ∧
      later.disk.find (log.place world.base) =
        some (.file (held ++ encodeText (ranLine identity project conversion written time ++ ['\n']))) := by
  obtain ⟨middle,becomes,ends⟩ := carries
  rw [Option.mem_def] at named
  rw [named] at ends
  obtain ⟨written,time,last,held,within,there,grown⟩ := ends
  have base : last.base = world.base := within.base.trans becomes.base
  rw [World.entry,base] at there
  refine ⟨held,written,time,?_,by rw [grown.find_eq,base,Function.update_self]⟩
  rw [← becomes.find_eq]
  rcases within.elsewhere (log.place world.base) id with same | ⟨-,-,folder⟩
  · rwa [← same]
  · rw [folder] at there
    rcases there with file | ⟨none,-⟩
    · cases file
    · cases none

end

/-- The files that are replaced when a plan is carried out. -/
def replaces (conversion : Conversion) : List Path :=
  (if conversion.added = [] then [] else [conversion.stylesheetPath]) ++ conversion.modified.map (·.path)

/-- A line has been added to the log, which is new if there was none. -/
def Entered (identity : Identity) (project : Project) (conversion : Conversion) (before after : Option Entry) : Prop :=
  ∃ held line, (before = some (.file held) ∨ before = none ∧ held = .empty) ∧
    after = some (.file (held ++ encodeText (line ++ ['\n']))) ∧ '\n' ∉ line ∧
      ∃ written time, line = ranLine identity project conversion written time

/-- A plan has been carried out, and nothing else has changed. -/
structure Executed (identity : Identity) (project : Project) (arguments : ConvertArguments) (conversion : Conversion)
    (start final : World) : Prop where
  base : final.base = start.base
  stylesheet : conversion.added ≠ [] →
    final.entry conversion.stylesheetPath = some (.file (encodeText conversion.stylesheet))
  documents : ∀ document ∈ conversion.documents, final.entry document.path =
    if document.outcome.changed then some (.file (encodeText document.outcome.text)) else start.entry document.path
  backups : backsUp project arguments = true → ∀ document ∈ conversion.modified,
    let copy := backupPath document.path project.config.backupSuffix
    final.entry copy = (start.entry copy).or (start.entry document.path)
  log : ∀ log ∈ logOf project arguments, Entered identity project conversion (start.entry log) (final.entry log)
  lock : final.entry (Lock.pathFor project.stylesheetPath) = none
  temporaries : ∀ path ∈ conversion.replaces, ∀ temporary, temporary? path = some temporary →
    Undisturbed (logOf project arguments) start.base (temporary.place start.base) none (final.entry temporary)
  elsewhere : ∀ place, ¬ conversion.Writes (backsUp project arguments) project.config.backupSuffix start.base place →
    (∀ log ∈ logOf project arguments, place ≠ log.place start.base) →
      Undisturbed (logOf project arguments) start.base place (start.disk.find place) (final.disk.find place)

/-- What is found everywhere is known but for the folders on the way to the log. -/
structure Settled (identity : Identity) (project : Project) (arguments : ConvertArguments) (conversion : Conversion)
    (find : Place → Option Entry) (start final : World) : Prop where
  base : final.base = start.base
  log : ∀ log ∈ logOf project arguments, Entered identity project conversion (start.entry log) (final.entry log)
  lock : final.entry (Lock.pathFor project.stylesheetPath) = none
  elsewhere : ∀ place, place ≠ (Lock.pathFor project.stylesheetPath).place start.base →
    (∀ log ∈ logOf project arguments, place ≠ log.place start.base) →
      Undisturbed (logOf project arguments) start.base place (find place) (final.disk.find place)

section

variable (distinct : ((Lock.pathFor project.stylesheetPath :: (logOf project arguments).toList ++
    conversion.paths project.config.backupSuffix).map (·.place start.base)).Nodup)

include distinct

theorem ne_lock_of_mem {path : Path} (member : path ∈ conversion.paths project.config.backupSuffix) :
    path.place start.base ≠ (Lock.pathFor project.stylesheetPath).place start.base := by
  rw [List.cons_append,List.map_cons,List.nodup_cons] at distinct
  exact fun same => distinct.1 (List.mem_map.mpr ⟨path,List.mem_append_right _ member,same⟩)

theorem lock_ne_log {log : Path} (named : log ∈ logOf project arguments) :
    log.place start.base ≠ (Lock.pathFor project.stylesheetPath).place start.base := by
  rw [List.cons_append,List.map_cons,List.nodup_cons] at distinct
  exact fun same => distinct.1 (List.mem_map.mpr ⟨log,List.mem_append_left _ (Option.mem_toList.mpr named),same⟩)

theorem ne_log_of_mem {path log : Path} (member : path ∈ conversion.paths project.config.backupSuffix)
    (named : log ∈ logOf project arguments) : path.place start.base ≠ log.place start.base := by
  rw [List.cons_append,List.map_cons,List.nodup_cons,List.map_append] at distinct
  have apart := (List.nodup_append.mp distinct.2).2.2
  exact (apart _ (List.mem_map_of_mem (Option.mem_toList.mpr named)) _ (List.mem_map_of_mem member)).symm

theorem nodup_of_files : ((conversion.paths project.config.backupSuffix).map (·.place start.base)).Nodup := by
  rw [List.map_append] at distinct
  exact (List.nodup_append.mp distinct).2.1

theorem there_of_carries {locked after : World} (holds : start.Holds (Lock.pathFor project.stylesheetPath) locked)
    (carries : Carries identity project arguments conversion (conversion.carriedOut (backsUp project arguments)
      project.config.backupSuffix locked.base locked.disk.find) locked after) :
    ∃ bytes, after.disk.find ((Lock.pathFor project.stylesheetPath).place start.base) = some (.file bytes) := by
  obtain ⟨bytes,held⟩ := holds.beside.find_self
  have unwritten : ¬ conversion.Writes (backsUp project arguments) project.config.backupSuffix start.base
      ((Lock.pathFor project.stylesheetPath).place start.base) := by
    intro writes
    obtain ⟨path,member,same⟩ := writes.mem_paths
    exact ne_lock_of_mem distinct member same
  have found := carries.undisturbed fun log named => by rw [holds.base]; exact (lock_ne_log distinct named).symm
  rw [holds.base,carriedOut_of_not_writes unwritten,held] at found
  exact ⟨bytes,found.eq_of_some⟩

/-- Once the lock is given back all that is left of it is what was written while it was held. -/
theorem settled_of_carries {locked after : World} (holds : start.Holds (Lock.pathFor project.stylesheetPath) locked)
    (carries : Carries identity project arguments conversion (conversion.carriedOut (backsUp project arguments)
      project.config.backupSuffix locked.base locked.disk.find) locked after)
    (released : locked.Becomes (Function.update after.disk.find
      ((Lock.pathFor project.stylesheetPath).place start.base) none) final) :
    Settled identity project arguments conversion (conversion.carriedOut (backsUp project arguments)
      project.config.backupSuffix start.base start.disk.find) start final := by
  have base : final.base = start.base := released.base.trans holds.base
  rw [holds.base] at carries
  -- the lock file, which is there while the plan is carried out, makes no difference elsewhere
  have carried : ∀ place, place ≠ (Lock.pathFor project.stylesheetPath).place start.base →
      conversion.carriedOut (backsUp project arguments) project.config.backupSuffix start.base locked.disk.find place =
        conversion.carriedOut (backsUp project arguments) project.config.backupSuffix start.base start.disk.find place :=
    carriedOut_congr (fun path => ne_lock_of_mem distinct) fun place away => holds.beside.find_eq away
  have around : ∀ place, place ≠ (Lock.pathFor project.stylesheetPath).place start.base →
      final.disk.find place = after.disk.find place :=
    fun place away => by rw [released.find_eq,Function.update_of_ne away]
  constructor
  case base => exact base
  case log =>
    intro log named
    obtain ⟨held,written,time,before,grown⟩ := carries.log named
    have away := lock_ne_log distinct named
    have unwritten : ¬ conversion.Writes (backsUp project arguments) project.config.backupSuffix start.base
        (log.place start.base) := by
      intro writes
      obtain ⟨path,member,same⟩ := writes.mem_paths
      exact ne_log_of_mem distinct member named same
    rw [holds.base,carried _ away,carriedOut_of_not_writes unwritten] at before
    rw [holds.base] at grown
    refine ⟨held,ranLine identity project conversion written time,before,?_,Event.notMem_line _,written,time,rfl⟩
    rw [World.entry,base,around _ away,grown]
  case lock => rw [World.entry,base,released.find_eq,Function.update_self]
  case elsewhere =>
    intro place away apart
    have found := carries.undisturbed fun log named => by rw [holds.base]; exact apart log named
    rwa [carried place away,← around place away,holds.base] at found

theorem Settled.entry {path : Path}
    (settled : Settled identity project arguments conversion (conversion.carriedOut (backsUp project arguments)
      project.config.backupSuffix start.base start.disk.find) start final)
    (member : path ∈ conversion.paths project.config.backupSuffix) {entry : Option Entry}
    (carried : conversion.carriedOut (backsUp project arguments) project.config.backupSuffix start.base start.disk.find
      (path.place start.base) = entry) :
    Undisturbed (logOf project arguments) start.base (path.place start.base) entry (final.entry path) := by
  rw [← carried,World.entry,settled.base]
  exact settled.elsewhere _ (ne_lock_of_mem distinct member) fun log named => ne_log_of_mem distinct member named

theorem Settled.stylesheet_found (filled : conversion.added ≠ [])
    (settled : Settled identity project arguments conversion (conversion.carriedOut (backsUp project arguments)
      project.config.backupSuffix start.base start.disk.find) start final) :
    final.entry conversion.stylesheetPath = some (.file (encodeText conversion.stylesheet)) := by
  refine (settled.entry distinct List.mem_cons_self ?_).eq_of_some
  rw [carriedOut_stylesheet (nodup_of_files distinct) filled (.inl rfl),replaced_self]

theorem Settled.document_found (readable : ∃ bytes, start.entry document.path = some (.file bytes))
    (settled : Settled identity project arguments conversion (conversion.carriedOut (backsUp project arguments)
      project.config.backupSuffix start.base start.disk.find) start final)
    (member : document ∈ conversion.documents) : final.entry document.path =
      if document.outcome.changed then some (.file (encodeText document.outcome.text)) else start.entry document.path := by
  have files := nodup_of_files distinct
  have own : document.path ∈ conversion.paths project.config.backupSuffix := mem_paths member List.mem_cons_self
  cases changes : document.outcome.changed with
  | true =>
    have modified : document ∈ conversion.modified := List.mem_filter.mpr ⟨member,changes⟩
    exact (settled.entry distinct own (carriedOut_document files modified).1).eq_of_some
  | false =>
    obtain ⟨bytes,held⟩ := readable
    rw [if_neg Bool.false_ne_true,held]
    refine (settled.entry distinct own ?_).eq_of_some
    rw [carriedOut_of_not_writes (not_writes_of_unchanged files member changes List.mem_cons_self)]
    exact held

theorem Settled.backup_found (readable : ∃ bytes, start.entry document.path = some (.file bytes))
    (settled : Settled identity project arguments conversion (conversion.carriedOut (backsUp project arguments)
      project.config.backupSuffix start.base start.disk.find) start final)
    (on : backsUp project arguments = true) (modified : document ∈ conversion.modified) :
    let copy := backupPath document.path project.config.backupSuffix
    final.entry copy = (start.entry copy).or (start.entry document.path) := by
  intro copy
  have beside : copy ∈ conversion.paths project.config.backupSuffix :=
    mem_paths (List.mem_filter.mp modified).1 (by simp [copy,DocumentPlan.paths])
  obtain ⟨bytes,held⟩ := readable
  have found := settled.entry distinct beside (carriedOut_document (nodup_of_files distinct) modified).2.2
  rw [if_pos on] at found
  change Undisturbed _ _ _ ((start.entry copy).or (start.entry document.path)) _ at found
  rw [held] at found ⊢
  cases there : start.entry copy with
  | none =>
    rw [there] at found
    exact found.eq_of_some
  | some entry =>
    rw [there] at found
    exact found.eq_of_some

theorem Settled.temporary_found {path temporary : Path}
    (settled : Settled identity project arguments conversion (conversion.carriedOut (backsUp project arguments)
      project.config.backupSuffix start.base start.disk.find) start final)
    (member : path ∈ conversion.replaces) (named : temporary? path = some temporary) :
    Undisturbed (logOf project arguments) start.base (temporary.place start.base) none (final.entry temporary) := by
  have files := nodup_of_files distinct
  rcases List.mem_append.mp member with among | among
  · split at among
    next => cases among
    next filled =>
      obtain rfl := List.mem_singleton.mp among
      have own : temporary ∈ conversion.paths project.config.backupSuffix := by simp [paths,named]
      refine settled.entry distinct own ?_
      rw [carriedOut_stylesheet files filled (.inr ⟨temporary,named,rfl⟩),replaced_temporary named]
  · obtain ⟨document,modified,rfl⟩ := List.mem_map.mp among
    have own : temporary ∈ conversion.paths project.config.backupSuffix :=
      mem_paths (List.mem_filter.mp modified).1 (by simp [DocumentPlan.paths,named])
    exact settled.entry distinct own ((carriedOut_document files modified).2.1 temporary named)

theorem Settled.executed (vacant : start.entry (Lock.pathFor project.stylesheetPath) = none)
    (readable : ∀ document ∈ conversion.documents, ∃ bytes, start.entry document.path = some (.file bytes))
    (settled : Settled identity project arguments conversion (conversion.carriedOut (backsUp project arguments)
      project.config.backupSuffix start.base start.disk.find) start final) :
    Executed identity project arguments conversion start final where
  base := settled.base
  log := settled.log
  lock := settled.lock
  stylesheet filled := settled.stylesheet_found distinct filled
  documents document member := settled.document_found distinct (readable document member) member
  backups on document modified :=
    settled.backup_found distinct (readable document (List.mem_filter.mp modified).1) on modified
  temporaries _ member _ named := settled.temporary_found distinct member named
  elsewhere := by
    intro place away apart
    -- the lock is gone again, as it was before
    by_cases lock : place = (Lock.pathFor project.stylesheetPath).place start.base
    · have gone := settled.lock
      rw [World.entry,settled.base,← lock] at gone
      rw [World.entry,← lock] at vacant
      exact .inl (gone.trans vacant.symm)
    · have found := settled.elsewhere place lock apart
      rwa [carriedOut_of_not_writes away] at found

end

/-- The files of a run: the lock, the log, the stylesheet and the documents, with their backups and
temporaries. -/
def files (project : Project) (arguments : ConvertArguments) (documents : List Path) : List Path :=
  Lock.pathFor project.stylesheetPath :: (logOf project arguments).toList ++
    (project.stylesheetPath :: (temporary? project.stylesheetPath).toList ++ documents.flatMap fun path =>
      path :: backupPath path project.config.backupSuffix :: (temporary? path).toList)

theorem files_of_plan {documents : List Path} (sheet : conversion.stylesheetPath = project.stylesheetPath)
    (listed : conversion.documents.map (·.path) = documents) : files project arguments documents =
      Lock.pathFor project.stylesheetPath :: (logOf project arguments).toList ++
        conversion.paths project.config.backupSuffix := by
  rw [files,paths,sheet,← listed,List.flatMap_map]
  rfl

/-- The documents that a run selects, which never include the stylesheet. -/
def Selects (project : Project) (paths : List Path) (world : World) (documents : List Path) : Prop :=
  ∃ selected later, (Discovery.documents project paths).toProcedure.run world = (.ok selected,later) ∧
    documents = selected.filter fun path => !path.same project.stylesheetPath

section

variable (ground : start.Grounded) (real : arguments.dryRun = false)
  (houses : start.disk.Houses start.base project.stylesheetPath)
  (vacant : start.entry (Lock.pathFor project.stylesheetPath) = none)
  (unselected : Discovery.Unselected project arguments.project.paths start.base (Lock.pathFor project.stylesheetPath))
  (distinct : ∀ documents, Selects project arguments.project.paths start documents →
    ((files project arguments documents).map (·.place start.base)).Nodup)

include ground real houses vacant unselected distinct

/-- A run in a project that goes through leaves what the plan says that would be shown before it. -/
theorem executed_of_runIn (done : (runIn identity project arguments).toProcedure.run start = (.ok (),final)) :
    ∃ conversion planned, (plan project arguments.project.paths).toProcedure.run start = (.ok conversion,planned) ∧
      Executed identity project arguments conversion start final := by
  rw [runIn,if_neg (by simp [real])] at done
  obtain ⟨lock,locked,after,taken,worked,rfl⟩ := Lock.run_holding done
  rw [runUnlocked_eq] at worked
  obtain ⟨conversion,planned,made,followed⟩ := run_bind_eq_ok.mp worked
  obtain ⟨rfl,holds⟩ :=
    (Lock.succeeds_acquire identity _ _ ground (houses_lock ground houses taken made)).run taken
  have apart : ∀ selected later, (Discovery.documents project arguments.project.paths).toProcedure.run start =
      (.ok selected,later) → ∀ path ∈ selected, path.same project.stylesheetPath = false →
        path.place start.base ≠ (Lock.pathFor project.stylesheetPath).place start.base := by
    intro selected later found path member other here
    have nodup := distinct _ ⟨selected,later,found,rfl⟩
    rw [files,List.cons_append,List.map_cons,List.nodup_cons] at nodup
    refine nodup.1 (List.mem_map.mpr ⟨path,List.mem_append_right _ (List.mem_append_right _ ?_),here⟩)
    exact List.mem_flatMap.mpr ⟨path,List.mem_filter.mpr ⟨member,by simp [other]⟩,List.mem_cons_self⟩
  -- the plan made under the lock is the one made before it was taken
  obtain ⟨rfl,made'⟩ := plan_of_holds ground holds unselected (Path.place_lock_ne _ _).symm apart made
  obtain ⟨sheet,⟨selected,found,listed⟩,readable⟩ := documents_of_plan made'
  have nodup := distinct _ ⟨selected,start,found,rfl⟩
  rw [files_of_plan sheet listed] at nodup
  have next := holds.ground
  rw [World.Grounded,holds.base] at next
  have kept : ∀ path, start.disk.Houses start.base path → planned.disk.Houses planned.base path := by
    intro path houses
    rw [holds.base]
    exact houses.kept ground next holds.beside.foldersKept
  have housed : ∀ document ∈ conversion.documents, planned.disk.Houses planned.base document.path := by
    intro document member
    obtain ⟨bytes,read⟩ := readable document member
    obtain ⟨parent,name,spot,-⟩ := Disk.read_eq_ok_iff.mp read
    exact kept _ (Disk.houses_of_spot ground spot)
  -- what is written is what was planned, and then the lock is given back
  have carries := (succeeds_follow real holds.ground (sheet ▸ kept _ houses) housed).run followed
  have released := (Lock.ensures_release_performed ground holds carries.becomes (there_of_carries nodup holds carries)).performed
  refine ⟨conversion,start,made',(settled_of_carries nodup holds carries released).executed nodup vacant ?_⟩
  intro document member
  obtain ⟨bytes,read⟩ := readable document member
  exact ⟨bytes,Disk.read_eq_ok ground read⟩

end

theorem Executed.since {first : World} (still : start.Still first)
    (executed : Executed identity project arguments conversion first final) :
    Executed identity project arguments conversion start final := by
  obtain ⟨disk,base,clock,output,warnings⟩ := start
  obtain ⟨disk',base',clock',output',warnings'⟩ := first
  obtain ⟨rfl,rfl⟩ := still
  exact ⟨executed.base,executed.stylesheet,executed.documents,executed.backups,executed.log,executed.lock,
    executed.temporaries,executed.elsewhere⟩

/-- A run that goes through leaves the tree as it was but for what its plan says, which is the plan
that a run that only shows it would show. -/
theorem run_executed {first : World} (ground : start.Grounded)
    (opened : (Project.ofArguments arguments.project).toProcedure.run start = (.ok project,first))
    (real : arguments.dryRun = false)
    (houses : start.disk.Houses start.base project.stylesheetPath)
    (vacant : start.entry (Lock.pathFor project.stylesheetPath) = none)
    (unselected : Discovery.Unselected project arguments.project.paths start.base (Lock.pathFor project.stylesheetPath))
    (distinct : ∀ documents, Selects project arguments.project.paths first documents →
      ((files project arguments documents).map (·.place start.base)).Nodup)
    (done : (run identity arguments).toProcedure.run start = (.ok (),final)) :
    ∃ conversion planned, (plan project arguments.project.paths).toProcedure.run first = (.ok conversion,planned) ∧
      Executed identity project arguments conversion start final := by
  have still := (succeeds_still (Project.asks_ofArguments arguments.project)).run opened
  rw [run_eq,run_bind_ok opened] at done
  obtain ⟨base,disk⟩ := still
  rw [← disk,← base] at houses
  rw [← base] at unselected distinct
  rw [World.entry,← disk,← base] at vacant
  rw [World.Grounded,← disk,← base] at ground
  obtain ⟨conversion,planned,made,executed⟩ := executed_of_runIn ground real houses vacant unselected distinct done
  exact ⟨conversion,planned,made,executed.since ⟨base,disk⟩⟩

def emptyArguments : ConvertArguments where
  project := { (default : ProjectArguments) with paths := [⟨['d']⟩],stylesheet := some ⟨['s']⟩ }
  dryRun := false
  noBackup := false
  log := none

def emptyText : Text := "<p style=\"\">".toList

/-- A document with a style that says nothing. -/
def emptyWorld : World :=
  { (default : World) with
    disk := ⟨[([['d']],.file (encodeText emptyText))]⟩
    base := [] }

def emptyProject : Project := ⟨⟨['/']⟩,⟨"/destyle.yaml".toList⟩,{ Config.default with stylesheet := ['s'] }⟩

theorem ofArguments_empty : (Project.ofArguments emptyArguments.project).toProcedure.run emptyWorld =
    (.ok emptyProject,emptyWorld) := by
  have opened := Project.run_openAt_plain (show (emptyWorld.disk.kind emptyWorld.base ⟨"/destyle.yaml".toList⟩).isOk = false by cbv)
  exact Project.run_ofArguments rfl rfl rfl opened
    (Config.validate_of_suffix rfl rfl rfl rfl (List.cons_ne_nil _ _) (by decide))

theorem documents_empty : (Discovery.documents emptyProject emptyArguments.project.paths).toProcedure.run emptyWorld =
    (.ok [⟨"/d".toList⟩],emptyWorld) := by
  rw [Discovery.documents_eq (Config.selector_of_globs rfl rfl)]
  cbv

theorem scan_empty : scan emptyText = [.style ⟨⟨3,11⟩,⟨10,10⟩,⟨0,12⟩,none⟩] := by
  have opened : emptyText = '<' :: 'p' :: ' ' :: (styleOpen ++ ([] ++ '"' :: ['>'])) := rfl
  rw [scan,opened,scanFrom_cons rfl,scanFrom_cons rfl,scanFrom_cons rfl,scanFrom_value rfl rfl,scanFrom_cons rfl,
    scanFrom_nil]
  rfl

def emptyOutcome : Outcome := ⟨"<p>".toList,[⟨⟨0,12⟩,⟨0,3⟩,[]⟩],[],0,1,[]⟩

theorem hoist_empty : hoist emptyText (Registry.empty "inl-".toList) = (.ok emptyOutcome,Registry.empty "inl-".toList) := by
  rw [hoist,scan_empty]
  cbv

def emptyConversion : Conversion := ⟨[⟨⟨"/d".toList⟩,"d",emptyOutcome⟩],⟨"/s".toList⟩,[],[]⟩

/-- What is noted in the lock file makes no difference. -/
def emptyLocked (note : ByteArray) : World :=
  { emptyWorld with disk := ⟨[([['d']],.file (encodeText emptyText)),(["s.lock".toList],.file note)]⟩ }

theorem acquire_empty : ∃ note,
    (Lock.acquire default emptyProject.stylesheetPath "convert".toList).toProcedure.run emptyWorld =
      (.ok ⟨"/s.lock".toList⟩,emptyLocked note) :=
  Lock.run_acquire emptyWorld (emptyLocked .empty).disk (fun note => (emptyLocked note).disk) (by cbv) (by cbv)
    fun note => by cbv

theorem gather_empty (note : ByteArray) :
    (Sources.gather emptyProject emptyArguments.project.paths).toProcedure.run (emptyLocked note) =
      (.ok ⟨[],Registry.empty "inl-".toList,[⟨⟨"/d".toList⟩,"d",.ok emptyText⟩]⟩,emptyLocked note) := by
  rw [Sources.gather_eq (Config.selector_of_globs rfl rfl)]
  cbv

theorem plan_empty (note : ByteArray) :
    (plan emptyProject emptyArguments.project.paths).toProcedure.run (emptyLocked note) =
      (.ok emptyConversion,emptyLocked note) := by
  rw [run_plan (gather_empty note)]
  refine Prod.ext ?_ rfl
  simp only [Except.bind,ofSources,planDocuments,planDocument,Source.text,Bind.bind,hoist_empty]
  rfl

/-- The document has been rewritten beside its backup. -/
def emptyAfter : World :=
  { emptyWorld with
    disk := ⟨[(["d.bak".toList],.file (encodeText emptyText)),([['d']],.file (encodeText "<p>".toList))]⟩
    output :=
      "Convert plan:\n\nDocuments to rewrite (1):\n  - d (1 style(s), 1 empty)\n      1:1: <p>\n\n" ++
      "Rewrote: d\n\nConvert complete:\n  Documents scanned:  1\n  Documents modified: 1\n" ++
      "  Classes added:      0\n  Classes reused:     0\n  Empty styles:       1\n  Backups created:    1\n" }

set_option maxRecDepth 4096 in
theorem run_empty : (run default emptyArguments).toProcedure.run emptyWorld = (.ok (),emptyAfter) := by
  obtain ⟨note,taken⟩ := acquire_empty
  rw [run_eq,run_bind_ok ofArguments_empty,runIn]
  rw [if_neg (show ¬ emptyArguments.dryRun = true from Bool.false_ne_true)]
  rw [Lock.run_holding_of_taken taken,runUnlocked_eq,run_bind_ok (plan_empty note)]
  cbv

/-- The document and its backup are written, the stylesheet is not. -/
theorem run_executed_empty : ∃ conversion planned,
    (plan emptyProject emptyArguments.project.paths).toProcedure.run emptyWorld = (.ok conversion,planned) ∧
      Executed default emptyProject emptyArguments conversion emptyWorld emptyAfter := by
  refine run_executed ?_ ofArguments_empty rfl ?_ (by decide) ?_ ?_ run_empty
  · exact Disk.grounded_of_files (by simp [emptyWorld])
  · intro folder around filled
    cases around
    exact Disk.kind_root _ _
  · intro selector _ path member
    obtain rfl := List.mem_singleton.mp (show path ∈ [⟨"/d".toList⟩] from member)
    exact ⟨by decide,fun names below => by cases below⟩
  · rintro documents ⟨selected,later,found,rfl⟩
    obtain ⟨same,-⟩ := Prod.mk.inj (documents_empty.symm.trans found)
    obtain rfl := Except.ok.inj same
    decide

end Conversion

end StyleHoist
