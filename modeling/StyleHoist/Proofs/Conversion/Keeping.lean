import StyleHoist.Proofs.Conversion.Execution

/-! Backups over many runs. A run that makes a backup copies the document as it
was before, and runs that write nothing else at its place leave it alone. -/
namespace StyleHoist

open Procedure Attempt Markup

variable {α : Type} {world start now later : World} {guarded : Place → Prop} {own copy base : Place}
  {content : ByteArray} {backup : Bool} {path : Path}

theorem Procedure.Asks.spared {procedure : Procedure α} (only : procedure.Asks (Request.Spares guarded world.base))
    (ground : world.Grounded) :
    procedure.Ensures World.Performs (fun _ _ => True) world fun _ later => world.Spared guarded later := by
  refine only.ensures (fun _ _ _ _ => trivial) ?_ ((World.Still.refl world).spared ground)
  intro state request reply later spared spares performs
  rw [← spared.base] at spares
  exact spared.trans (World.answers_spared spared.ground spares performs.answers)

theorem Lock.spares_acquire (identity : Identity) {stylesheet : Path} (action : Text)
    (own : ¬ guarded ((pathFor stylesheet).place base))
    (ways : ∀ folder, (pathFor stylesheet).Above folder → ¬ guarded (folder.place base)) :
    (acquire identity stylesheet action).toProcedure.Asks (Request.Spares guarded base) := by
  have spares : ∀ path ∈ [pathFor stylesheet], ¬ guarded (path.place base) := List.forall_mem_singleton.mpr own
  rw [acquire]
  refine asks_bind (asks_liftM (asks_request (List.forall_mem_nil _))) fun time => ?_
  refine asks_bind (spares_ensureFolderOf ways) fun _ => ?_
  refine asks_bind (asks_liftM (asks_request spares)) fun taken => ?_
  split
  · exact asks_bind (asks_liftM ((asks_holder _).spares (fun _ => False.elim))) fun _ => trivial
  · trivial
  · refine asks_bind (asks_liftM (asks_request spares)) fun noted => ?_
    split
    · exact asks_bind (asks_liftM (asks_request spares)) fun _ => trivial
    · trivial

theorem Lock.spares_release {lock : Path} (own : ¬ guarded (lock.place base)) :
    (release lock).Asks (Request.Spares guarded base) := by
  refine (Procedure.ensures_bind _ _ _).mpr (.request (List.forall_mem_singleton.mpr own) fun gone _ _ => ?_)
  split
  · trivial
  · exact asks_warn _

namespace Conversion

open Sharing

/-- A backup is what the document was. If it was not there at the start it need not be there yet,
and then the document is still the same if it is to be copied. -/
structure Keeping (own copy : Place) (content : ByteArray) (backup : Bool) (start now : World) : Prop where
  base : now.base = start.base
  ground : now.Grounded
  kept : now.disk.find copy = some (.file content) ∨ start.disk.find copy = none ∧ now.disk.find copy = none ∧
    (backup = true → now.disk.find own = some (.file content))

/-- The place of a backup, and that of its document unless the backup was there at the start. -/
def Watched (own copy : Place) (start : World) (place : Place) : Prop :=
  place = copy ∨ start.disk.find copy = none ∧ place = own

/-- A document whose rewriting does no harm to a backup: it is the one that is to be backed up, or it
has nothing to do with that. -/
structure Tends (own copy : Place) (suffix : Text) (start : World) (path : Path) : Prop where
  clear : path.Clear (· = copy) start.base
  apart : start.disk.find copy = none →
    path.place start.base = own ∧ (backupPath path suffix).place start.base = copy ∨
      path.Clear (· = own) start.base ∧ (backupPath path suffix).place start.base ≠ copy

variable {project : Project} {arguments : ConvertArguments} {identity : Identity} {conversion : Conversion}
  {document : DocumentPlan} {suffix : Text}

theorem clear_watched (beside : path.Clear (· = copy) base)
    (apart : start.disk.find copy = none → path.Clear (· = own) base) : path.Clear (Watched own copy start) base := by
  constructor
  · rintro (here | ⟨vacant,here⟩)
    · exact beside.own here
    · exact (apart vacant).own here
  · rintro temporary named (here | ⟨vacant,here⟩)
    · exact beside.beside temporary named here
    · exact (apart vacant).beside temporary named here
  · rintro folder above (here | ⟨vacant,here⟩)
    · exact beside.ways folder above here
    · exact (apart vacant).ways folder above here

theorem Tends.clear_of_other (tends : Tends own copy suffix start path) (other : path.place start.base ≠ own) :
    path.Clear (Watched own copy start) start.base := by
  refine clear_watched tends.clear fun vacant => ?_
  rcases tends.apart vacant with ⟨same,-⟩ | ⟨clear,-⟩
  · exact absurd same other
  · exact clear

theorem Tends.copy_of_own (tends : Tends own copy suffix start path) (vacant : start.disk.find copy = none)
    (same : path.place start.base = own) : (backupPath path suffix).place start.base = copy := by
  rcases tends.apart vacant with ⟨-,beside⟩ | ⟨clear,-⟩
  · exact beside
  · exact absurd same clear.own

theorem Tends.own_of_copy (tends : Tends own copy suffix start path) (vacant : start.disk.find copy = none)
    (same : (backupPath path suffix).place start.base = copy) : path.place start.base = own := by
  rcases tends.apart vacant with ⟨own,-⟩ | ⟨-,other⟩
  · exact own
  · exact absurd same other

namespace Keeping

variable (keeping : Keeping own copy content backup start now)

include keeping

theorem spared (spared : now.Spared (Watched own copy start) later) : Keeping own copy content backup start later where
  base := spared.base.trans keeping.base
  ground := spared.ground
  kept := by
    rw [spared.same copy (.inl rfl)]
    refine keeping.kept.imp_right fun ⟨vacant,missing,same⟩ => ⟨vacant,missing,fun on => ?_⟩
    rw [spared.same own (.inr ⟨vacant,rfl⟩)]
    exact same on

theorem ensures {procedure : Procedure α}
    (only : procedure.Asks (Request.Spares (Watched own copy start) start.base)) :
    procedure.Ensures World.Performs (fun _ _ => True) now fun _ later => Keeping own copy content backup start later := by
  rw [← keeping.base] at only
  exact (only.spared keeping.ground).mono fun _ later spared => keeping.spared spared

theorem still (still : now.Still later) : Keeping own copy content backup start later :=
  keeping.spared (still.spared keeping.ground)

theorem ensures_rewrite {line : String} {made : Option Path} {text : Text} (tends : Tends own copy suffix start path)
    (ready : now.disk.find copy = none → backup = true → path.place start.base ≠ own) :
    Attempt.Ensures World.Performs (fun _ _ => True) (do replace path text; liftM (say line); pure made) now
      fun _ later => Keeping own copy content backup start later := by
  have asks : ∀ {guarded : Place → Prop}, path.Clear guarded start.base → Procedure.Asks (Request.Spares guarded start.base)
      (do replace path text; liftM (say line); pure made : Attempt (Option Path)).toProcedure :=
    fun clear => asks_bind (spares_replace clear text) fun _ => asks_bind (asks_liftM (asks_say _)) fun _ => trivial
  have alone : (now.disk.find copy = some (.file content) ∨ backup = false) → Attempt.Ensures World.Performs (fun _ _ => True)
      (do replace path text; liftM (say line); pure made) now fun _ later => Keeping own copy content backup start later := by
    intro free
    have only := asks tends.clear
    rw [← keeping.base] at only
    refine (only.spared keeping.ground).mono fun _ later spared => ⟨spared.base.trans keeping.base,spared.ground,?_⟩
    rw [spared.same copy rfl]
    rcases free with there | off
    · exact .inl there
    · exact keeping.kept.imp_right fun ⟨vacant,missing,_⟩ => ⟨vacant,missing,by simp [off]⟩
  rcases keeping.kept with there | ⟨-,missing,-⟩
  · exact alone (.inl there)
  · cases on : backup with
    | false => exact on ▸ alone (.inr on)
    | true => exact on ▸ keeping.ensures (asks (tends.clear_of_other (ready missing on)))

end Keeping

theorem Keeping.ensures_backUp (keeping : Keeping own copy content true start now) (tends : Tends own copy suffix start path) :
    Attempt.Ensures World.Performs (fun _ _ => True) (backUp path suffix) now fun result later =>
      Keeping own copy content true start later ∧
        ∀ made, result = .ok made → later.disk.find copy = none → path.place start.base ≠ own := by
  have base := keeping.base
  refine Procedure.Ensures.mono (ensures_backUp_performed keeping.ground) fun result later ends => ?_
  rcases ends with ⟨still,there⟩ | ⟨vacant,bytes,original,becomes⟩
  · refine ⟨keeping.still still,fun made done missing same => there made done ?_⟩
    rw [still.2] at missing
    rcases keeping.kept with held | ⟨vacant,-⟩
    · rw [held] at missing
      cases missing
    · rw [World.entry,base,tends.copy_of_own vacant same,missing]
  · rw [World.entry,base] at vacant original
    rw [base] at becomes
    have next : ∀ place, later.disk.find place =
        if place = (backupPath path suffix).place start.base then some (.file bytes) else now.disk.find place :=
      fun place => by rw [becomes.find_eq,Function.update_apply]
    by_cases here : copy = (backupPath path suffix).place start.base
    · -- The backup that has been made is the one that is kept.
      have written : later.disk.find copy = some (.file bytes) := by rw [next,if_pos here]
      rw [← here] at vacant
      rcases keeping.kept with there | ⟨empty,-,same⟩
      · rw [vacant] at there
        cases there
      · rw [tends.own_of_copy empty here.symm,same rfl] at original
        obtain rfl := Entry.file.inj (Option.some.inj original)
        exact ⟨⟨becomes.base.trans base,becomes.ground,.inl written⟩,fun _ _ missing => by simp [written] at missing⟩
    · have kept : later.disk.find copy = now.disk.find copy := by rw [next,if_neg here]
      refine ⟨⟨becomes.base.trans base,becomes.ground,?_⟩,fun made done missing same => ?_⟩
      · rw [kept]
        rcases keeping.kept with there | ⟨empty,missing,same⟩
        · exact .inl there
        refine .inr ⟨empty,missing,fun _ => ?_⟩
        have apart : own ≠ (backupPath path suffix).place start.base := by
          rintro rfl
          rw [same rfl] at vacant
          cases vacant
        rw [next,if_neg apart,same rfl]
      · rw [kept] at missing
        rcases keeping.kept with there | ⟨empty,-⟩
        · rw [missing] at there
          cases there
        · exact here (tends.copy_of_own empty same).symm

theorem Keeping.ensures_commitDocument (keeping : Keeping own copy content backup start now)
    (tends : Tends own copy project.config.backupSuffix start document.path) :
    Attempt.Ensures World.Performs (fun _ _ => True) (commitDocument project backup document) now
      fun _ later => Keeping own copy content backup start later := by
  rw [commitDocument]
  cases backup with
  | false => exact keeping.ensures_rewrite tends (by simp)
  | true =>
    refine (Attempt.ensures_bind _ _ _).mpr ((keeping.ensures_backUp tends).mono fun result later ends => ?_)
    obtain ⟨keeping,ready⟩ := ends
    cases result with
    | error failure => exact keeping
    | ok made => exact keeping.ensures_rewrite tends fun missing _ => ready made rfl missing

/-- What a run writes beside its documents lies elsewhere than at certain places. -/
structure Sheltered (guarded : Place → Prop) (base : Place) (project : Project) (arguments : ConvertArguments) : Prop where
  stylesheet : project.stylesheetPath.Clear guarded base
  lock : (Lock.pathFor project.stylesheetPath).Clear guarded base
  log : ∀ log ∈ logOf project arguments, log.Clear guarded base

section

variable (sheltered : Sheltered guarded base project arguments)

include sheltered

theorem spares_closing (written : Option Written) :
    (closing identity project arguments conversion written).toProcedure.Asks (Request.Spares guarded base) := by
  rw [closing]
  have noted := @spares_note project base identity guarded arguments fun log named =>
    ⟨(sheltered.log log named).own,(sheltered.log log named).ways⟩
  split
  next => exact asks_bind (spares_sayAll _ _) fun _ => noted _
  next =>
    split
    next => exact asks_bind (spares_sayAll _ _) fun _ => noted _
    next => exact noted _

end

section

variable (sheltered : Sheltered (Watched own copy start) start.base project arguments)

include sheltered

theorem Keeping.ensures_commit (keeping : Keeping own copy content backup start now)
    (tends : ∀ document ∈ conversion.documents, Tends own copy project.config.backupSuffix start document.path)
    (sheet : conversion.stylesheetPath = project.stylesheetPath) :
    Attempt.Ensures World.Performs (fun _ _ => True) (commit project conversion backup) now
      fun _ later => Keeping own copy content backup start later := by
  have writes : (commitStylesheet project conversion).toProcedure.Asks
      (Request.Spares (Watched own copy start) start.base) := by
    rw [commitStylesheet,sheet]
    split
    · trivial
    · exact asks_bind (spares_replace sheltered.stylesheet _) fun _ => asks_bind (asks_liftM (asks_say _)) fun _ => trivial
  refine ensures_bind_kept (keeping.ensures writes) fun sheet later keeping => ?_
  refine ensures_bind_kept ?_ fun made later keeping => keeping
  refine (ensures_mapM (fun rest _ now => rest ⊆ conversion.documents ∧ Keeping own copy content backup start now)
    (fun _ now => Keeping own copy content backup start now) ?_ ⟨List.filter_subset_self _,keeping⟩).mono ?_
  · rintro document rest made now ⟨inside,keeping⟩
    obtain ⟨member,others⟩ := List.cons_subset.mp inside
    refine (keeping.ensures_commitDocument (tends document member)).mono fun result later keeping => ?_
    cases result with
    | error failure => exact keeping
    | ok made => exact ⟨others,keeping⟩
  · rintro (failure | made) later ends
    · exact ends
    · exact ends.2

theorem Keeping.ensures_follow (keeping : Keeping own copy content (backsUp project arguments) start now)
    (tends : arguments.dryRun = false →
      ∀ document ∈ conversion.documents, Tends own copy project.config.backupSuffix start document.path)
    (sheet : conversion.stylesheetPath = project.stylesheetPath) :
    Attempt.Ensures World.Performs (fun _ _ => True) (follow identity project arguments conversion) now
      fun _ later => Keeping own copy content (backsUp project arguments) start later := by
  rw [follow]
  refine ensures_bind_kept (keeping.ensures (spares_warnAll _ _)) fun warned first keeping => ?_
  refine ensures_bind_kept (keeping.ensures (spares_sayAll _ _)) fun said second keeping => ?_
  split
  next => exact keeping.ensures (spares_closing sheltered none)
  next other =>
    rw [Bool.or_eq_true,not_or,Bool.not_eq_true] at other
    simp only [map_eq_pure_bind,bind_assoc,pure_bind]
    refine ensures_bind_kept (keeping.ensures_commit sheltered (tends other.1) sheet) fun written third keeping => ?_
    exact keeping.ensures (spares_closing sheltered (some written))

theorem Keeping.unlocked (identity : Identity) (keeping : Keeping own copy content (backsUp project arguments) start now)
    (tends : arguments.dryRun = false → ∀ conversion planned,
      (plan project arguments.project.paths).toProcedure.run now = (.ok conversion,planned) →
        ∀ document ∈ conversion.documents, Tends own copy project.config.backupSuffix start document.path) :
    Keeping own copy content (backsUp project arguments) start
      ((runUnlocked identity project arguments).toProcedure.run now).2 := by
  have planning := (keeping.ensures ((asks_plan project arguments.project.paths).spares fun _ => False.elim)).performed
  rw [runUnlocked_eq]
  rcases made : (plan project arguments.project.paths).toProcedure.run now with ⟨failure | conversion,planned⟩
  · rw [made] at planning
    rwa [run_bind_error made]
  · rw [made] at planning
    rw [run_bind_ok made]
    have sheet := (documents_of_plan made).1
    exact (planning.ensures_follow sheltered (fun real => tends real conversion planned made) sheet).performed

end

/-- The plan that a run makes, with the lock held, to carry it out. -/
def Plans (identity : Identity) (arguments : ConvertArguments) (start : World) (project : Project)
    (conversion : Conversion) : Prop :=
  ∃ first lock locked planned, (Project.ofArguments arguments.project).toProcedure.run start = (.ok project,first) ∧
    (Lock.acquire identity project.stylesheetPath "convert".toList).toProcedure.run first = (.ok lock,locked) ∧
      (plan project arguments.project.paths).toProcedure.run locked = (.ok conversion,planned)

/-- A run keeps a backup that is there, and makes it from the document as it was at the start. -/
theorem keeping_run (identity : Identity) (arguments : ConvertArguments) (own : Place) (ground : start.Grounded)
    (begins : start.disk.find copy = some (.file content) ∨
      start.disk.find copy = none ∧ start.disk.find own = some (.file content))
    (sheltered : ∀ project first, (Project.ofArguments arguments.project).toProcedure.run start = (.ok project,first) →
      Sheltered (Watched own copy start) start.base project arguments)
    (tends : ∀ project conversion, Plans identity arguments start project conversion →
      ∀ document ∈ conversion.documents, Tends own copy project.config.backupSuffix start document.path) :
    ∃ backup, Keeping own copy content backup start ((run identity arguments).toProcedure.run start).2 := by
  have keeping : ∀ backup, Keeping own copy content backup start start := fun backup =>
    ⟨rfl,ground,begins.imp_right fun ⟨vacant,same⟩ => ⟨vacant,vacant,fun _ => same⟩⟩
  have opening := fun backup => ((keeping backup).ensures
    ((Project.asks_ofArguments arguments.project).spares fun _ => False.elim)).performed
  rw [run_eq]
  rcases opened : (Project.ofArguments arguments.project).toProcedure.run start with ⟨failure | project,first⟩
  · rw [opened] at opening
    rw [run_bind_error opened]
    exact ⟨false,opening false⟩
  refine ⟨backsUp project arguments,?_⟩
  replace opening := opening (backsUp project arguments)
  have shelter := sheltered project first opened
  rw [opened] at opening
  rw [run_bind_ok opened,runIn]
  split
  next dry => exact opening.unlocked shelter identity (by simp [dry])
  next =>
    -- the lock is taken, the work is done and the lock is given back, each beside the backup
    have acquiring := (opening.ensures (Lock.spares_acquire identity "convert".toList shelter.lock.own shelter.lock.ways)).performed
    rcases taken : (Lock.acquire identity project.stylesheetPath "convert".toList).toProcedure.run first with
      ⟨failure | lock,locked⟩
    · rw [taken] at acquiring
      rwa [Lock.holding,run_bind_error taken]
    · rw [taken] at acquiring
      obtain ⟨rfl,-⟩ := (Lock.succeeds_acquire_name identity _ _ opening.ground).run taken
      rw [Lock.run_holding_of_taken taken]
      have worked := acquiring.unlocked shelter identity fun _ conversion planned made =>
        tends project conversion ⟨first,_,locked,planned,opened,taken,made⟩
      exact (worked.ensures (Lock.spares_release shelter.lock.own)).performed

/-- A run from one world to another. -/
structure Turn where
  identity : Identity
  arguments : ConvertArguments
  before : World
  after : World
  ran : after = ((run identity arguments).toProcedure.run before).2

namespace Turn

variable {turn : Turn} {later : List Turn}

/-- Apart from making backups a run does nothing at a place. -/
structure Avoids (turn : Turn) (place : Place) : Prop where
  surroundings : ∀ project first,
    (Project.ofArguments turn.arguments.project).toProcedure.run turn.before = (.ok project,first) →
      Sheltered (· = place) turn.before.base project turn.arguments
  documents : ∀ project conversion, Plans turn.identity turn.arguments turn.before project conversion →
    ∀ document ∈ conversion.documents, document.path.Clear (· = place) turn.before.base

/-- A run does nothing to a document but as that document, and has no other that would be backed up in
the same place. -/
structure Singles (turn : Turn) (project : Project) (document : Path) : Prop where
  surroundings : Sheltered (· = document.place turn.before.base) turn.before.base project turn.arguments
  documents : ∀ conversion, Plans turn.identity turn.arguments turn.before project conversion →
    ∀ other ∈ conversion.documents, other.path = document ∨
      other.path.Clear (· = document.place turn.before.base) turn.before.base ∧
        (backupPath other.path project.config.backupSuffix).place turn.before.base ≠
          (backupPath document project.config.backupSuffix).place turn.before.base

/-- A backup that is there outlasts a run. -/
theorem Avoids.keeps (avoids : turn.Avoids copy) (ground : turn.before.Grounded)
    (there : turn.before.disk.find copy = some (.file content)) :
    turn.after.base = turn.before.base ∧ turn.after.Grounded ∧ turn.after.disk.find copy = some (.file content) := by
  have occupied : ∀ {prop : Prop}, turn.before.disk.find copy = none → prop := by
    intro prop missing
    rw [there] at missing
    cases missing
  obtain ⟨backup,keeping⟩ := keeping_run turn.identity turn.arguments [] ground (.inl there)
    (fun project first opened =>
      have sheltered := avoids.surroundings project first opened
      ⟨clear_watched sheltered.stylesheet occupied,clear_watched sheltered.lock occupied,
        fun log named => clear_watched (sheltered.log log named) occupied⟩)
    (fun project conversion plans document member => ⟨avoids.documents project conversion plans document member,occupied⟩)
  rw [← turn.ran] at keeping
  refine ⟨keeping.base,keeping.ground,?_⟩
  rcases keeping.kept with kept | ⟨missing,-⟩
  · exact kept
  · exact occupied missing

theorem keeps_of_chain (series : (turn :: later).IsChain fun last next => last.after.Still next.before)
    (ground : turn.after.Grounded) (there : turn.after.disk.find copy = some (.file content))
    (avoids : ∀ next ∈ later, next.Avoids copy) :
    ∀ next ∈ later, next.after.base = turn.after.base ∧ next.after.disk.find copy = some (.file content) := by
  induction later generalizing turn with
  | nil => exact List.forall_mem_nil _
  | cons next rest ih =>
    obtain ⟨still,onwards⟩ := List.isChain_cons_cons.mp series
    obtain ⟨first,others⟩ := List.forall_mem_cons.mp avoids
    have start := still.becomes ground
    obtain ⟨base,ground,kept⟩ := first.keeps start.ground (by rw [start.find_eq,there])
    have same : next.after.base = turn.after.base := base.trans start.base
    refine List.forall_mem_cons.mpr ⟨⟨same,kept⟩,fun last member => ?_⟩
    obtain ⟨base',kept'⟩ := ih onwards ground kept others last member
    exact ⟨base'.trans same,kept'⟩

/-- What a run puts where a backup was missing is the document as it was before the run, and that
outlasts the runs that come after it. -/
theorem backup_kept {project : Project} {first : World} {document : Path}
    (series : (turn :: later).IsChain fun last next => last.after.Still next.before) (ground : turn.before.Grounded)
    (opened : (Project.ofArguments turn.arguments.project).toProcedure.run turn.before = (.ok project,first))
    (held : turn.before.entry document = some (.file content))
    (vacant : turn.before.entry (backupPath document project.config.backupSuffix) = none)
    (made : turn.after.entry (backupPath document project.config.backupSuffix) ≠ none)
    (singles : turn.Singles project document)
    (avoids : ∀ next ∈ turn :: later,
      next.Avoids ((backupPath document project.config.backupSuffix).place turn.before.base)) :
    turn.after.entry (backupPath document project.config.backupSuffix) = some (.file content) ∧
      ∀ next ∈ later, next.after.entry (backupPath document project.config.backupSuffix) = some (.file content) := by
  obtain ⟨own,others⟩ := List.forall_mem_cons.mp avoids
  -- in the first turn the backup is made from the document as it was found
  obtain ⟨backup,keeping⟩ := keeping_run turn.identity turn.arguments (document.place turn.before.base) ground
    (.inr ⟨vacant,held⟩)
    (fun project' first' opened' => by
      have sheltered := own.surroundings project' first' opened'
      obtain ⟨same,-⟩ := Prod.mk.inj (opened'.symm.trans opened)
      obtain rfl := Except.ok.inj same
      have apart := singles.surroundings
      exact ⟨clear_watched sheltered.stylesheet fun _ => apart.stylesheet,
        clear_watched sheltered.lock fun _ => apart.lock,
        fun log named => clear_watched (sheltered.log log named) fun _ => apart.log log named⟩)
    (fun project' conversion plans other member => by
      have ⟨first',_,_,_,opened',_⟩ := plans
      obtain ⟨same,-⟩ := Prod.mk.inj (opened'.symm.trans opened)
      obtain rfl := Except.ok.inj same
      refine ⟨own.documents _ _ plans other member,fun _ => ?_⟩
      refine (singles.documents conversion plans other member).imp_left ?_
      intro same
      rw [same]
      exact ⟨rfl,rfl⟩)
  rw [← turn.ran] at keeping
  have kept : turn.after.disk.find ((backupPath document project.config.backupSuffix).place turn.before.base) =
      some (.file content) := by
    rcases keeping.kept with kept | ⟨-,missing,-⟩
    · exact kept
    · rw [World.entry,keeping.base,missing] at made
      exact absurd rfl made
  refine ⟨by rw [World.entry,keeping.base,kept],fun next member => ?_⟩
  -- from then on it outlasts one turn after the other
  obtain ⟨base,kept'⟩ := keeps_of_chain series keeping.ground kept others next member
  rw [World.entry,base,keeping.base,kept']

/-- The document has been rewritten beside its backup, whatever has been printed. -/
def doneWorld (output : String) : World :=
  { emptyWorld with
    disk := ⟨[(["d.bak".toList],.file (encodeText emptyText)),([['d']],.file (encodeText "<p>".toList))]⟩
    output := output }

theorem ofArguments_done (output : String) :
    (Project.ofArguments emptyArguments.project).toProcedure.run (doneWorld output) = (.ok emptyProject,doneWorld output) := by
  have opened := Project.run_openAt_plain
    (show ((doneWorld output).disk.kind (doneWorld output).base ⟨"/destyle.yaml".toList⟩).isOk = false by cbv)
  exact Project.run_ofArguments rfl rfl rfl opened
    (Config.validate_of_suffix rfl rfl rfl rfl (List.cons_ne_nil _ _) (by decide))

def doneLocked (output : String) (note : ByteArray) : World :=
  { doneWorld output with
    disk := ⟨[(["d.bak".toList],.file (encodeText emptyText)),([['d']],.file (encodeText "<p>".toList)),
      (["s.lock".toList],.file note)]⟩ }

theorem acquire_done (output : String) : ∃ note,
    (Lock.acquire default emptyProject.stylesheetPath "convert".toList).toProcedure.run (doneWorld output) =
      (.ok ⟨"/s.lock".toList⟩,doneLocked output note) :=
  Lock.run_acquire (doneWorld output) (doneLocked output .empty).disk (fun note => (doneLocked output note).disk)
    (by cbv) (by cbv) fun note => by cbv

theorem gather_done (output : String) (note : ByteArray) :
    (Sources.gather emptyProject emptyArguments.project.paths).toProcedure.run (doneLocked output note) =
      (.ok ⟨[],Registry.empty "inl-".toList,[⟨⟨"/d".toList⟩,"d",.ok "<p>".toList⟩]⟩,doneLocked output note) := by
  rw [Sources.gather_eq (Config.selector_of_globs rfl rfl)]
  cbv

def doneOutcome : Outcome := ⟨"<p>".toList,[],[],0,0,[]⟩

theorem hoist_done : hoist "<p>".toList (Registry.empty "inl-".toList) = (.ok doneOutcome,Registry.empty "inl-".toList) := by
  have nothing : scan "<p>".toList = [] := by
    rw [scan,show "<p>".toList = ['<','p','>'] from rfl,scanFrom_cons rfl,scanFrom_cons rfl,scanFrom_cons rfl,scanFrom_nil]
  rw [hoist,nothing]
  cbv

theorem plan_done (output : String) (note : ByteArray) :
    (plan emptyProject emptyArguments.project.paths).toProcedure.run (doneLocked output note) =
      (.ok ⟨[⟨⟨"/d".toList⟩,"d",doneOutcome⟩],⟨"/s".toList⟩,[],[]⟩,doneLocked output note) := by
  rw [run_plan (gather_done output note)]
  refine Prod.ext ?_ rfl
  simp only [Except.bind,ofSources,planDocuments,planDocument,Source.text,Bind.bind,hoist_done]
  rfl

theorem clear_of_top {place : Place} (top : path.parent? = some ⟨['/']⟩)
    (free : place ∉ [] :: (path :: (temporary? path).toList).map (·.place [])) : path.Clear (· = place) [] := by
  simp only [List.map_cons,List.mem_cons,List.mem_map,not_or,not_exists,not_and] at free
  obtain ⟨root,own,beside⟩ := free
  refine ⟨Ne.symm own,fun temporary named => beside temporary (Option.mem_toList.mpr named),fun folder above => ?_⟩
  rw [above.eq_root top]
  exact Ne.symm root

/-- The first run of two makes the backup, the second finds nothing to do. -/
theorem backup_kept_empty :
    let first : Turn := ⟨default,emptyArguments,emptyWorld,_,rfl⟩
    let second : Turn := ⟨default,emptyArguments,emptyAfter,_,rfl⟩
    first.after.entry ⟨"/d.bak".toList⟩ = some (.file (encodeText emptyText)) ∧
      ∀ next ∈ [second],next.after.entry ⟨"/d.bak".toList⟩ = some (.file (encodeText emptyText)) := by
  intro first second
  obtain ⟨note,taken⟩ := acquire_empty
  obtain ⟨note',taken'⟩ := acquire_done emptyAfter.output
  have ended : first.after = emptyAfter := congrArg Prod.snd run_empty
  let places : List Place := [[['d']],["d.bak".toList]]
  have sheltered : ∀ place ∈ places, Sheltered (· = place) [] emptyProject emptyArguments := by
    intro place member
    refine ⟨clear_of_top rfl ?_,clear_of_top rfl ?_,fun log named => by cases named⟩
    · exact (show ∀ place ∈ places, place ∉ [[],[['s']],[".s.destyle.tmp".toList]] by decide) place member
    · exact (show ∀ place ∈ places, place ∉ [[],["s.lock".toList],[".s.lock.destyle.tmp".toList]] by decide) place member
  have clear : (⟨"/d".toList⟩ : Path).Clear (· = ["d.bak".toList]) [] := clear_of_top rfl (by decide)
  have avoids : ∀ next ∈ [first,second],next.Avoids ["d.bak".toList] := by
    refine List.forall_mem_cons.mpr ⟨⟨?_,?_⟩,List.forall_mem_singleton.mpr ⟨?_,?_⟩⟩
    · intro project opened done
      cases ofArguments_empty.symm.trans done
      exact sheltered _ (by decide)
    · rintro project conversion ⟨opened,lock,locked,last,done,locked',made⟩ document member
      cases ofArguments_empty.symm.trans done
      cases taken.symm.trans locked'
      cases (plan_empty note).symm.trans made
      obtain rfl := List.mem_singleton.mp member
      exact clear
    · intro project opened done
      cases (ofArguments_done emptyAfter.output).symm.trans done
      exact sheltered _ (by decide)
    · rintro project conversion ⟨opened,lock,locked,last,done,locked',made⟩ document member
      cases (ofArguments_done emptyAfter.output).symm.trans done
      cases taken'.symm.trans locked'
      cases (plan_done emptyAfter.output note').symm.trans made
      obtain rfl := List.mem_singleton.mp member
      exact clear
  have series : [first,second].IsChain fun last next => last.after.Still next.before :=
    List.isChain_cons_cons.mpr ⟨by rw [ended]; exact .refl _,.singleton _⟩
  have ground : first.before.Grounded := Disk.grounded_of_files (by simp [first,emptyWorld])
  have held : first.before.entry ⟨"/d".toList⟩ = some (.file (encodeText emptyText)) := rfl
  refine backup_kept series ground ofArguments_empty held rfl ?_ ⟨sheltered _ (by decide),?_⟩ avoids
  · rw [ended]
    exact Option.some_ne_none _
  · rintro conversion ⟨opened,lock,locked,last,done,locked',made⟩ document member
    cases ofArguments_empty.symm.trans done
    cases taken.symm.trans locked'
    cases (plan_empty note).symm.trans made
    obtain rfl := List.mem_singleton.mp member
    exact .inl rfl

def pageArguments : ConvertArguments := ⟨⟨[],none,none,none,none⟩,false,false,none⟩

def pageProject : Project := ⟨⟨['/']⟩,⟨"/destyle.yaml".toList⟩,{ Config.default with backupSuffix := "html".toList }⟩

/-- A page in a project whose backups are pages too. -/
def pageWorld : World :=
  { (default : World) with
    disk := ⟨[(["destyle.yaml".toList],.file (encodeText "backup_suffix: html\n".toList)),
      (["a.html".toList],.file (encodeText emptyText))]⟩
    base := [] }

/-- The page has been rewritten beside its backup. -/
def pageAfter : World :=
  { pageWorld with
    disk := ⟨[(["destyle.yaml".toList],.file (encodeText "backup_suffix: html\n".toList)),(["css".toList],.folder),
      (["a.html.html".toList],.file (encodeText emptyText)),(["a.html".toList],.file (encodeText "<p>".toList))]⟩ }

/-- The folder of the stylesheet has been made. -/
def pageOpened : World :=
  { pageWorld with
    disk := ⟨[(["destyle.yaml".toList],.file (encodeText "backup_suffix: html\n".toList)),
      (["a.html".toList],.file (encodeText emptyText)),(["css".toList],.folder)]⟩ }

def pageLocked (opened : World) (note : ByteArray) : World :=
  { opened with disk := opened.disk.put ["styles.css.lock".toList,"css".toList] (.file note) }

section

set_option maxRecDepth 4096

theorem ofText_page : Config.ofText "backup_suffix: html\n".toList = .ok pageProject.config := by
  have read : Config.read "backup_suffix: html\n".toList = .ok pageProject.config := by cbv
  have valid : pageProject.config.validate = .ok () :=
    Config.validate_of_suffix rfl rfl rfl rfl (List.cons_ne_nil _ _) (by decide)
  rw [Config.ofText,if_neg (by decide)]
  simp only [read,valid]
  rfl

theorem ofArguments_settings {world : World} (base : world.base = [])
    (there : (world.disk.kind [] ⟨"/destyle.yaml".toList⟩).isOk = true)
    (read : world.disk.read [] ⟨"/destyle.yaml".toList⟩ = .ok (encodeText "backup_suffix: html\n".toList)) :
    (Project.ofArguments pageArguments.project).toProcedure.run world = (.ok pageProject,world) := by
  have loaded := Project.run_load ⟨"/destyle.yaml".toList⟩ world
  rw [base,read,Except.bind,decodeText?_encodeText] at loaded
  dsimp only at loaded
  rw [ofText_page] at loaded
  have opened := Project.run_openAt_root (by rw [base,there,if_pos rfl]; exact loaded)
  have root : Disk.pathOf world.base = ⟨['/']⟩ := by rw [base]; rfl
  exact Project.run_ofArguments rfl rfl root opened
    (Config.validate_of_suffix rfl rfl rfl rfl (List.cons_ne_nil _ _) (by decide))

theorem ofArguments_page : (Project.ofArguments pageArguments.project).toProcedure.run pageWorld =
    (.ok pageProject,pageWorld) := ofArguments_settings rfl (by cbv) (by cbv)

theorem ofArguments_pageAfter : (Project.ofArguments pageArguments.project).toProcedure.run pageAfter =
    (.ok pageProject,pageAfter) := ofArguments_settings rfl (by cbv) (by cbv)

theorem acquire_page : ∃ note,
    (Lock.acquire default pageProject.stylesheetPath "convert".toList).toProcedure.run pageWorld =
      (.ok ⟨"/css/styles.css.lock".toList⟩,pageLocked pageOpened note) :=
  Lock.run_acquire pageOpened (pageLocked pageOpened .empty).disk (fun note => (pageLocked pageOpened note).disk)
    (by cbv) (by cbv) fun note => by cbv

theorem acquire_pageAfter : ∃ note,
    (Lock.acquire default pageProject.stylesheetPath "convert".toList).toProcedure.run pageAfter =
      (.ok ⟨"/css/styles.css.lock".toList⟩,pageLocked pageAfter note) :=
  Lock.run_acquire pageAfter (pageLocked pageAfter .empty).disk (fun note => (pageLocked pageAfter note).disk)
    (by cbv) (by cbv) fun note => by cbv

theorem gather_page (note : ByteArray) :
    (Sources.gather pageProject pageArguments.project.paths).toProcedure.run (pageLocked pageOpened note) =
      (.ok ⟨[],Registry.empty "inl-".toList,[⟨⟨"/a.html".toList⟩,"a.html",.ok emptyText⟩]⟩,pageLocked pageOpened note) := by
  rw [Sources.gather_eq (Config.selector_of_globs rfl rfl)]
  cbv

theorem gather_pageAfter (note : ByteArray) :
    (Sources.gather pageProject pageArguments.project.paths).toProcedure.run (pageLocked pageAfter note) =
    (.ok ⟨[],Registry.empty "inl-".toList,[⟨⟨"/a.html".toList⟩,"a.html",.ok "<p>".toList⟩,
      ⟨⟨"/a.html.html".toList⟩,"a.html.html",.ok emptyText⟩]⟩,pageLocked pageAfter note) := by
  rw [Sources.gather_eq (Config.selector_of_globs rfl rfl)]
  cbv

theorem plan_page (note : ByteArray) :
    (plan pageProject pageArguments.project.paths).toProcedure.run (pageLocked pageOpened note) =
      (.ok ⟨[⟨⟨"/a.html".toList⟩,"a.html",emptyOutcome⟩],⟨"/css/styles.css".toList⟩,[],[]⟩,pageLocked pageOpened note) := by
  rw [run_plan (gather_page note)]
  refine Prod.ext ?_ rfl
  simp only [Except.bind,ofSources,planDocuments,planDocument,Source.text,Bind.bind,hoist_empty]
  rfl

theorem plan_pageAfter (note : ByteArray) :
    (plan pageProject pageArguments.project.paths).toProcedure.run (pageLocked pageAfter note) =
    (.ok ⟨[⟨⟨"/a.html".toList⟩,"a.html",doneOutcome⟩,⟨⟨"/a.html.html".toList⟩,"a.html.html",emptyOutcome⟩],
      ⟨"/css/styles.css".toList⟩,[],[]⟩,pageLocked pageAfter note) := by
  rw [run_plan (gather_pageAfter note)]
  refine Prod.ext ?_ rfl
  simp only [Except.bind,ofSources,planDocuments,planDocument,Source.text,Bind.bind,hoist_empty,hoist_done]
  rfl

theorem run_page : ((run default pageArguments).toProcedure.run pageWorld).2.base = pageAfter.base ∧
    ((run default pageArguments).toProcedure.run pageWorld).2.disk = pageAfter.disk := by
  obtain ⟨note,taken⟩ := acquire_page
  rw [run_eq,run_bind_ok ofArguments_page,runIn]
  rw [if_neg (show ¬ pageArguments.dryRun = true from Bool.false_ne_true)]
  rw [Lock.run_holding_of_taken taken,runUnlocked_eq,run_bind_ok (plan_page note)]
  cbv

theorem run_pageAfter : ((run default pageArguments).toProcedure.run pageAfter).2.entry ⟨"/a.html.html".toList⟩ =
    some (.file (encodeText "<p>".toList)) := by
  obtain ⟨note,taken⟩ := acquire_pageAfter
  rw [run_eq,run_bind_ok ofArguments_pageAfter,runIn]
  rw [if_neg (show ¬ pageArguments.dryRun = true from Bool.false_ne_true)]
  rw [Lock.run_holding_of_taken taken,runUnlocked_eq,run_bind_ok (plan_pageAfter note)]
  cbv

end

/-- The second run selects the backup that the first has made, and rewrites it. -/
theorem backup_rewritten : ∃ first second : Turn,
    [first,second].IsChain (fun last next => last.after.Still next.before) ∧
    first.arguments = pageArguments ∧ second.arguments = pageArguments ∧ pageArguments.project.paths = [] ∧
    (Project.ofArguments pageArguments.project).toProcedure.run first.before = (.ok pageProject,first.before) ∧
    backsUp pageProject pageArguments = true ∧
    let copy := backupPath ⟨"/a.html".toList⟩ pageProject.config.backupSuffix
    first.before.entry copy = none ∧ first.after.entry copy = first.before.entry ⟨"/a.html".toList⟩ ∧
      second.after.entry copy ≠ first.after.entry copy := by
  have named : backupPath ⟨"/a.html".toList⟩ pageProject.config.backupSuffix = ⟨"/a.html.html".toList⟩ := by cbv
  have vacant : pageWorld.entry ⟨"/a.html.html".toList⟩ = none := by cbv
  have held : pageWorld.entry ⟨"/a.html".toList⟩ = some (.file (encodeText emptyText)) := by cbv
  have kept : pageAfter.entry ⟨"/a.html.html".toList⟩ = some (.file (encodeText emptyText)) := by cbv
  let first : Turn := ⟨default,pageArguments,pageWorld,_,rfl⟩
  let second : Turn := ⟨default,pageArguments,pageAfter,_,rfl⟩
  obtain ⟨base,disk⟩ := run_page
  have ended : ∀ path, first.after.entry path = pageAfter.entry path := fun path => by
    rw [World.entry,World.entry,first.ran,base,disk]
  rw [named]
  refine ⟨first,second,?_,rfl,rfl,rfl,ofArguments_page,rfl,vacant,?_,fun same => ?_⟩
  · exact List.isChain_cons_cons.mpr ⟨⟨base.symm,disk.symm⟩,.singleton _⟩
  · rw [ended,kept]
    exact held.symm
  · rw [ended,kept,second.ran,run_pageAfter] at same
    have bytes := Entry.file.inj (Option.some.inj same)
    have texts := congrArg decodeText? bytes
    rw [decodeText?_encodeText,decodeText?_encodeText] at texts
    cases texts

end Turn

end Conversion

end StyleHoist
