import StyleHoist.EventLog
import StyleHoist.Proofs.Procedure.Replacing

/-! Requests by the files that they can change, and procedures that leave given
places alone. -/
namespace StyleHoist

/-- The paths at which a request can change something. -/
def Request.changes : Request → List Path
  | .create path => [path]
  | .createNew path => [path]
  | .openEnd path => [path]
  | .write path _ => [path]
  | .makeFolder path => [path]
  | .rename source target => [source,target]
  | .remove path => [path]
  | _ => []

def Request.Spares (guarded : Place → Prop) (base : Place) (request : Request) : Prop :=
  ∀ path ∈ request.changes, ¬ guarded (path.place base)

theorem Request.Quiet.widen {ways further : Path → Prop} {request : Request} (quiet : request.Quiet ways)
    (wide : ∀ folder, ways folder → further folder) : request.Quiet further := by
  cases request with
  | makeFolder path => exact wide path quiet
  | _ => exact quiet

theorem Request.Quiet.changes_eq_nil {request : Request} (quiet : request.Quiet fun _ => False) :
    request.changes = [] := by
  cases request <;> first | rfl | exact quiet.elim

theorem Request.Quiet.spares {guarded : Place → Prop} {base : Place} {ways : Path → Prop} {request : Request}
    (quiet : request.Quiet ways) (clear : ∀ folder, ways folder → ¬ guarded (folder.place base)) :
    request.Spares guarded base := by
  rw [Spares]
  rcases quiet.cases with ⟨path,rfl,way⟩ | still
  · exact List.forall_mem_singleton.mpr (clear path way)
  · rw [still.changes_eq_nil]
    exact List.forall_mem_nil _

namespace World

variable {world middle later : World} {guarded : Place → Prop} {path : Path}

/-- What is at certain places is the same, and no folder is gone. -/
structure Spared (guarded : Place → Prop) (world later : World) : Prop where
  base : later.base = world.base
  ground : later.Grounded
  folders : world.disk.FoldersKept later.disk
  same : ∀ place, guarded place → later.disk.find place = world.disk.find place

theorem Spared.trans (front : world.Spared guarded middle) (back : middle.Spared guarded later) :
    world.Spared guarded later where
  base := back.base.trans front.base
  ground := back.ground
  folders := front.folders.trans back.folders
  same := fun place inside => (back.same place inside).trans (front.same place inside)

theorem Spared.entry (spared : world.Spared guarded later) (inside : guarded (path.place world.base)) :
    later.entry path = world.entry path := by
  rw [World.entry,World.entry,spared.base,spared.same _ inside]

theorem Still.spared (still : world.Still later) (ground : world.Grounded) : world.Spared guarded later where
  base := still.1
  ground := (still.within ground : world.Within guarded (fun _ => False) later).ground
  folders := by
    rw [still.2]
    exact .refl _
  same := fun _ _ => by rw [still.2]

theorem Alters.spared {entry : Option Entry} (alters : world.Alters path entry later)
    (clear : ¬ guarded (path.place world.base)) : world.Spared guarded later where
  base := alters.1
  ground := (alters.within rfl : world.Within (path.place world.base = ·) (fun _ => False) later).ground
  folders := alters.2.foldersKept
  same := fun place inside => alters.2.elsewhere place fun same => clear (same ▸ inside)

theorem answers_spared (ground : world.Grounded) {request : Request} {reply : request.Reply}
    (spares : request.Spares guarded world.base) (answered : world.Answers request reply later) :
    world.Spared guarded later := by
  cases request with
  | create path =>
    rcases answers_create ground answered with ⟨-,still⟩ | ⟨-,alters⟩
    · exact still.spared ground
    · exact alters.spared (spares path List.mem_cons_self)
  | createNew path =>
    rcases answers_createNew ground answered with ⟨-,still⟩ | ⟨-,-,alters⟩
    · exact still.spared ground
    · exact alters.spared (spares path List.mem_cons_self)
  | openEnd path =>
    rcases answers_openEnd ground answered with still | ⟨-,alters⟩
    · exact still.spared ground
    · exact alters.spared (spares path List.mem_cons_self)
  | write path bytes =>
    have clear := spares path List.mem_cons_self
    rcases answers_write ground answered with ⟨-,still | ⟨held,alters⟩⟩ | ⟨-,held,-,alters⟩
    · exact still.spared ground
    · exact alters.spared clear
    · exact alters.spared clear
  | makeFolder path =>
    rcases answers_makeFolder ground answered with still | ⟨-,alters⟩
    · exact still.spared ground
    · exact alters.spared (spares path List.mem_cons_self)
  | remove path =>
    rcases answers_remove ground answered with ⟨-,still⟩ | ⟨-,alters⟩
    · exact still.spared ground
    · exact alters.spared (spares path List.mem_cons_self)
  | rename source target =>
    by_cases same : source.place world.base = target.place world.base
    · exact (answers_rename_self ground same answered).spared ground
    · rcases answers_rename ground same answered with ⟨-,still⟩ | ⟨-,entry,middle,-,taken,put⟩
      · exact still.spared ground
      · have front := taken.spared (spares source List.mem_cons_self)
        refine front.trans (put.spared ?_)
        rw [front.base]
        exact spares target (List.mem_cons_of_mem _ List.mem_cons_self)
  | _ => exact Still.spared (by cases answered <;> exact ⟨rfl,rfl⟩) ground

theorem answers_spared_others (ground : world.Grounded) {request : Request} {reply : request.Reply}
    (answered : world.Answers request reply later) (only : request.changes = [path]) :
    world.Spared (· ≠ path.place world.base) later := by
  refine answers_spared ground (fun other member => ?_) answered
  rw [only,List.mem_singleton] at member
  rw [member]
  exact not_not_intro rfl

end World

open Procedure Attempt

variable {α : Type} {guarded : Place → Prop} {base : Place} {path : Path} {suffix : Text}

theorem Procedure.Asks.widen {procedure : Procedure α} {asks wider : Request → Prop} (only : procedure.Asks asks)
    (wide : ∀ request, asks request → wider request) : procedure.Asks wider := by
  induction procedure with
  | done value => trivial
  | ask request next ih => exact ⟨wide request only.1,fun reply _ _ => ih reply (only.2 reply () trivial)⟩

theorem Procedure.Asks.spares {procedure : Procedure α} {ways : Path → Prop}
    (quiet : procedure.Asks (Request.Quiet ways)) (clear : ∀ folder, ways folder → ¬ guarded (folder.place base)) :
    procedure.Asks (Request.Spares guarded base) :=
  quiet.widen fun _ quiet => quiet.spares clear

theorem Procedure.asks_say (line : String) : (say line).Asks (Request.Spares guarded base) :=
  .request (List.forall_mem_nil _) fun _ _ _ => trivial

theorem Procedure.asks_warn (line : String) : (warn line).Asks (Request.Spares guarded base) :=
  .request (List.forall_mem_nil _) fun _ _ _ => trivial

/-- Nothing on the way to a file, and neither the file nor its temporary, is guarded. -/
structure Path.Clear (guarded : Place → Prop) (base : Place) (path : Path) : Prop where
  own : ¬ guarded (path.place base)
  beside : ∀ temporary, temporary? path = some temporary → ¬ guarded (temporary.place base)
  ways : ∀ folder, path.Above folder → ¬ guarded (folder.place base)

theorem Attempt.spares_ensureFolderOf (ways : ∀ folder, path.Above folder → ¬ guarded (folder.place base)) :
    (ensureFolderOf path).toProcedure.Asks (Request.Spares guarded base) :=
  (asks_ensureFolderOf path).spares ways

theorem Attempt.spares_replace (clear : path.Clear guarded base) (content : Text) :
    (replace path content).toProcedure.Asks (Request.Spares guarded base) := by
  refine ensures_replaceBytes ⟨fun _ => True,fun _ _ => True,fun _ _ => True,fun _ _ => True,fun _ => True⟩
    (fun _ _ => id) ?folder (fun _ _ => id) ?create ?write ?rename ?remove
  case folder => exact (spares_ensureFolderOf clear.ways).mono fun made _ _ => by cases made <;> trivial
  case rename =>
    intro temporary named _ _
    have both : ∀ other ∈ [temporary,path], ¬ guarded (other.place base) :=
      List.forall_mem_cons.mpr ⟨clear.beside temporary named,List.forall_mem_singleton.mpr clear.own⟩
    exact .request both fun renamed _ _ => by cases renamed <;> trivial
  all_goals
    intro temporary named _ _
    refine .request (List.forall_mem_singleton.mpr (clear.beside temporary named)) fun reply _ _ => ?_
    cases reply <;> trivial

theorem Attempt.asks_forM {asks : Request → Prop} {step : α → Attempt Unit}
    (each : ∀ item, (step item).toProcedure.Asks asks) (items : List α) : (items.forM step).toProcedure.Asks asks := by
  induction items with
  | nil => trivial
  | cons item rest ih =>
    refine (Attempt.ensures_bind (step item) (fun _ => rest.forM step) _).mpr ?_
    refine (each item).mono fun done _ _ => ?_
    cases done with
    | error failure => trivial
    | ok done => exact ih

theorem EventLog.spares_record (identity : Identity) (action : Action) (details : Json)
    (own : ¬ guarded (path.place base)) (ways : ∀ folder, path.Above folder → ¬ guarded (folder.place base)) :
    (record identity path action details).toProcedure.Asks (Request.Spares guarded base) := by
  have spares : ∀ other ∈ [path], ¬ guarded (other.place base) := List.forall_mem_singleton.mpr own
  rw [Asks,ensures_toProcedure,record]
  simp only [Attempt.ensures_bind,ensures_liftM]
  refine .request (List.forall_mem_nil _) fun now _ _ => ?_
  rw [continues_ok,append]
  simp only [Attempt.ensures_bind]
  refine (spares_ensureFolderOf ways).mono fun made _ _ => ?_
  cases made with
  | error failure => trivial
  | ok done =>
    simp only [continues_ok,ensures_ask]
    refine .request spares fun opened _ _ => ?_
    cases opened with
    | error cause => trivial
    | ok done =>
      simp only [Except.mapError,continues_ok]
      refine .request spares fun written _ _ => ?_
      cases written <;> trivial

end StyleHoist
