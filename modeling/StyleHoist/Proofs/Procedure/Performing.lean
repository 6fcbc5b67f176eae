import StyleHoist.EventLog
import StyleHoist.Proofs.Disk.Housing
import StyleHoist.Proofs.Procedure.Sparing

/-! Procedures on a machine that carries everything out. What they change when
they succeed is said place by place. -/
namespace StyleHoist

open Procedure Attempt

namespace World

variable {world middle later : World} {path : Path} {ways : Path → Prop}

def Performs (world : World) (request : Request) (reply : request.Reply) (later : World) : Prop :=
  world.perform request = (reply,later)

theorem Performs.answers {request : Request} {reply : request.Reply} (performs : world.Performs request reply later) :
    world.Answers request reply later := by
  have answered : world.Answers request (world.perform request).1 (world.perform request).2 := .performed request
  rwa [performs] at answered

/-- What is found everywhere is known, and no folder is gone. -/
structure Becomes (world : World) (find : Place → Option Entry) (later : World) : Prop where
  base : later.base = world.base
  ground : later.Grounded
  folders : Disk.FoldersKept world.disk later.disk
  find_eq : later.disk.find = find

variable {find next : Place → Option Entry}

theorem Becomes.trans (front : world.Becomes find middle) (back : middle.Becomes next later) : world.Becomes next later where
  base := back.base.trans front.base
  ground := back.ground
  folders := front.folders.trans back.folders
  find_eq := back.find_eq

theorem Still.becomes (still : world.Still later) (ground : world.Grounded) : world.Becomes world.disk.find later where
  base := still.1
  ground := by
    rw [Grounded,still.1,still.2]
    exact ground
  folders := by
    rw [still.2]
    exact .refl _
  find_eq := by rw [still.2]

theorem Alters.becomes {entry : Option Entry} (alters : world.Alters path entry later) :
    world.Becomes (Function.update world.disk.find (path.place world.base) entry) later where
  base := alters.1
  ground := by
    rw [Grounded,alters.1]
    exact alters.2.ground
  folders := alters.2.foldersKept
  find_eq := by
    funext place
    by_cases same : place = path.place world.base
    · rw [same,alters.2.here,Function.update_self]
    · rw [alters.2.elsewhere place same,Function.update_of_ne same]

theorem Becomes.still (becomes : world.Becomes find middle) (still : middle.Still later) : world.Becomes find later := by
  have onwards := still.becomes becomes.ground
  rw [becomes.find_eq] at onwards
  exact becomes.trans onwards

theorem Becomes.alters (becomes : world.Becomes find middle) {entry : Option Entry}
    (alters : middle.Alters path entry later) :
    world.Becomes (Function.update find (path.place world.base) entry) later := by
  have onwards := alters.becomes
  rw [becomes.find_eq,becomes.base] at onwards
  exact becomes.trans onwards

theorem Within.becomes (within : world.Within (fun _ => False) ways later) : world.Becomes later.disk.find later where
  base := within.base
  ground := within.ground
  folders := by
    intro place folder
    rcases within.elsewhere place id with same | ⟨-,vacant,-⟩
    · exact same.trans folder
    · rw [folder] at vacant
      cases vacant
  find_eq := rfl

/-- A file has a line more. It is new if there was none, and its folders are too. -/
def Logs (world : World) (log : Path) (line : ByteArray) (later : World) : Prop :=
  ∃ middle held, world.Within (fun _ => False) log.Above middle ∧
    (middle.entry log = some (.file held) ∨ middle.entry log = none ∧ held = .empty) ∧
    middle.Becomes (Function.update middle.disk.find (log.place middle.base) (some (.file (held ++ line)))) later

theorem Becomes.houses (becomes : world.Becomes find later) (ground : world.Grounded)
    (houses : world.disk.Houses world.base path) : later.disk.Houses later.base path := by
  have next := becomes.ground
  rw [Grounded,becomes.base] at next
  rw [becomes.base]
  exact houses.kept ground next becomes.folders

end World

namespace Procedure

variable {σ α : Type} {world : World} {answers answers' : σ → (request : Request) → request.Reply → σ → Prop}
  {state : σ}

theorem Ensures.narrow {may : σ → Request → Prop} {procedure : Procedure α} {ends : α → σ → Prop}
    (ensures : procedure.Ensures answers may state ends)
    (fewer : ∀ state request reply later, answers' state request reply later → answers state request reply later) :
    procedure.Ensures answers' (fun _ _ => True) state ends := by
  induction procedure generalizing state with
  | done value => exact ensures
  | ask request next ih =>
    exact ⟨trivial,fun reply later answered => ih reply (ensures.2 reply later (fewer _ _ _ _ answered))⟩

theorem ensures_true (procedure : Procedure α) (state : σ) :
    procedure.Ensures answers (fun _ _ => True) state fun _ _ => True := by
  induction procedure generalizing state with
  | done value => trivial
  | ask request next ih => exact ⟨trivial,fun reply later _ => ih reply later⟩

theorem Ensures.performs {may : World → Request → Prop} {procedure : Procedure α} {ends : α → World → Prop}
    (ensures : procedure.Ensures World.Answers may world ends) :
    procedure.Ensures World.Performs (fun _ _ => True) world ends :=
  ensures.narrow fun _ _ _ _ => World.Performs.answers

theorem Ensures.performed {may : World → Request → Prop} {procedure : Procedure α} {ends : α → World → Prop}
    (ensures : procedure.Ensures World.Performs may world ends) :
    ends (procedure.run world).1 (procedure.run world).2 := by
  induction procedure generalizing world with
  | done value => exact ensures
  | ask request next ih => exact ih _ (ensures.2 _ _ rfl)

end Procedure

namespace Attempt

variable {α β : Type} {world : World} {path : Path}

theorem run_bind_ok {attempt : Attempt α} {value : α} {later : World}
    (done : attempt.toProcedure.run world = (.ok value,later)) (next : α → Attempt β) :
    (attempt >>= next).toProcedure.run world = (next value).toProcedure.run later := by
  have opened := Procedure.run_bind attempt.run (ExceptT.bindCont next) world
  rw [show attempt.run.run world = _ from done] at opened
  exact opened

theorem run_bind_error {attempt : Attempt α} {failure : Failure} {later : World}
    (failed : attempt.toProcedure.run world = (.error failure,later)) (next : α → Attempt β) :
    (attempt >>= next).toProcedure.run world = (.error failure,later) := by
  have opened := Procedure.run_bind attempt.run (ExceptT.bindCont next) world
  rw [show attempt.run.run world = _ from failed] at opened
  exact opened

theorem run_bind_eq_ok {attempt : Attempt α} {next : α → Attempt β} {value : β} {later : World} :
    (attempt >>= next).toProcedure.run world = (.ok value,later) ↔ ∃ first middle,
      attempt.toProcedure.run world = (.ok first,middle) ∧ (next first).toProcedure.run middle = (.ok value,later) := by
  rcases done : attempt.toProcedure.run world with ⟨failure | first,middle⟩
  · rw [run_bind_error done]
    constructor
    · intro same
      cases same
    · rintro ⟨first,last,same,-⟩
      cases same
  · rw [run_bind_ok done]
    constructor
    · exact fun onwards => ⟨first,middle,rfl,onwards⟩
    · rintro ⟨other,last,same,onwards⟩
      cases same
      exact onwards

theorem run_lift (procedure : Procedure α) (world : World) :
    (Attempt.toProcedure (ExceptT.lift procedure)).run world = (.ok (procedure.run world).1,(procedure.run world).2) :=
  Procedure.run_bind procedure (fun value => pure (Except.ok value)) world

theorem run_asked (answer : Procedure (Except FileError α)) (failure : FileError → Failure) (world : World) :
    (ask answer failure).toProcedure.run world =
      ((answer.run world).1.mapError failure,(answer.run world).2) := by
  refine (Procedure.run_bind answer _ world).trans ?_
  cases (answer.run world).1 <;> rfl

/-- What holds at the end if the attempt succeeds. -/
def Succeeds (attempt : Attempt α) (world : World) (ends : α → World → Prop) : Prop :=
  Attempt.Ensures World.Performs (fun _ _ => True) attempt world (continues ends fun _ _ => True)

namespace Succeeds

variable {attempt : Attempt α} {ends : α → World → Prop}

theorem run (succeeds : attempt.Succeeds world ends) {value : α} {later : World}
    (done : attempt.toProcedure.run world = (.ok value,later)) : ends value later := by
  have performed := Procedure.Ensures.performed succeeds
  rw [show attempt.run.run world = _ from done] at performed
  exact performed

theorem mono (succeeds : attempt.Succeeds world ends) {wider : α → World → Prop}
    (widen : ∀ value later, ends value later → wider value later) : attempt.Succeeds world wider := by
  refine Procedure.Ensures.mono succeeds fun result later ends => ?_
  cases result with
  | error failure => trivial
  | ok value => exact widen value later ends

theorem bind (succeeds : attempt.Succeeds world ends) {next : α → Attempt β} {last : β → World → Prop}
    (onwards : ∀ value later, ends value later → (next value).Succeeds later last) :
    (attempt >>= next).Succeeds world last := by
  refine (ensures_bind attempt next _).mpr (Procedure.Ensures.mono succeeds fun result later ends => ?_)
  cases result with
  | error failure => trivial
  | ok value => exact onwards value later ends

theorem unknown (attempt : Attempt α) (world : World) : attempt.Succeeds world fun _ _ => True := by
  refine Procedure.Ensures.mono (Procedure.ensures_true _ _) fun result _ _ => ?_
  cases result <;> trivial

theorem of_pure {value : α} (holds : ends value world) : (pure value : Attempt α).Succeeds world ends := holds

theorem of_throw (failure : Failure) : (throw failure : Attempt α).Succeeds world ends := trivial

theorem of_procedure {procedure : Procedure α} (ensures : procedure.Ensures World.Performs (fun _ _ => True) world ends) :
    (liftM procedure : Attempt α).Succeeds world ends :=
  (ensures_liftM procedure _).mpr ensures

theorem of_request (request : Request) :
    (liftM (Procedure.request request) : Attempt request.Reply).Succeeds world fun reply later =>
      world.Performs request reply later :=
  of_procedure (.request trivial fun _ _ performs => performs)

theorem of_ask {answer : Procedure (Except FileError α)} {failure : FileError → Failure}
    (ensures : answer.Ensures World.Performs (fun _ _ => True) world fun result later =>
      ∀ value, result = .ok value → ends value later) : (ask answer failure).Succeeds world ends := by
  refine (ensures_ask answer failure _).mpr (Procedure.Ensures.mono ensures fun result later ends => ?_)
  cases result with
  | error cause => trivial
  | ok value => exact ends value rfl

end Succeeds

theorem succeeds_exists {kind : Disk.Kind} (found : world.disk.kind world.base path = .ok kind) :
    Succeeds (liftM (exists? path)) world fun there later => there = true ∧ world.Still later := by
  refine .of_procedure ((Procedure.ensures_bind _ _ _).mpr (.request trivial fun told later performs => ?_))
  obtain ⟨rfl,rfl⟩ := Prod.mk.inj performs
  simp only [found]
  exact ⟨rfl,.refl world⟩

theorem succeeds_ensureFolderOf (houses : world.disk.Houses world.base path) :
    (ensureFolderOf path).Succeeds world fun _ later => world.Still later := by
  rw [ensureFolderOf]
  cases around : path.parent? with
  | none => exact .of_pure (.refl world)
  | some folder =>
    dsimp only
    split
    next => exact .of_pure (.refl world)
    next filled =>
      refine (succeeds_exists (houses folder around filled)).bind ?_
      rintro there later ⟨rfl,still⟩
      exact .of_pure still

theorem succeeds_giveUp {temporary : Path} (failure : Failure) (ends : Unit → World → Prop) :
    Succeeds (do let _ ← liftM (request (.remove temporary)); throw failure) world ends :=
  (Succeeds.of_request _).bind fun _ _ _ => .of_throw failure

theorem succeeds_create (ground : world.Grounded) (failure : FileError → Failure) :
    (ask (request (.create path)) failure).Succeeds world fun _ later =>
      world.Alters path (some (.file .empty)) later := by
  refine .of_ask (.request trivial fun created later performs value done => ?_)
  rcases World.answers_create ground performs.answers with ⟨⟨cause,rfl⟩,-⟩ | ⟨-,alters⟩
  · cases done
  · exact alters

/-- A file that is replaced holds its new content, and its temporary is gone. -/
theorem succeeds_replace {content : Text} (ground : world.Grounded) (houses : world.disk.Houses world.base path) :
    (replace path content).Succeeds world fun _ later => ∃ temporary, temporary? path = some temporary ∧
      world.Becomes (Function.update (Function.update world.disk.find (temporary.place world.base) none)
        (path.place world.base) (some (.file (encodeText content)))) later := by
  rw [replace,replaceBytes]
  refine (succeeds_ensureFolderOf houses).bind fun _ first still => ?_
  have start := still.becomes ground
  cases named : temporary? path with
  | none => exact .of_throw _
  | some temporary =>
    refine (succeeds_create start.ground _).bind fun _ second created => ?_
    have empty := created.entry
    have opened := start.alters created
    refine (Succeeds.of_request _).bind fun written third performs => ?_
    rcases World.answers_write opened.ground performs.answers with ⟨⟨cause,rfl⟩,-⟩ | ⟨rfl,held,there,filled⟩
    · exact succeeds_giveUp _ _
    obtain rfl : ByteArray.empty = held := by simpa [empty] using there
    have full := filled.entry
    have written := opened.alters filled
    refine (Succeeds.of_request _).bind fun renamed fourth performs => ?_
    have apart : temporary.place third.base ≠ path.place third.base := Path.place_temporary_ne named _
    rcases World.answers_rename written.ground apart performs.answers with
      ⟨⟨cause,rfl⟩,-⟩ | ⟨rfl,entry,last,moved,taken,put⟩
    · exact succeeds_giveUp _ _
    obtain rfl : Entry.file (.empty ++ encodeText content) = entry := by simpa [full] using moved
    have done := (written.alters taken).alters put
    rw [Function.update_idem,Function.update_idem,ByteArray.empty_append] at done
    exact .of_pure ⟨temporary,rfl,done⟩

theorem ensures_copy_performed {source target : Path} (ground : world.Grounded) :
    (copy source target).Ensures World.Performs (fun _ _ => True) world fun result later =>
      (∃ cause, result = .error cause) ∧ world.Still later ∨
        result = .ok () ∧ (∃ made, world.disk.create world.base target = .ok made) ∧
          ∃ bytes, world.entry source = some (.file bytes) ∧
            world.Becomes (Function.update world.disk.find (target.place world.base) (some (.file bytes))) later := by
  rw [copy]
  refine (Procedure.ensures_bind _ _ _).mpr (.request trivial fun told first performs => ?_)
  obtain ⟨still,content⟩ := World.answers_read ground performs.answers
  obtain ⟨-,rfl⟩ := Prod.mk.inj performs
  cases told with
  | error cause => split <;> first | contradiction | exact .inl ⟨⟨_,rfl⟩,still⟩
  | ok bytes =>
    refine (Procedure.ensures_bind _ _ _).mpr (.request trivial fun created second performs => ?_)
    rcases world.change_cases (world.disk.create world.base target) with ⟨cause,-,told⟩ | ⟨disk,made,told⟩
    · cases performs.symm.trans told
      exact .inl ⟨⟨_,rfl⟩,.refl world⟩
    cases performs.symm.trans told
    have alters : world.Alters target (some (.file .empty)) { world with disk := disk } :=
      ⟨rfl,Disk.create_eq_ok ground made⟩
    have opened := alters.becomes
    refine .request trivial fun written third performs => ?_
    obtain ⟨last,filled⟩ := Disk.write_of_create ground made bytes
    rcases World.answers_write opened.ground performs.answers with ⟨⟨cause,rfl⟩,-⟩ | ⟨rfl,held,there,grown⟩
    · rw [World.Performs,World.perform,filled] at performs
      cases performs
    obtain rfl : ByteArray.empty = held := by simpa [alters.entry] using there
    have full := opened.alters grown
    rw [Function.update_idem,ByteArray.empty_append] at full
    exact .inr ⟨rfl,⟨disk,made⟩,bytes,content bytes rfl,full⟩

/-- Unless something is there already, the backup is a copy of the file. Nothing else is done. -/
theorem ensures_backUp_performed {suffix : Text} (ground : world.Grounded) :
    Attempt.Ensures World.Performs (fun _ _ => True) (backUp path suffix) world fun result later =>
      world.Still later ∧ (∀ made, result = .ok made → world.entry (backupPath path suffix) ≠ none) ∨
        world.entry (backupPath path suffix) = none ∧ ∃ bytes, world.entry path = some (.file bytes) ∧
          world.Becomes (Function.update world.disk.find ((backupPath path suffix).place world.base)
            (some (.file bytes))) later := by
  rw [backUp]
  refine (ensures_bind _ _ _).mpr ((ensures_liftM _ _).mpr ((Procedure.ensures_bind _ _ _).mpr
    (.request trivial fun told first performs => ?_)))
  obtain ⟨rfl,rfl⟩ := Prod.mk.inj performs
  cases told : world.disk.kind world.base (backupPath path suffix) with
  | ok kind =>
    obtain ⟨entry,held⟩ := Disk.kind_eq_ok ground told
    exact .inl ⟨.refl world,fun _ _ => by rw [World.entry,held]; exact Option.some_ne_none _⟩
  | error cause =>
    refine (ensures_bind _ _ _).mpr ((ensures_ask _ _ _).mpr ((ensures_copy_performed ground).mono fun result later ends => ?_))
    rcases ends with ⟨⟨failed,rfl⟩,still⟩ | ⟨rfl,⟨disk,made⟩,bytes,original,copied⟩
    · exact .inl ⟨still,fun _ done => by cases done⟩
    · exact .inr ⟨Disk.vacant_of_create ground made told,bytes,original,copied⟩

theorem succeeds_backUp {suffix : Text} (ground : world.Grounded) :
    (backUp path suffix).Succeeds world fun _ later =>
      world.entry (backupPath path suffix) ≠ none ∧ world.Still later ∨
        world.entry (backupPath path suffix) = none ∧ ∃ bytes, world.entry path = some (.file bytes) ∧
          world.Becomes (Function.update world.disk.find ((backupPath path suffix).place world.base)
            (some (.file bytes))) later := by
  refine Procedure.Ensures.mono (ensures_backUp_performed ground) fun result later ends => ?_
  cases result with
  | error failure => trivial
  | ok made => exact ends.imp_left fun ⟨still,there⟩ => ⟨there made rfl,still⟩

theorem succeeds_quiet {attempt : Attempt α} {ways : Path → Prop} (ground : world.Grounded)
    (quiet : attempt.toProcedure.Asks (Request.Quiet ways)) :
    attempt.Succeeds world fun _ later => world.Within (fun _ => False) ways later := by
  have within : attempt.toProcedure.Ensures World.Answers (fun _ _ => True) world fun _ later =>
      world.Within (fun _ => False) ways later := quiet.within ground fun _ _ => trivial
  refine Procedure.Ensures.mono within.performs fun result later within => ?_
  cases result with
  | error failure => trivial
  | ok value => exact within

theorem succeeds_still {attempt : Attempt α} (quiet : attempt.toProcedure.Asks (Request.Quiet fun _ => False)) :
    attempt.Succeeds world fun _ later => world.Still later := by
  have still : attempt.toProcedure.Ensures World.Performs (fun _ _ => True) world fun _ later => world.Still later :=
    quiet.ensures (fun _ _ _ _ => trivial)
      (fun _ request _ _ still quiet performs => still.trans (World.answers_still request quiet performs.answers)) (.refl world)
  refine Procedure.Ensures.mono still fun result later still => ?_
  cases result with
  | error failure => trivial
  | ok value => exact still

theorem succeeds_openEnd (ground : world.Grounded) (failure : FileError → Failure) :
    (ask (request (.openEnd path)) failure).Succeeds world fun _ later =>
      world.Still later ∨ world.entry path = none ∧ world.Alters path (some (.file .empty)) later :=
  .of_ask (.request trivial fun _ _ performs _ _ => World.answers_openEnd ground performs.answers)

theorem succeeds_write {bytes : ByteArray} (ground : world.Grounded) (failure : FileError → Failure) :
    (ask (request (.write path bytes)) failure).Succeeds world fun _ later =>
      ∃ held, world.entry path = some (.file held) ∧ world.Alters path (some (.file (held ++ bytes))) later := by
  refine .of_ask (.request trivial fun written later performs value done => ?_)
  rcases World.answers_write ground performs.answers with ⟨⟨cause,rfl⟩,-⟩ | ⟨-,filled⟩
  · cases done
  · exact filled

theorem succeeds_append (ground : world.Grounded) (log : Path) (event : Event) :
    (EventLog.append log event).Succeeds world fun _ later =>
      world.Logs log (encodeText (event.line ++ ['\n'])) later := by
  rw [EventLog.append]
  refine (succeeds_quiet ground (asks_ensureFolderOf log)).bind fun _ middle within => ?_
  refine (succeeds_openEnd within.ground _).bind fun _ first opened => ?_
  rcases opened with still | ⟨vacant,alters⟩
  · have same := still.becomes within.ground
    refine (succeeds_write same.ground _).mono fun _ last written => ?_
    obtain ⟨held,there,filled⟩ := written
    rw [still.entry] at there
    exact ⟨middle,held,within,.inl there,same.alters filled⟩
  · have empty := alters.entry
    have opened := alters.becomes
    refine (succeeds_write opened.ground _).mono fun _ last written => ?_
    obtain ⟨held,there,filled⟩ := written
    obtain rfl : ByteArray.empty = held := by simpa [empty] using there
    have done := opened.alters filled
    rw [Function.update_idem] at done
    exact ⟨middle,.empty,within,.inr ⟨vacant,rfl⟩,done⟩

theorem succeeds_record (ground : world.Grounded) (identity : Identity) (log : Path) (action : Action) (details : Json) :
    (EventLog.record identity log action details).Succeeds world fun _ later =>
      world.Logs log (encodeText (Event.line ⟨world.clock,action,identity.actor,details.sorted⟩ ++ ['\n'])) later := by
  rw [EventLog.record]
  refine (Succeeds.of_request _).bind fun now first performs => ?_
  obtain ⟨rfl,rfl⟩ := Prod.mk.inj performs
  exact succeeds_append ground log _

end Attempt

end StyleHoist
