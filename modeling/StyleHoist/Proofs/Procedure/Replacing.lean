import StyleHoist.Procedure.Files
import StyleHoist.Proofs.Procedure.Faults
import StyleHoist.Proofs.Procedure.Logic

/-! What becomes of the files when one is replaced or backed up, whatever goes
wrong on the way. -/
namespace StyleHoist

/-- The folders around a path, the nearest first. -/
inductive Path.Above : Path → Path → Prop
  | parent {path folder} (around : path.parent? = some folder) : Above path folder
  | further {path middle folder} (around : path.parent? = some middle) (above : Above middle folder) :
      Above path folder

theorem Path.Above.eq_root {path folder : Path} (top : path.parent? = some ⟨['/']⟩) (above : path.Above folder) :
    folder = ⟨['/']⟩ := by
  have last : (⟨['/']⟩ : Path).parent? = none := rfl
  cases above with
  | parent around =>
    rw [top] at around
    exact (Option.some.inj around).symm
  | further around above =>
    rw [top] at around
    cases Option.some.inj around
    cases above with
    | parent around => simp [last] at around
    | further around above => simp [last] at around

namespace World

variable {world middle later : World} {touched wider : Place → Prop} {ways : Path → Prop} {path : Path}

/-- Worlds that differ at certain places, and otherwise by folders made on certain ways. -/
structure Within (world : World) (touched : Place → Prop) (ways : Path → Prop) (later : World) : Prop where
  base : later.base = world.base
  ground : later.Grounded
  elsewhere : ∀ place, ¬ touched place → later.disk.find place = world.disk.find place ∨
    (∃ folder, ways folder ∧ folder.place world.base = place) ∧ world.disk.find place = none ∧
      later.disk.find place = some .folder

theorem Within.refl (ground : world.Grounded) (touched : Place → Prop) (ways : Path → Prop) :
    world.Within touched ways world :=
  ⟨rfl,ground,fun _ _ => .inl rfl⟩

theorem Within.trans (front : world.Within touched ways middle) (back : middle.Within touched ways later) :
    world.Within touched ways later where
  base := back.base.trans front.base
  ground := back.ground
  elsewhere := by
    intro place free
    rcases front.elsewhere place free with same | ⟨way,vacant,folder⟩
    · rcases back.elsewhere place free with same' | ⟨way,vacant,folder⟩
      · exact .inl (same'.trans same)
      · exact .inr ⟨front.base ▸ way,same ▸ vacant,folder⟩
    · rcases back.elsewhere place free with same | ⟨-,vacant',-⟩
      · exact .inr ⟨way,vacant,same.trans folder⟩
      · rw [folder] at vacant'
        cases vacant'

theorem Within.widen (within : world.Within touched ways later) {more : Path → Prop}
    (wide : ∀ place, touched place → wider place) (further : ∀ folder, ways folder → more folder) :
    world.Within wider more later where
  base := within.base
  ground := within.ground
  elsewhere := by
    intro place free
    refine (within.elsewhere place fun inside => free (wide place inside)).imp_right fun ⟨way,made⟩ => ⟨?_,made⟩
    obtain ⟨folder,on,same⟩ := way
    exact ⟨folder,further folder on,same⟩

theorem Still.within (still : world.Still later) (ground : world.Grounded) : world.Within touched ways later where
  base := still.1
  ground := by
    rw [Grounded,still.1,still.2]
    exact ground
  elsewhere := fun _ _ => .inl (by rw [still.2])

theorem Still.entry (still : world.Still later) (path : Path) : later.entry path = world.entry path := by
  rw [World.entry,World.entry,still.1,still.2]

theorem Alters.within {entry : Option Entry} (alters : world.Alters path entry later)
    (inside : touched (path.place world.base)) : world.Within touched ways later where
  base := alters.1
  ground := by
    rw [Grounded,alters.1]
    exact alters.2.ground
  elsewhere := fun place free => .inl (alters.2.elsewhere place fun same => free (same ▸ inside))

theorem Alters.entry {entry : Option Entry} (alters : world.Alters path entry later) :
    later.entry path = entry := by
  rw [World.entry,alters.1,alters.2.here]

theorem Alters.entry_of_ne {entry : Option Entry} (alters : world.Alters path entry later) {other : Path}
    (apart : other.place world.base ≠ path.place world.base) : later.entry other = world.entry other := by
  rw [World.entry,World.entry,alters.1,alters.2.elsewhere _ apart]

theorem Within.entry (within : world.Within touched ways later) (free : ¬ touched (path.place world.base))
    (aside : ∀ folder, ways folder → folder.place world.base ≠ path.place world.base) :
    later.entry path = world.entry path := by
  rw [World.entry,World.entry,within.base]
  rcases within.elsewhere _ free with same | ⟨⟨folder,way,same⟩,-⟩
  · exact same
  · exact absurd same (aside folder way)

theorem Within.still (within : world.Within touched ways middle) (still : middle.Still later) :
    world.Within touched ways later :=
  within.trans (still.within within.ground)

theorem Within.alters (within : world.Within touched ways middle) {entry : Option Entry}
    (alters : middle.Alters path entry later) (inside : touched (path.place world.base)) :
    world.Within touched ways later :=
  within.trans (alters.within (within.base ▸ inside))

theorem Within.aside (within : world.Within touched ways middle) {entry : Option Entry}
    (alters : middle.Alters path entry later) {other : Path}
    (apart : other.place world.base ≠ path.place world.base) : later.entry other = middle.entry other :=
  alters.entry_of_ne (by rw [within.base]; exact apart)

theorem answers_quiet_within (ground : world.Grounded) {request : Request} {reply : request.Reply}
    (quiet : request.Quiet ways) (answered : world.Answers request reply later) :
    world.Within touched ways later := by
  rcases answers_quiet ground quiet answered with still | ⟨path,way,vacant,alters⟩
  · exact still.within ground
  · have around : world.Within (path.place world.base = ·) ways later := alters.within rfl
    refine ⟨around.base,around.ground,fun place _ => ?_⟩
    by_cases same : place = path.place world.base
    · exact .inr ⟨⟨path,way,same.symm⟩,same ▸ vacant,same ▸ alters.2.here⟩
    · exact .inl (alters.2.elsewhere place same)

end World

namespace Procedure

variable {α : Type} {world : World} {safe : World → Prop} {ways : Path → Prop}

theorem Asks.within {procedure : Procedure α} (quiet : procedure.Asks (Request.Quiet ways))
    (ground : world.Grounded) (kept : ∀ later, world.Within (fun _ => False) ways later → safe later) :
    procedure.Ensures World.Answers (fun state _ => safe state) world fun _ later =>
      world.Within (fun _ => False) ways later := by
  refine quiet.ensures ?_ ?_ (.refl ground _ _)
  · intro state request within _
    exact kept state within
  · intro state request reply later within quiet answered
    exact within.trans (World.answers_quiet_within within.ground quiet answered)

theorem ensures_say {line : String} {ends : Unit → World → Prop} (allowed : safe world)
    (onwards : ∀ later, world.Still later → ends () later) :
    (say line).Ensures World.Answers (fun state _ => safe state) world ends := by
  refine .request allowed fun _ later answered => onwards later ?_
  cases answered with
  | performed => exact ⟨rfl,rfl⟩
  | refused refusal => cases refusal

theorem Ensures.run {may : World → Request → Prop} {procedure : Procedure α} {ends : α → World → Prop}
    (ensures : procedure.Ensures World.Answers may world ends) :
    ends (procedure.run world).1 (procedure.run world).2 := by
  induction procedure generalizing world with
  | done value => exact ensures
  | ask request next ih => exact ih _ (ensures.2 _ _ (.performed request))

theorem reaches_run (procedure : Procedure α) (world : World) :
    procedure.Reaches World.Answers world (procedure.run world).2 := by
  induction procedure generalizing world with
  | done value => exact .here _ _
  | ask request next ih => exact .onwards request (.performed request) (ih _ _)

theorem asks_isFolder (path : Path) : (isFolder? path).Asks (Request.Quiet ways) := by
  refine (ensures_bind _ _ _).mpr (.request trivial fun reply _ _ => ?_)
  split <;> trivial

theorem asks_exists (path : Path) : (exists? path).Asks (Request.Quiet ways) := by
  refine (ensures_bind _ _ _).mpr (.request trivial fun reply _ _ => ?_)
  split <;> trivial

theorem asks_makeFolders {fuel : Nat} {folder : Path} (own : ways folder)
    (above : ∀ other, folder.Above other → ways other) : (makeFolders fuel folder).Asks (Request.Quiet ways) := by
  induction fuel generalizing folder with
  | zero => trivial
  | succ fuel ih =>
    rw [makeFolders]
    split
    · trivial
    refine (ensures_bind _ _ _).mpr (.request own fun reply _ _ => ?_)
    split
    · trivial
    · cases around : folder.parent? with
      | none => trivial
      | some parent =>
        have onwards := ih (above parent (.parent around)) fun other higher => above other (.further around higher)
        refine (ensures_bind _ _ _).mpr (onwards.mono fun reply _ _ => ?_)
        split
        · trivial
        · refine (ensures_bind _ _ _).mpr (.request own fun reply _ _ => ?_)
          split
          · trivial
          · refine (ensures_bind _ _ _).mpr ((asks_isFolder folder).mono fun found _ _ => ?_)
            split <;> trivial
    · refine (ensures_bind _ _ _).mpr ((asks_isFolder folder).mono fun found _ _ => ?_)
      split <;> trivial

end Procedure

namespace Attempt

open Procedure

variable {world : World} {safe : World → Prop} {path : Path}

theorem asks_ensureFolderOf (path : Path) : (ensureFolderOf path).toProcedure.Asks (Request.Quiet path.Above) := by
  rw [Asks,ensures_toProcedure,ensureFolderOf]
  cases around : path.parent? with
  | none => trivial
  | some folder =>
    dsimp only
    split
    · trivial
    · simp only [ensures_bind,ensures_liftM]
      refine (asks_exists folder).mono fun found _ _ => ?_
      rw [continues_ok]
      split
      · trivial
      · simp only [ensures_ask]
        exact asks_makeFolders (.parent around) fun other above => .further around above

section

variable {σ : Type} {answers : σ → (request : Request) → request.Reply → σ → Prop} {may : σ → Request → Prop}
  {state : σ} {bytes : ByteArray} {ends : Except Failure Unit → σ → Prop}

/-- What holds at each point of replacing a file: once its folder is there, once there is an empty
temporary beside it, once the temporary is full, while there is a temporary that is of no use, and
once the attempt has failed. -/
structure Course (σ : Type) where
  folders : σ → Prop
  empty : Path → σ → Prop
  full : Path → σ → Prop
  littered : Path → σ → Prop
  failed : σ → Prop

theorem ensures_replaceBytes (course : Course σ)
    (fails : ∀ failure later, course.failed later → ends (.error failure) later)
    (folder : Attempt.Ensures answers may (ensureFolderOf path) state
      (continues (fun _ => course.folders) fun _ => course.failed))
    (unnamed : temporary? path = none → ∀ later, course.folders later → course.failed later)
    (create : ∀ temporary, temporary? path = some temporary → ∀ later, course.folders later →
      (request (.create temporary)).Ensures answers may later fun
        | .ok _ => course.empty temporary
        | .error _ => course.failed)
    (write : ∀ temporary, temporary? path = some temporary → ∀ later, course.empty temporary later →
      (request (.write temporary bytes)).Ensures answers may later fun
        | .ok _ => course.full temporary
        | .error _ => course.littered temporary)
    (rename : ∀ temporary, temporary? path = some temporary → ∀ later, course.full temporary later →
      (request (.rename temporary path)).Ensures answers may later fun
        | .ok _ => ends (.ok ())
        | .error _ => course.littered temporary)
    (remove : ∀ temporary, temporary? path = some temporary → ∀ later, course.littered temporary later →
      (request (.remove temporary)).Ensures answers may later fun _ => course.failed) :
    Attempt.Ensures answers may (replaceBytes path bytes) state ends := by
  rw [replaceBytes,ensures_bind]
  refine folder.mono fun made first ready => ?_
  cases made with
  | error failure => exact fails failure first ready
  | ok done =>
    rw [continues_ok] at ready ⊢
    cases named : temporary? path with
    | none => exact fails _ first (unnamed named first ready)
    | some temporary =>
      have giveUp (failure : Failure) (later : σ) (litter : course.littered temporary later) : Attempt.Ensures answers may
          (do let _ ← liftM (request (.remove temporary)); throw failure) later ends := by
        rw [ensures_bind,ensures_liftM]
        exact (remove temporary named later litter).mono fun _ last => fails failure last
      dsimp only
      rw [ensures_bind,ensures_ask]
      refine (create temporary named first ready).mono fun created second begun => ?_
      cases created with
      | error cause => exact fails _ second begun
      | ok done =>
        simp only [Except.mapError,continues_ok]
        rw [ensures_bind,ensures_liftM]
        refine (write temporary named second begun).mono fun written third ended => ?_
        cases written with
        | error cause => exact giveUp _ third ended
        | ok done =>
          rw [continues_ok,ensures_bind,ensures_liftM]
          refine (rename temporary named third ended).mono fun renamed fourth replaced => ?_
          cases renamed with
          | error cause => exact giveUp _ fourth replaced
          | ok done => exact replaced

end

/-- The places at which a file is replaced: its own and that of its temporary. -/
def replacing (path : Path) (base place : Place) : Prop :=
  path.place base = place ∨ ∃ temporary, temporary? path = some temporary ∧ temporary.place base = place

/-- Not more than the temporary of a file has changed, but for folders made on the way to it. -/
structure Untouched (path : Path) (world later : World) : Prop where
  within : world.Within (replacing path world.base) path.Above later
  same : later.entry path = world.entry path

namespace Untouched

variable {middle later : World} {temporary : Path} {entry : Option Entry}

theorem of_folders (aside : ∀ folder, path.Above folder → folder.place world.base ≠ path.place world.base)
    (within : world.Within (fun _ => False) path.Above later) : Untouched path world later :=
  ⟨within.widen (fun _ => False.elim) fun _ => id,within.entry id aside⟩

theorem still (untouched : Untouched path world middle) (still : middle.Still later) : Untouched path world later :=
  ⟨untouched.within.still still,(still.entry path).trans untouched.same⟩

theorem beside (untouched : Untouched path world middle) (named : temporary? path = some temporary)
    (apart : temporary.place world.base ≠ path.place world.base) (alters : middle.Alters temporary entry later) :
    Untouched path world later :=
  ⟨untouched.within.alters alters (.inr ⟨temporary,named,rfl⟩),
    (untouched.within.aside alters apart.symm).trans untouched.same⟩

end Untouched

/-- Up to the last request the file is left alone, and only its temporary changes. -/
def untouchedUntil (path : Path) (content : Text) (world : World) : Course World where
  folders := Untouched path world
  empty temporary later := Untouched path world later ∧ later.entry temporary = some (.file .empty)
  full temporary later := Untouched path world later ∧ later.entry temporary = some (.file (encodeText content))
  littered _ := Untouched path world
  failed := Untouched path world

/-- While a file is replaced it is as before or as it is to be. It is as it is to be exactly when
the attempt succeeds. -/
theorem ensures_replace {content : Text} (ground : world.Grounded)
    (aside : ∀ folder, path.Above folder → folder.place world.base ≠ path.place world.base)
    (apart : ∀ temporary, temporary? path = some temporary → temporary.place world.base ≠ path.place world.base)
    (kept : ∀ later, world.Within (replacing path world.base) path.Above later →
      later.entry path = world.entry path ∨ later.entry path = some (.file (encodeText content)) → safe later) :
    Attempt.Ensures World.Answers (fun state _ => safe state) (replace path content) world fun result later =>
      world.Within (replacing path world.base) path.Above later ∧
        match result with
        | .ok _ => later.entry path = some (.file (encodeText content))
        | .error _ => later.entry path = world.entry path := by
  have allowed (later : World) (untouched : Untouched path world later) : safe later :=
    kept later untouched.within (.inl untouched.same)
  refine ensures_replaceBytes (untouchedUntil path content world) (fun _ _ untouched => ⟨untouched.within,untouched.same⟩) ?folder (fun _ _ => id) ?create ?write ?rename ?remove
  case folder =>
    refine ((asks_ensureFolderOf path).within ground fun later within => ?_).mono fun made first within => ?_
    · exact allowed later (.of_folders aside within)
    · cases made <;> exact .of_folders aside within
  case create =>
    intro temporary named first untouched
    refine .request (allowed first untouched) fun created second answered => ?_
    rcases World.answers_create untouched.within.ground answered with ⟨⟨cause,rfl⟩,stays⟩ | ⟨rfl,alters⟩
    · exact untouched.still stays
    · exact ⟨untouched.beside named (apart temporary named) alters,alters.entry⟩
  case write =>
    rintro temporary named second ⟨untouched,empty⟩
    refine .request (allowed second untouched) fun written third answered => ?_
    rcases World.answers_write untouched.within.ground answered with
      ⟨⟨cause,rfl⟩,stays | ⟨bytes,alters⟩⟩ | ⟨rfl,held,there,alters⟩
    · exact untouched.still stays
    · exact untouched.beside named (apart temporary named) alters
    · obtain rfl : ByteArray.empty = held := by simpa [empty] using there
      exact ⟨untouched.beside named (apart temporary named) alters,by simp [alters.entry]⟩
  case rename =>
    rintro temporary named third ⟨untouched,full⟩
    refine .request (allowed third untouched) fun renamed fourth answered => ?_
    have other : temporary.place third.base ≠ path.place third.base := by
      rw [untouched.within.base]
      exact apart temporary named
    rcases World.answers_rename untouched.within.ground other answered with
      ⟨⟨cause,rfl⟩,stays⟩ | ⟨rfl,entry,middle,held,taken,put⟩
    · exact untouched.still stays
    · have moved := (untouched.within.alters taken (.inr ⟨temporary,named,rfl⟩)).alters put (.inl rfl)
      exact ⟨moved,by rw [put.entry,← held,full]⟩
  case remove =>
    intro temporary named later untouched
    refine .request (allowed later untouched) fun reply last answered => ?_
    rcases World.answers_remove untouched.within.ground answered with ⟨-,stays⟩ | ⟨-,alters⟩
    · exact untouched.still stays
    · exact untouched.beside named (apart temporary named) alters

section

variable {source target : Path}

theorem ensures_copy (ground : world.Grounded)
    (kept : ∀ later, world.Within (target.place world.base = ·) (fun _ => False) later → safe later) :
    (copy source target).Ensures World.Answers (fun state _ => safe state) world fun result later =>
      world.Within (target.place world.base = ·) (fun _ => False) later ∧
        (result = .ok () → ∃ bytes, world.entry source = some (.file bytes) ∧
          later.entry target = some (.file bytes)) := by
  have start := World.Within.refl ground (target.place world.base = ·) (fun _ => False)
  rw [copy,Procedure.ensures_bind]
  refine .request (kept world start) fun told first answered => ?_
  obtain ⟨still,content⟩ := World.answers_read ground answered
  have within := start.still still
  cases told with
  | error cause =>
    split
    next => exact ⟨within,nofun⟩
    next => exact ⟨within,nofun⟩
    next => contradiction
  | ok bytes =>
    rw [Procedure.ensures_bind]
    refine .request (kept first within) fun created second answered => ?_
    rcases World.answers_create within.ground answered with ⟨⟨cause,rfl⟩,still⟩ | ⟨rfl,alters⟩
    · exact ⟨within.still still,nofun⟩
    have empty := alters.entry
    replace within := within.alters alters rfl
    refine .request (kept second within) fun written third answered => ?_
    rcases World.answers_write within.ground answered with ⟨⟨cause,rfl⟩,partly⟩ | ⟨rfl,held,there,alters⟩
    · refine ⟨?_,nofun⟩
      rcases partly with still | ⟨part,alters⟩
      · exact within.still still
      · exact within.alters alters rfl
    · obtain rfl : ByteArray.empty = held := by simpa [empty] using there
      refine ⟨within.alters alters rfl,fun _ => ⟨bytes,content bytes rfl,?_⟩⟩
      rw [alters.entry]
      simp

theorem ensures_backUp {suffix : Text} (ground : world.Grounded)
    (kept : ∀ later, world.Within ((backupPath path suffix).place world.base = ·) (fun _ => False) later → safe later) :
    Attempt.Ensures World.Answers (fun state _ => safe state) (backUp path suffix) world fun result later =>
      world.Within ((backupPath path suffix).place world.base = ·) (fun _ => False) later ∧
        ∀ made, result = .ok made → (∃ entry, later.entry (backupPath path suffix) = some entry) ∧
          (world.entry (backupPath path suffix) = none →
            later.entry (backupPath path suffix) = world.entry path) := by
  have start := World.Within.refl ground ((backupPath path suffix).place world.base = ·) (fun _ => False)
  rw [backUp]
  simp only [ensures_bind,ensures_liftM]
  refine (Procedure.ensures_bind _ _ _).mpr (.request (kept world start) fun told first answered => ?_)
  obtain ⟨still,there⟩ := World.answers_kind ground answered
  have within := start.still still
  cases told with
  | ok kind =>
    obtain ⟨entry,held⟩ := there kind rfl
    refine ⟨within,fun _ _ => ⟨⟨entry,(still.entry _).trans held⟩,fun vacant => ?_⟩⟩
    rw [held] at vacant
    cases vacant
  | error cause =>
    dsimp only
    simp only [Procedure.ensures_pure,continues_ok,Bool.false_eq_true,if_false,ensures_bind,ensures_ask]
    have onwards : ∀ later, first.Within ((backupPath path suffix).place first.base = ·) (fun _ => False) later →
        world.Within ((backupPath path suffix).place world.base = ·) (fun _ => False) later := by
      rw [within.base]
      exact fun later => within.trans
    refine (ensures_copy within.ground fun later rest => kept later (onwards later rest)).mono ?_
    rintro copied later ⟨rest,content⟩
    cases copied with
    | error cause => exact ⟨onwards later rest,fun made failed => by cases failed⟩
    | ok done =>
      obtain ⟨bytes,original,copy⟩ := content rfl
      refine ⟨onwards later rest,fun _ _ => ⟨⟨_,copy⟩,fun _ => ?_⟩⟩
      rw [copy,← original,still.entry]

end

end Attempt

end StyleHoist
