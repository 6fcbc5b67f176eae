import StyleHoist.Procedure.World
import StyleHoist.Proofs.Disk.Alteration

/-! Requests that may go wrong. A request is carried out, or it is refused and
nothing is done, or it is cut short: a part of what was to be written has been
written. What each request can change is said once here. -/
namespace StyleHoist

namespace Request

/-- The answer to a request that is refused. Some requests cannot be. -/
def refusal? (reason : String) : (request : Request) → Option request.Reply
  | .workingFolder => some (.error (.other reason))
  | .kind _ => some (.error (.other reason))
  | .read _ => some (.error (.other reason))
  | .realPath _ => some (.error (.other reason))
  | .below _ => some (.error (.other reason))
  | .create _ => some (.error (.other reason))
  | .createNew _ => some (.error (.other reason))
  | .openEnd _ => some (.error (.other reason))
  | .write _ _ => some (.error (.other reason))
  | .makeFolder _ => some (.error (.other reason))
  | .rename _ _ => some (.error (.other reason))
  | .remove _ => some (.error (.other reason))
  | .clock => none
  | .print _ => none
  | .warn _ => none

/-- The requests that change no file. Folders may be made on given ways. -/
def Quiet (ways : Path → Prop) : Request → Prop
  | .makeFolder path => ways path
  | .create _ => False
  | .createNew _ => False
  | .openEnd _ => False
  | .write _ _ => False
  | .rename _ _ => False
  | .remove _ => False
  | _ => True

theorem Quiet.cases {ways : Path → Prop} {request : Request} (quiet : request.Quiet ways) :
    (∃ path, request = .makeFolder path ∧ ways path) ∨ request.Quiet fun _ => False := by
  cases request with
  | makeFolder path => exact .inl ⟨path,rfl,quiet⟩
  | _ => exact .inr quiet

end Request

namespace World

variable {world later : World} {path : Path}

inductive Answers (world : World) : (request : Request) → request.Reply → World → Prop
  | performed (request) : Answers world request (world.perform request).1 (world.perform request).2
  | refused {request} {reason} {reply} (refusal : request.refusal? reason = some reply) :
      Answers world request reply world
  | cut (path part rest reason) :
      Answers world (.write path (part ++ rest)) (.error (.other reason)) (world.perform (.write path part)).2

/-- A world in which there are no links and the working directory is a folder. -/
def Grounded (world : World) : Prop := world.disk.Grounded world.base

/-- What there is at the place of a path. -/
def entry (world : World) (path : Path) : Option Entry := world.disk.find (path.place world.base)

def Still (world later : World) : Prop := later.base = world.base ∧ later.disk = world.disk

def Alters (world : World) (path : Path) (entry : Option Entry) (later : World) : Prop :=
  later.base = world.base ∧ world.disk.Alters world.base (path.place world.base) entry later.disk

theorem Still.refl (world : World) : world.Still world := ⟨rfl,rfl⟩

theorem Still.trans {middle : World} (front : world.Still middle) (back : middle.Still later) : world.Still later :=
  ⟨back.1.trans front.1,back.2.trans front.2⟩

section

variable {reply : Except FileError Unit}

theorem change_cases (result : Except FileError Disk) :
    (∃ cause, result = .error cause ∧ world.change result = (.error cause,world)) ∨
      ∃ disk, result = .ok disk ∧ world.change result = (.ok (),{ world with disk := disk }) := by
  cases result with
  | error cause => exact .inl ⟨cause,rfl,rfl⟩
  | ok disk => exact .inr ⟨disk,rfl,rfl⟩

theorem answers_create (ground : world.Grounded) (answered : world.Answers (.create path) reply later) :
    (∃ cause, reply = .error cause) ∧ world.Still later ∨
      reply = .ok () ∧ world.Alters path (some (.file .empty)) later := by
  cases answered with
  | performed =>
    rcases world.change_cases (world.disk.create world.base path) with ⟨cause,-,told⟩ | ⟨disk,made,told⟩
    · rw [perform,told]
      exact .inl ⟨⟨cause,rfl⟩,.refl world⟩
    · rw [perform,told]
      exact .inr ⟨rfl,rfl,Disk.create_eq_ok ground made⟩
  | refused refusal =>
    cases refusal
    exact .inl ⟨⟨_,rfl⟩,.refl world⟩

theorem answers_createNew (ground : world.Grounded) (answered : world.Answers (.createNew path) reply later) :
    (∃ cause, reply = .error cause) ∧ world.Still later ∨
      reply = .ok () ∧ world.entry path = none ∧ world.Alters path (some (.file .empty)) later := by
  cases answered with
  | performed =>
    rcases world.change_cases (world.disk.createNew world.base path) with ⟨cause,-,told⟩ | ⟨disk,made,told⟩
    · rw [perform,told]
      exact .inl ⟨⟨cause,rfl⟩,.refl world⟩
    · obtain ⟨vacant,alters⟩ := Disk.createNew_eq_ok ground made
      rw [perform,told]
      exact .inr ⟨rfl,vacant,rfl,alters⟩
  | refused refusal =>
    cases refusal
    exact .inl ⟨⟨_,rfl⟩,.refl world⟩

theorem answers_openEnd (ground : world.Grounded) (answered : world.Answers (.openEnd path) reply later) :
    world.Still later ∨ world.entry path = none ∧ world.Alters path (some (.file .empty)) later := by
  cases answered with
  | performed =>
    rcases world.change_cases (world.disk.openEnd world.base path) with ⟨cause,-,told⟩ | ⟨disk,made,told⟩
    · rw [perform,told]
      exact .inl (.refl world)
    · rw [perform,told]
      exact (Disk.openEnd_eq_ok ground made).imp (fun same => ⟨rfl,same⟩) fun ⟨vacant,alters⟩ => ⟨vacant,rfl,alters⟩
  | refused refusal => exact .inl (.refl world)

theorem answers_write (ground : world.Grounded) {bytes : ByteArray}
    (answered : world.Answers (.write path bytes) reply later) :
    (∃ cause, reply = .error cause) ∧ (world.Still later ∨ ∃ held, world.Alters path (some (.file held)) later) ∨
      reply = .ok () ∧ ∃ held, world.entry path = some (.file held) ∧
        world.Alters path (some (.file (held ++ bytes))) later := by
  cases answered with
  | performed =>
    rcases world.change_cases (world.disk.write world.base path bytes) with ⟨cause,-,told⟩ | ⟨disk,made,told⟩
    · rw [perform,told]
      exact .inl ⟨⟨cause,rfl⟩,.inl (.refl world)⟩
    · obtain ⟨held,here,alters⟩ := Disk.write_eq_ok ground made
      rw [perform,told]
      exact .inr ⟨rfl,held,here,rfl,alters⟩
  | refused refusal =>
    cases refusal
    exact .inl ⟨⟨_,rfl⟩,.inl (.refl world)⟩
  | cut path part rest reason =>
    rcases world.change_cases (world.disk.write world.base path part) with ⟨cause,-,told⟩ | ⟨disk,made,told⟩
    · rw [perform,told]
      exact .inl ⟨⟨_,rfl⟩,.inl (.refl world)⟩
    · obtain ⟨held,-,alters⟩ := Disk.write_eq_ok ground made
      rw [perform,told]
      exact .inl ⟨⟨_,rfl⟩,.inr ⟨held ++ part,rfl,alters⟩⟩

theorem answers_makeFolder (ground : world.Grounded) (answered : world.Answers (.makeFolder path) reply later) :
    world.Still later ∨ world.entry path = none ∧ world.Alters path (some .folder) later := by
  cases answered with
  | performed =>
    rcases world.change_cases (world.disk.makeFolder world.base path) with ⟨cause,-,told⟩ | ⟨disk,made,told⟩
    · rw [perform,told]
      exact .inl (.refl world)
    · obtain ⟨vacant,alters⟩ := Disk.makeFolder_eq_ok ground made
      rw [perform,told]
      exact .inr ⟨vacant,rfl,alters⟩
  | refused refusal => exact .inl (.refl world)

theorem answers_rename (ground : world.Grounded) {source target : Path}
    (apart : source.place world.base ≠ target.place world.base)
    (answered : world.Answers (.rename source target) reply later) :
    (∃ cause, reply = .error cause) ∧ world.Still later ∨
      reply = .ok () ∧ ∃ entry middle, world.entry source = some entry ∧ world.Alters source none middle ∧
        middle.Alters target (some entry) later := by
  cases answered with
  | performed =>
    rcases world.change_cases (world.disk.rename world.base source target) with ⟨cause,-,told⟩ | ⟨disk,moved,told⟩
    · rw [perform,told]
      exact .inl ⟨⟨cause,rfl⟩,.refl world⟩
    · rcases Disk.rename_eq_ok ground moved with ⟨same,-⟩ | ⟨-,entry,middle,held,taken,put⟩
      · exact absurd same apart
      rw [perform,told]
      exact .inr ⟨rfl,entry,{ world with disk := middle },held,⟨rfl,taken⟩,rfl,put⟩
  | refused refusal =>
    cases refusal
    exact .inl ⟨⟨_,rfl⟩,.refl world⟩

theorem answers_rename_self (ground : world.Grounded) {source target : Path}
    (same : source.place world.base = target.place world.base)
    (answered : world.Answers (.rename source target) reply later) : world.Still later := by
  cases answered with
  | performed =>
    rcases world.change_cases (world.disk.rename world.base source target) with ⟨cause,-,told⟩ | ⟨disk,moved,told⟩
    · rw [perform,told]
      exact .refl world
    · rcases Disk.rename_eq_ok ground moved with ⟨-,rfl⟩ | ⟨apart,-⟩
      · rw [perform,told]
        exact .refl world
      · exact absurd same apart
  | refused refusal => exact .refl world

theorem read_of_answers_rename (ground : world.Grounded) {source target : Path}
    (apart : source.place world.base ≠ target.place world.base) {bytes : ByteArray}
    (held : world.entry source = some (.file bytes)) (answered : world.Answers (.rename source target) reply later)
    (done : reply = .ok ()) : later.disk.read later.base target = .ok bytes := by
  cases answered with
  | performed =>
    rcases world.change_cases (world.disk.rename world.base source target) with ⟨cause,-,told⟩ | ⟨disk,moved,told⟩
    · rw [perform,told] at done
      cases done
    · rw [perform,told]
      exact Disk.read_of_rename ground apart moved held
  | refused refusal =>
    cases refusal
    cases done

theorem answers_remove (ground : world.Grounded) (answered : world.Answers (.remove path) reply later) :
    (∃ cause, reply = .error cause) ∧ world.Still later ∨ reply = .ok () ∧ world.Alters path none later := by
  cases answered with
  | performed =>
    rcases world.change_cases (world.disk.remove world.base path) with ⟨cause,-,told⟩ | ⟨disk,gone,told⟩
    · rw [perform,told]
      exact .inl ⟨⟨cause,rfl⟩,.refl world⟩
    · rw [perform,told]
      exact .inr ⟨rfl,rfl,Disk.remove_eq_ok ground gone⟩
  | refused refusal =>
    cases refusal
    exact .inl ⟨⟨_,rfl⟩,.refl world⟩

end

theorem answers_kind (ground : world.Grounded) {reply : Except FileError Disk.Kind}
    (answered : world.Answers (.kind path) reply later) :
    world.Still later ∧ ∀ kind, reply = .ok kind → ∃ entry, world.entry path = some entry := by
  cases answered with
  | performed => exact ⟨.refl world,fun kind told => Disk.kind_eq_ok ground told⟩
  | refused refusal =>
    cases refusal
    exact ⟨.refl world,nofun⟩

theorem answers_read (ground : world.Grounded) {reply : Except FileError ByteArray}
    (answered : world.Answers (.read path) reply later) :
    world.Still later ∧ ∀ bytes, reply = .ok bytes → world.entry path = some (.file bytes) := by
  cases answered with
  | performed => exact ⟨.refl world,fun bytes told => Disk.read_eq_ok ground told⟩
  | refused refusal =>
    cases refusal
    exact ⟨.refl world,nofun⟩

theorem answers_still (request : Request) {reply : request.Reply} (quiet : request.Quiet fun _ => False)
    (answered : world.Answers request reply later) : world.Still later := by
  cases request with
  | makeFolder path => exact quiet.elim
  | create path => exact quiet.elim
  | createNew path => exact quiet.elim
  | openEnd path => exact quiet.elim
  | write path bytes => exact quiet.elim
  | rename source target => exact quiet.elim
  | remove path => exact quiet.elim
  | _ => cases answered <;> exact ⟨rfl,rfl⟩

/-- A quiet request leaves the files alone, and at most makes a folder where nothing was. -/
theorem answers_quiet (ground : world.Grounded) {ways : Path → Prop} {request : Request} {reply : request.Reply}
    (quiet : request.Quiet ways) (answered : world.Answers request reply later) :
    world.Still later ∨ ∃ path, ways path ∧ world.entry path = none ∧ world.Alters path (some .folder) later := by
  rcases quiet.cases with ⟨path,rfl,way⟩ | still
  · exact (answers_makeFolder ground answered).imp_right fun made => ⟨path,way,made⟩
  · exact .inl (answers_still request still answered)

end World

end StyleHoist
