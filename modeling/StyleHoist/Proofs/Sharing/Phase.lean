import StyleHoist.Conversion.Run
import StyleHoist.Proofs.Disk.Place
import StyleHoist.Proofs.Procedure.Sparing

/-! The protocol of runs that share a stylesheet. A phase says how far a run is
with the lock and what it knows of the files that only the holder of the lock
may change; from it follows what the run may ask for next. -/
namespace StyleHoist.Sharing

open Attempt

/-- The places of the stylesheet, its temporary and its lock. -/
def Guarded (stylesheet : Path) (base place : Place) : Prop :=
  replacing stylesheet base place ∨ (Lock.pathFor stylesheet).place base = place

abbrev Reading := Path → Except FileError ByteArray → Prop

/-- The content of a document is what its reading was answered with. -/
def Heard (told : Reading) (source : Source) : Prop :=
  ∃ content, told source.path content ∧ source.content = content.bind decodeText?

/-- Rules that a run works out from a stylesheet and from documents as it has heard them. -/
structure Planned (told : Reading) (project : Project) (css : Text)
    (added : List Binding) : Prop where
  filled : added ≠ []
  made : ∃ sources conversion, sources.stylesheet = css ∧ Sources.seed project css = .ok sources.registry ∧
    (∀ source ∈ sources.documents, Heard told source) ∧ Conversion.ofSources project sources = .ok conversion ∧
    conversion.added = added

inductive Phase where
  /-- The lock has not been asked for. -/
  | outside
  | refused
  /-- The lock is held. The stylesheet as it was read, the content of its temporary, and whether
  the one has been replaced by the other. -/
  | holding (sheet : Option Text) (draft : Option ByteArray) (written : Bool)
  /-- The lock was to be given back, and its file was removed or not. -/
  | ended (removed : Bool)

/-- What matters to the other runs. -/
inductive Mark where
  | took
  | wrote
  | gave
deriving DecidableEq

def mark? (stylesheet : Path) : (request : Request) → request.Reply → Option Mark
  | .createNew path, .ok _ => if path = Lock.pathFor stylesheet then some .took else none
  | .rename _ target, .ok _ => if target = stylesheet then some .wrote else none
  | .remove path, .ok _ => if path = Lock.pathFor stylesheet then some .gave else none
  | _, _ => none

/-- The text of a stylesheet that was read. One that does not exist is empty. -/
def sheet? : Except FileError ByteArray → Option Text
  | .ok bytes => (decodeText? bytes).toOption
  | .error .notFound => some []
  | .error _ => none

namespace Phase

def took : Phase → Bool
  | .holding _ _ _ => true
  | .ended _ => true
  | _ => false

def inside : Phase → Bool
  | .holding _ _ _ => true
  | _ => false

/-- The lock file is there because of this run. -/
def holds : Phase → Bool
  | .holding _ _ _ => true
  | .ended removed => !removed
  | _ => false

def after (stylesheet : Path) : Phase → (request : Request) → request.Reply → Phase
  | .outside, .createNew _, .ok _ => .holding none none false
  | .outside, .createNew _, .error _ => .refused
  | .holding sheet draft written, .read path, reply =>
    .holding (if path = stylesheet then sheet.or (sheet? reply) else sheet) draft written
  | .holding sheet draft written, .create path, .ok _ =>
    .holding sheet (if temporary? stylesheet = some path then some .empty else draft) written
  | .holding sheet draft written, .write path bytes, .ok _ =>
    .holding sheet (if temporary? stylesheet = some path then draft.map (· ++ bytes) else draft) written
  | .holding sheet draft written, .write path _, .error _ =>
    .holding sheet (if temporary? stylesheet = some path then none else draft) written
  | .holding sheet draft written, .rename _ target, .ok _ =>
    if target = stylesheet then .holding sheet none true else .holding sheet draft written
  | .holding sheet draft written, .remove path, reply =>
    if path = Lock.pathFor stylesheet then .ended reply.isOk
    else .holding sheet (if temporary? stylesheet = some path then none else draft) written
  | phase, _, _ => phase

/-- What a run may ask for. -/
inductive Allows (told : Reading) (project : Project) (base : Place) :
    Phase → Request → Prop
  | before {request} (quiet : request.Quiet fun folder => ¬ Guarded project.stylesheetPath base (folder.place base)) :
      Allows told project base .outside request
  | take : Allows told project base .outside (.createNew (Lock.pathFor project.stylesheetPath))
  | refused {request} (quiet : request.Quiet fun _ => False) : Allows told project base .refused request
  | ended {removed request} (quiet : request.Quiet fun _ => False) : Allows told project base (.ended removed) request
  | aside {sheet draft written request} (spares : request.Spares (Guarded project.stylesheetPath base) base)
      (other : request ≠ .read project.stylesheetPath) : Allows told project base (.holding sheet draft written) request
  | read {sheet draft written} : Allows told project base (.holding sheet draft written) (.read project.stylesheetPath)
  | note {sheet draft written} (bytes) :
      Allows told project base (.holding sheet draft written) (.write (Lock.pathFor project.stylesheetPath) bytes)
  | empty {sheet draft written temporary} (named : temporary? project.stylesheetPath = some temporary) :
      Allows told project base (.holding sheet draft written) (.create temporary)
  | fill {sheet draft written temporary} (named : temporary? project.stylesheetPath = some temporary) (bytes) :
      Allows told project base (.holding sheet draft written) (.write temporary bytes)
  | discard {sheet draft written temporary} (named : temporary? project.stylesheetPath = some temporary) :
      Allows told project base (.holding sheet draft written) (.remove temporary)
  | publish {css added temporary} (named : temporary? project.stylesheetPath = some temporary)
      (planned : Planned told project css added) :
      Allows told project base
        (.holding (some css) (some (encodeText (Stylesheet.extend css project.config.blockComment added))) false)
        (.rename temporary project.stylesheetPath)
  | release {sheet draft written} :
      Allows told project base (.holding sheet draft written) (.remove (Lock.pathFor project.stylesheetPath))

/-- How a request moves a run on, and what the others see of it. -/
inductive Turn : Phase → Option Mark → Phase → Prop
  | stays (phase) : Turn phase none phase
  | refused : Turn .outside none .refused
  | took : Turn .outside (some .took) (.holding none none false)
  | learned (sheet draft written sheet' draft') :
      Turn (.holding sheet draft written) none (.holding sheet' draft' written)
  | wrote (sheet draft draft') : Turn (.holding sheet draft false) (some .wrote) (.holding sheet draft' true)
  | gave (sheet draft written) : Turn (.holding sheet draft written) (some .gave) (.ended true)
  | kept (sheet draft written) : Turn (.holding sheet draft written) none (.ended false)

namespace Turn

variable {phase next : Phase} {mark : Option Mark}

theorem took_iff (turn : Turn phase mark next) : next.took = true ↔ phase.took = true ∨ mark = some .took := by
  cases turn <;> simp [Phase.took]

theorem gave_iff (turn : Turn phase mark next) : next = .ended true ↔ phase = .ended true ∨ mark = some .gave := by
  cases turn <;> simp

theorem holds (turn : Turn phase mark next) (held : next.holds = true) :
    phase.holds = true ∨ mark = some .took := by
  cases turn <;> simp_all [Phase.holds]

theorem eq_outside (turn : Turn phase (some .took) next) : phase = .outside := by
  cases turn
  rfl

theorem eq_holding (turn : Turn phase (some .wrote) next) : ∃ sheet draft, phase = .holding sheet draft false := by
  cases turn
  exact ⟨_,_,rfl⟩

end Turn

end Phase

open Phase

variable {told : Reading} {project : Project} {base : Place} {phase : Phase} {request : Request}
  {world later : World}

theorem guarded_lock (stylesheet : Path) (base : Place) :
    Guarded stylesheet base ((Lock.pathFor stylesheet).place base) := .inr rfl

theorem guarded_self (stylesheet : Path) (base : Place) : Guarded stylesheet base (stylesheet.place base) :=
  .inl (.inl rfl)

theorem guarded_temporary {stylesheet temporary : Path} (named : temporary? stylesheet = some temporary)
    (base : Place) : Guarded stylesheet base (temporary.place base) := .inl (.inr ⟨temporary,named,rfl⟩)

theorem quiet_unmarked {ways : Path → Prop} (quiet : request.Quiet ways) (stylesheet : Path) (phase : Phase)
    (reply : request.Reply) :
    mark? stylesheet request reply = none ∧ (phase.inside = false → phase.after stylesheet request reply = phase) := by
  cases request with
  | create path => exact quiet.elim
  | createNew path => exact quiet.elim
  | openEnd path => exact quiet.elim
  | write path bytes => exact quiet.elim
  | rename source target => exact quiet.elim
  | remove path => exact quiet.elim
  | _ =>
    refine ⟨rfl,fun outside => ?_⟩
    cases phase with
    | holding sheet draft written => cases outside
    | _ => rfl

theorem aside_unmarked {stylesheet : Path} (spares : request.Spares (Guarded stylesheet base) base)
    (other : request ≠ .read stylesheet) (sheet : Option Text) (draft : Option ByteArray) (written : Bool)
    (reply : request.Reply) : mark? stylesheet request reply = none ∧
      (Phase.holding sheet draft written).after stylesheet request reply = .holding sheet draft written := by
  have unlocked : ∀ path ∈ request.changes, path ≠ Lock.pathFor stylesheet := by
    rintro path member rfl
    exact spares _ member (guarded_lock stylesheet base)
  have unnamed : ∀ path ∈ request.changes, temporary? stylesheet ≠ some path := by
    intro path member named
    exact spares path member (guarded_temporary named base)
  have unpublished : ∀ path ∈ request.changes, path ≠ stylesheet := by
    rintro path member rfl
    exact spares _ member (guarded_self path base)
  cases request with
  | read path =>
    have apart : path ≠ stylesheet := fun same => other (same ▸ rfl)
    exact ⟨rfl,by simp [after,apart]⟩
  | create path =>
    have free := unnamed path List.mem_cons_self
    cases reply <;> simp [mark?,after,free]
  | createNew path =>
    have free := unlocked path List.mem_cons_self
    cases reply <;> simp [mark?,after,free]
  | write path bytes =>
    have free := unnamed path List.mem_cons_self
    cases reply <;> simp [mark?,after,free]
  | rename source target =>
    have free := unpublished target (List.mem_cons_of_mem _ List.mem_cons_self)
    cases reply <;> simp [mark?,after,free]
  | remove path =>
    have free := unlocked path List.mem_cons_self
    have free' := unnamed path List.mem_cons_self
    cases reply <;> simp [mark?,after,free,free']
  | _ => exact ⟨rfl,rfl⟩

theorem lock_unnamed (stylesheet : Path) : temporary? stylesheet ≠ some (Lock.pathFor stylesheet) := fun named =>
  Path.place_lock_ne_temporary named [] rfl

theorem turn_of_allows (allowed : phase.Allows told project base request) (reply : request.Reply) :
    Turn phase (mark? project.stylesheetPath request reply) (phase.after project.stylesheetPath request reply) := by
  have unnamed := lock_unnamed project.stylesheetPath
  cases allowed with
  | take =>
    cases reply with
    | error cause => exact .refused
    | ok done => simpa [mark?,after] using Turn.took
  | before quiet | refused quiet | ended quiet =>
    obtain ⟨unmarked,same⟩ := quiet_unmarked quiet project.stylesheetPath _ reply
    rw [unmarked,same rfl]
    exact .stays _
  | aside spares other =>
    obtain ⟨unmarked,same⟩ := aside_unmarked spares other _ _ _ reply
    rw [unmarked,same]
    exact .stays _
  | read => exact .learned ..
  | note | empty | fill => cases reply <;> exact .learned ..
  | discard named =>
    have apart : ∀ path, temporary? project.stylesheetPath = some path →
        path ≠ Lock.pathFor project.stylesheetPath := by
      rintro path named rfl
      exact unnamed named
    cases reply <;> simpa [mark?,after,apart _ named] using Turn.learned ..
  | publish named planned =>
    cases reply with
    | error cause => exact .stays _
    | ok done => simpa [mark?,after] using Turn.wrote ..
  | release =>
    cases reply with
    | error cause => simpa [mark?,after,Except.isOk,Except.toBool] using Turn.kept ..
    | ok done => simpa [mark?,after,Except.isOk,Except.toBool] using Turn.gave ..

theorem remove_of_ended {stylesheet : Path} {phase : Phase} {request : Request} {reply : request.Reply} {removed : Bool}
    (ended : phase.after stylesheet request reply = .ended removed) :
    phase = .ended removed ∨ request = .remove (Lock.pathFor stylesheet) := by
  cases phase with
  | holding sheet draft written =>
    cases request with
    | remove path =>
      by_cases own : path = Lock.pathFor stylesheet
      · exact .inr (own ▸ rfl)
      · simp [after,own] at ended
    | rename source target => cases reply <;> by_cases own : target = stylesheet <;> simp [after,own] at ended
    | create path => cases reply <;> cases ended
    | write path bytes => cases reply <;> cases ended
    | _ => cases ended
  | outside =>
    cases request with
    | createNew path => cases reply <;> cases ended
    | _ => cases ended
  | refused => cases ended
  | ended before => exact .inl ended
end StyleHoist.Sharing
