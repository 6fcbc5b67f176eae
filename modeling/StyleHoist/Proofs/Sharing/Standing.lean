import StyleHoist.Proofs.Sharing.Phase

/-! What a run in some phase may take for granted about the files, and how the
stylesheet grows by the step of a run. -/
namespace StyleHoist

open Attempt Sharing

namespace World

variable {world later : World} {stylesheet : Path} {css : Text} {guarded : Place → Prop}

/-- The text of the stylesheet, which is empty where there is none. -/
def Stands (stylesheet : Path) (css : Text) (world : World) : Prop :=
  world.disk.read world.base stylesheet = .ok (encodeText css) ∨ world.entry stylesheet = none ∧ css = []

theorem Stands.spared (stands : world.Stands stylesheet css) (ground : world.Grounded)
    (spared : world.Spared guarded later) (inside : guarded (stylesheet.place world.base)) :
    later.Stands stylesheet css := by
  refine stands.imp (fun told => ?_) fun ⟨vacant,empty⟩ => ⟨(spared.entry inside).trans vacant,empty⟩
  have next := spared.ground
  rw [Grounded,spared.base] at next
  rw [spared.base]
  exact Disk.read_kept ground next spared.folders (spared.same _ inside) told

theorem Stands.sheet (stands : world.Stands stylesheet css) (ground : world.Grounded)
    {reply : Except FileError ByteArray} (answered : world.Answers (.read stylesheet) reply later) {text : Text}
    (known : sheet? reply = some text) : text = css := by
  obtain ⟨-,there⟩ := answers_read ground answered
  rcases stands with told | ⟨vacant,rfl⟩
  · cases answered with
    | performed =>
      rw [perform,told,sheet?,decodeText?_encodeText] at known
      exact (Option.some.inj known).symm
    | refused refusal =>
      cases refusal
      cases known
  · cases reply with
    | ok bytes =>
      have held := there bytes rfl
      rw [vacant] at held
      cases held
    | error cause =>
      cases cause with
      | notFound => exact (Option.some.inj known).symm
      | _ => cases known

end World

namespace Sharing

variable {told : Reading} {project : Project} {css : Text} {phase : Phase} {request : Request}
  {reply : request.Reply} {world later : World} {stylesheet : Path}

/-- While a run holds the lock its file is there, the stylesheet is still what it was when it was
read, and the temporary is what was written. -/
def Phase.Fits (stylesheet : Path) (css : Text) (world : World) : Phase → Prop
  | .holding sheet draft written =>
    (∃ entry, world.entry (Lock.pathFor stylesheet) = some entry) ∧
      (written = false → ∀ text, sheet = some text → text = css) ∧
      ∀ bytes, draft = some bytes → ∃ temporary, temporary? stylesheet = some temporary ∧
        world.entry temporary = some (.file bytes)
  | .ended false => ∃ entry, world.entry (Lock.pathFor stylesheet) = some entry
  | _ => True

theorem Phase.Fits.spared (fits : phase.Fits stylesheet css world)
    (spared : world.Spared (Guarded stylesheet world.base) later) : phase.Fits stylesheet css later := by
  have lock := spared.entry (guarded_lock stylesheet world.base)
  cases phase with
  | holding sheet draft written =>
    obtain ⟨locked,read,drafted⟩ := fits
    refine ⟨lock ▸ locked,read,fun bytes known => ?_⟩
    obtain ⟨temporary,named,held⟩ := drafted bytes known
    exact ⟨temporary,named,(spared.entry (guarded_temporary named world.base)).trans held⟩
  | ended removed =>
    cases removed with
    | false =>
      rw [Phase.Fits,lock]
      exact fits
    | true => trivial
  | _ => trivial

theorem Phase.Fits.locked (fits : phase.Fits stylesheet css world) (held : phase.holds = true) :
    ∃ entry, world.entry (Lock.pathFor stylesheet) = some entry := by
  cases phase with
  | holding sheet draft written => exact fits.1
  | ended removed =>
    cases removed with
    | false => exact fits
    | true => cases held
  | _ => cases held

theorem Phase.fits_of_free (free : phase.holds = false) : phase.Fits stylesheet css world := by
  cases phase with
  | holding sheet draft written => cases free
  | ended removed =>
    cases removed with
    | false => cases free
    | true => trivial
  | _ => trivial

/-- How the text of the stylesheet goes on after a step. -/
inductive Gains (told : Reading) (project : Project) (css : Text) : Option Mark → Text → Prop
  | same {mark} (unwritten : mark ≠ some .wrote) : Gains told project css mark css
  | wrote {added} (planned : Planned told project css added) :
      Gains told project css (some .wrote) (Stylesheet.extend css project.config.blockComment added)

theorem gains_of_unmarked {mark : Option Mark} (unmarked : mark = none) : Gains told project css mark css :=
  .same (unmarked ▸ (Option.some_ne_none _).symm)

/-- The stylesheet goes on by what the answer makes of it, and the run knows what it may. -/
def Leads (told : Reading) (project : Project) (css : Text) (phase : Phase) (request : Request)
    (reply : request.Reply) (later : World) : Prop :=
  ∃ next, later.Stands project.stylesheetPath next ∧
    (phase.after project.stylesheetPath request reply).Fits project.stylesheetPath next later ∧
    Gains told project css (mark? project.stylesheetPath request reply) next

section

variable (ground : world.Grounded) (stands : world.Stands project.stylesheetPath css)

include ground stands

theorem leads_of_spared (fits : phase.Fits project.stylesheetPath css world)
    (unmarked : mark? project.stylesheetPath request reply = none)
    (same : phase.after project.stylesheetPath request reply = phase)
    (spared : world.Spared (Guarded project.stylesheetPath world.base) later) :
    Leads told project css phase request reply later := by
  refine ⟨css,stands.spared ground spared (guarded_self ..),?_,gains_of_unmarked unmarked⟩
  rw [same]
  exact fits.spared spared

theorem leads_of_quiet {ways : Path → Prop} (quiet : request.Quiet ways)
    (clear : ∀ folder, ways folder → ¬ Guarded project.stylesheetPath world.base (folder.place world.base))
    (outside : phase.inside = false) (fits : phase.Fits project.stylesheetPath css world)
    (answered : world.Answers request reply later) : Leads told project css phase request reply later := by
  obtain ⟨unmarked,same⟩ := quiet_unmarked quiet project.stylesheetPath phase reply
  exact leads_of_spared ground stands fits unmarked (same outside)
    (World.answers_spared ground (quiet.spares clear) answered)

theorem leads_of_take {reply : Except FileError Unit}
    (answered : world.Answers (.createNew (Lock.pathFor project.stylesheetPath)) reply later) :
    Leads told project css .outside (.createNew (Lock.pathFor project.stylesheetPath)) reply later := by
  have spared := World.answers_spared_others ground answered rfl
  have stands' := stands.spared ground spared (Path.place_lock_ne _ _).symm
  rcases World.answers_createNew ground answered with ⟨⟨cause,rfl⟩,-⟩ | ⟨rfl,-,alters⟩
  · exact ⟨css,stands',trivial,gains_of_unmarked rfl⟩
  · refine ⟨css,stands',⟨⟨_,alters.entry⟩,by simp,by simp⟩,.same ?_⟩
    simp [mark?]

variable {sheet : Option Text} {draft : Option ByteArray} {written : Bool}

section

variable (fits : (Phase.holding sheet draft written).Fits project.stylesheetPath css world)

include fits

theorem leads_of_read {reply : Except FileError ByteArray}
    (answered : world.Answers (.read project.stylesheetPath) reply later) :
    Leads told project css (.holding sheet draft written) (.read project.stylesheetPath) reply later := by
  obtain ⟨still,-⟩ := World.answers_read ground answered
  have spared : world.Spared (Guarded project.stylesheetPath world.base) later := still.spared ground
  obtain ⟨locked,read,drafted⟩ := fits.spared spared
  refine ⟨css,stands.spared ground spared (guarded_self ..),⟨locked,fun fresh text known => ?_,drafted⟩,
    gains_of_unmarked rfl⟩
  cases sheet with
  | some old => exact read fresh text (by simpa using known)
  | none => exact stands.sheet ground answered (by simpa using known)

theorem leads_of_note {bytes : ByteArray} {reply : Except FileError Unit}
    (answered : world.Answers (.write (Lock.pathFor project.stylesheetPath) bytes) reply later) :
    Leads told project css (.holding sheet draft written) (.write (Lock.pathFor project.stylesheetPath) bytes) reply
      later := by
  have spared := World.answers_spared_others ground answered rfl
  have unnamed := lock_unnamed project.stylesheetPath
  obtain ⟨⟨entry,locked⟩,read,drafted⟩ := fits
  have unmarked : mark? project.stylesheetPath (.write (Lock.pathFor project.stylesheetPath) bytes) reply = none := by
    cases reply <;> rfl
  have same : (Phase.holding sheet draft written).after project.stylesheetPath
      (.write (Lock.pathFor project.stylesheetPath) bytes) reply = .holding sheet draft written := by
    cases reply <;> simp [Phase.after,unnamed]
  have there : ∃ entry, later.entry (Lock.pathFor project.stylesheetPath) = some entry := by
    rcases World.answers_write ground answered with ⟨-,still | ⟨held,alters⟩⟩ | ⟨-,held,-,alters⟩
    · exact ⟨entry,(still.entry _).trans locked⟩
    · exact ⟨_,alters.entry⟩
    · exact ⟨_,alters.entry⟩
  refine ⟨css,stands.spared ground spared (Path.place_lock_ne _ _).symm,?_,gains_of_unmarked unmarked⟩
  rw [same]
  refine ⟨there,read,fun bytes known => ?_⟩
  obtain ⟨temporary,named,held⟩ := drafted bytes known
  exact ⟨temporary,named,(spared.entry (Path.place_lock_ne_temporary named _).symm).trans held⟩

theorem leads_of_release {reply : Except FileError Unit}
    (answered : world.Answers (.remove (Lock.pathFor project.stylesheetPath)) reply later) :
    Leads told project css (.holding sheet draft written) (.remove (Lock.pathFor project.stylesheetPath)) reply
      later := by
  have spared := World.answers_spared_others ground answered rfl
  have stands' := stands.spared ground spared (Path.place_lock_ne _ _).symm
  rcases World.answers_remove ground answered with ⟨⟨cause,rfl⟩,still⟩ | ⟨rfl,-⟩
  · refine ⟨css,stands',?_,gains_of_unmarked rfl⟩
    rw [Phase.after,if_pos rfl]
    exact fits.1.imp fun entry => (still.entry _).trans
  · refine ⟨css,stands',?_,.same (by simp [mark?])⟩
    rw [Phase.after,if_pos rfl]
    trivial

variable {temporary : Path} (named : temporary? project.stylesheetPath = some temporary)

include named

theorem leads_of_draft {known : Option ByteArray} (unmarked : mark? project.stylesheetPath request reply = none)
    (next : (Phase.holding sheet draft written).after project.stylesheetPath request reply =
      .holding sheet known written) (spared : world.Spared (· ≠ temporary.place world.base) later)
    (held : ∀ bytes, known = some bytes → later.entry temporary = some (.file bytes)) :
    Leads told project css (.holding sheet draft written) request reply later := by
  have own := (Path.place_temporary_ne named world.base).symm
  have lock := spared.entry (Path.place_lock_ne_temporary named world.base)
  obtain ⟨locked,read,-⟩ := fits
  refine ⟨css,stands.spared ground spared own,?_,gains_of_unmarked unmarked⟩
  rw [next]
  exact ⟨lock ▸ locked,read,fun bytes some => ⟨temporary,named,held bytes some⟩⟩

theorem leads_of_empty {reply : Except FileError Unit} (answered : world.Answers (.create temporary) reply later) :
    Leads told project css (.holding sheet draft written) (.create temporary) reply later := by
  have spared := World.answers_spared_others ground answered rfl
  rcases World.answers_create ground answered with ⟨⟨cause,rfl⟩,still⟩ | ⟨rfl,alters⟩
  · refine leads_of_draft ground stands fits named rfl rfl spared fun bytes known => ?_
    obtain ⟨other,same,held⟩ := fits.2.2 bytes known
    cases named.symm.trans same
    exact (still.entry temporary).trans held
  · refine leads_of_draft ground stands fits named rfl rfl spared fun bytes known => ?_
    rw [if_pos named] at known
    cases known
    exact alters.entry

theorem leads_of_fill {bytes : ByteArray} {reply : Except FileError Unit}
    (answered : world.Answers (.write temporary bytes) reply later) :
    Leads told project css (.holding sheet draft written) (.write temporary bytes) reply later := by
  have spared := World.answers_spared_others ground answered rfl
  rcases World.answers_write ground answered with ⟨⟨cause,rfl⟩,-⟩ | ⟨rfl,held,there,alters⟩
  · refine leads_of_draft ground stands fits named rfl rfl spared fun bytes known => ?_
    rw [if_pos named] at known
    cases known
  · refine leads_of_draft ground stands fits named rfl rfl spared fun content known => ?_
    rw [if_pos named,Option.map_eq_some_iff] at known
    obtain ⟨old,drafted,rfl⟩ := known
    obtain ⟨other,same,before⟩ := fits.2.2 old drafted
    cases named.symm.trans same
    cases there.symm.trans before
    exact alters.entry

theorem leads_of_discard {reply : Except FileError Unit} (answered : world.Answers (.remove temporary) reply later) :
    Leads told project css (.holding sheet draft written) (.remove temporary) reply later := by
  have spared := World.answers_spared_others ground answered rfl
  have apart : temporary ≠ Lock.pathFor project.stylesheetPath := by
    rintro rfl
    exact lock_unnamed _ named
  have unmarked : mark? project.stylesheetPath (.remove temporary) reply = none := by
    cases reply <;> simp [mark?,apart]
  have next : (Phase.holding sheet draft written).after project.stylesheetPath (.remove temporary) reply =
      .holding sheet none written := by
    simp [Phase.after,apart,named]
  exact leads_of_draft ground stands fits named unmarked next spared (by simp)

end

theorem leads_of_publish {temporary : Path} (named : temporary? project.stylesheetPath = some temporary) {text : Text}
    {added : List Binding} (planned : Planned told project text added)
    (fits : (Phase.holding (some text) (some (encodeText (Stylesheet.extend text project.config.blockComment added)))
      false).Fits project.stylesheetPath css world) {reply : Except FileError Unit}
    (answered : world.Answers (.rename temporary project.stylesheetPath) reply later) :
    Leads told project css
      (.holding (some text) (some (encodeText (Stylesheet.extend text project.config.blockComment added))) false)
      (.rename temporary project.stylesheetPath) reply later := by
  have apart := Path.place_temporary_ne named world.base
  rcases World.answers_rename ground apart answered with ⟨⟨cause,rfl⟩,still⟩ | ⟨rfl,-⟩
  · have spared : world.Spared (Guarded project.stylesheetPath world.base) later := still.spared ground
    exact leads_of_spared ground stands fits rfl rfl spared
  · obtain ⟨⟨entry,locked⟩,read,drafted⟩ := fits
    -- The text that was read is still that of the stylesheet, so no block in between is lost.
    obtain rfl := read rfl text rfl
    obtain ⟨other,same,held⟩ := drafted _ rfl
    cases named.symm.trans same
    have lock : later.entry (Lock.pathFor project.stylesheetPath) = some entry := by
      have clear : (Request.rename temporary project.stylesheetPath).Spares
          ((Lock.pathFor project.stylesheetPath).place world.base = ·) world.base :=
        List.forall_mem_cons.mpr ⟨Path.place_lock_ne_temporary named _,
          List.forall_mem_singleton.mpr (Path.place_lock_ne _ _)⟩
      have spared := World.answers_spared ground clear answered
      exact (spared.entry rfl).trans locked
    have renamed := World.read_of_answers_rename ground apart held answered rfl
    refine ⟨_,.inl renamed,?_,?_⟩
    · rw [Phase.after,if_pos rfl]
      exact ⟨⟨entry,lock⟩,by simp,by simp⟩
    · rw [mark?,if_pos rfl]
      exact .wrote planned

theorem step (fits : phase.Fits project.stylesheetPath css world)
    (allowed : phase.Allows told project world.base request) (answered : world.Answers request reply later) :
    Leads told project css phase request reply later := by
  cases allowed with
  | before quiet => exact leads_of_quiet ground stands quiet (fun _ => id) rfl fits answered
  | refused quiet => exact leads_of_quiet ground stands quiet (fun _ => False.elim) rfl fits answered
  | ended quiet => exact leads_of_quiet ground stands quiet (fun _ => False.elim) rfl fits answered
  | aside spares other =>
    obtain ⟨unmarked,same⟩ := aside_unmarked spares other _ _ _ reply
    exact leads_of_spared ground stands fits unmarked same (World.answers_spared ground spares answered)
  | take => exact leads_of_take ground stands answered
  | read => exact leads_of_read ground stands fits answered
  | note => exact leads_of_note ground stands fits answered
  | empty named => exact leads_of_empty ground stands fits named answered
  | fill named => exact leads_of_fill ground stands fits named answered
  | discard named => exact leads_of_discard ground stands fits named answered
  | publish named planned => exact leads_of_publish ground stands named planned fits answered
  | release => exact leads_of_release ground stands fits answered

end

theorem vacant_of_took (ground : world.Grounded) (answered : world.Answers request reply later)
    (marked : mark? stylesheet request reply = some .took) : world.entry (Lock.pathFor stylesheet) = none := by
  cases request with
  | createNew path =>
    rcases World.answers_createNew ground answered with ⟨⟨cause,rfl⟩,-⟩ | ⟨rfl,vacant,-⟩
    · cases marked
    · by_cases own : path = Lock.pathFor stylesheet
      · exact own ▸ vacant
      · simp [mark?,own] at marked
  | rename source target =>
    cases reply with
    | error cause => cases marked
    | ok done => by_cases own : target = stylesheet <;> simp [mark?,own] at marked
  | remove path =>
    cases reply with
    | error cause => cases marked
    | ok done => by_cases own : path = Lock.pathFor stylesheet <;> simp [mark?,own] at marked
  | _ => cases marked

/-- Whoever does not hold the lock leaves the shared files alone while it is held. -/
theorem spared_of_outside (ground : world.Grounded) (outside : phase.holds = false)
    (locked : ∃ entry, world.entry (Lock.pathFor project.stylesheetPath) = some entry)
    (allowed : phase.Allows told project world.base request) (answered : world.Answers request reply later) :
    world.Spared (Guarded project.stylesheetPath world.base) later := by
  cases allowed with
  | before quiet => exact World.answers_spared ground (quiet.spares fun _ => id) answered
  | take =>
    obtain ⟨entry,held⟩ := locked
    rcases World.answers_createNew ground answered with ⟨-,still⟩ | ⟨-,vacant,-⟩
    · exact still.spared ground
    · rw [held] at vacant
      cases vacant
  | refused quiet => exact World.answers_spared ground (quiet.spares fun _ => False.elim) answered
  | ended quiet => exact World.answers_spared ground (quiet.spares fun _ => False.elim) answered
  | _ => cases outside

def SameFiles (world later : World) : Prop :=
  ∀ place bytes, later.disk.find place = some (.file bytes) ↔ world.disk.find place = some (.file bytes)

theorem sameFiles_of_still (still : world.Still later) : SameFiles world later := fun place bytes => by rw [still.2]

theorem sameFiles_of_quiet (ground : world.Grounded) {ways : Path → Prop} (quiet : request.Quiet ways)
    (answered : world.Answers request reply later) : SameFiles world later := by
  rcases World.answers_quiet ground quiet answered with still | ⟨path,-,vacant,alters⟩
  · exact sameFiles_of_still still
  · intro place bytes
    by_cases same : place = path.place world.base
    · rw [same,alters.2.here,show world.disk.find (path.place world.base) = none from vacant]
      simp
    · rw [alters.2.elsewhere place same]

/-- A run that has not got the lock changes no file. -/
theorem sameFiles_of_untaken (ground : world.Grounded) (allowed : phase.Allows told project world.base request)
    (answered : world.Answers request reply later)
    (untaken : (phase.after project.stylesheetPath request reply).took = false) : SameFiles world later := by
  have turn := turn_of_allows allowed reply
  cases allowed with
  | before quiet => exact sameFiles_of_quiet ground quiet answered
  | refused quiet => exact sameFiles_of_quiet ground quiet answered
  | ended quiet => exact sameFiles_of_quiet ground quiet answered
  | take =>
    rcases World.answers_createNew ground answered with ⟨-,still⟩ | ⟨rfl,-⟩
    · exact sameFiles_of_still still
    · cases untaken
  | _ =>
    have taken := turn.took_iff.mpr (.inl rfl)
    rw [untaken] at taken
    cases taken

end Sharing

end StyleHoist
