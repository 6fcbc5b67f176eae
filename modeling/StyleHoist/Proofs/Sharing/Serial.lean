import StyleHoist.Proofs.Conversion.Commit
import StyleHoist.Proofs.Sharing.Custody
import StyleHoist.Proofs.Sharing.Discipline
import StyleHoist.Proofs.Sharing.Standing
import StyleHoist.Proofs.Stylesheet.Blocks

/-! Runs that share a stylesheet, with their requests interleaved in any way. They
follow each other, and each adds its rules to what the one before has left. -/
namespace StyleHoist.Sharing

variable {ι : Type}

structure Moment (ι : Type) where
  run : ι
  request : Request
  reply : request.Reply
  before : World
  later : World

/-- Runs side by side. Any of them may be the next to ask, and its request may be refused or cut
short. -/
inductive Interleaves [DecidableEq ι] {α : Type} (runs : ι → Procedure α) (start : World) :
    List (Moment ι) → (ι → Procedure α) → World → Prop
  | start : Interleaves runs start [] runs start
  | step {history procedures now} (sofar : Interleaves runs start history procedures now) (i) {request next reply later}
      (asks : procedures i = .ask request next) (answered : now.Answers request reply later) :
      Interleaves runs start (history ++ [⟨i,request,reply,now,later⟩]) (Function.update procedures i (next reply))
        later

def Moment.mark? (stylesheet : Path) (moment : Moment ι) : Option Mark :=
  Sharing.mark? stylesheet moment.request moment.reply

/-- The runs that have taken the lock, have written the stylesheet or have given the lock back, in
this order. -/
def marked (stylesheet : Path) (kind : Mark) (history : List (Moment ι)) : List ι :=
  (history.filter fun moment => moment.mark? stylesheet = some kind).map (·.run)

/-- A run is between taking the lock and giving it back. -/
def Holds (stylesheet : Path) (history : List (Moment ι)) (i : ι) : Prop :=
  i ∈ marked stylesheet .took history ∧ i ∉ marked stylesheet .gave history

def heardBy (history : List (Moment ι)) (i : ι) : Reading := fun path content =>
  ∃ moment ∈ history, moment.run = i ∧
    (⟨moment.request,moment.reply⟩ : (request : Request) × request.Reply) = ⟨.read path,content⟩

/-- The blocks that runs append one after the other, each worked out from documents that the run has
read and from the stylesheet as the runs before have left it. -/
inductive Grows (history : List (Moment ι)) (project : ι → Project) (css : Text) :
    List ι → List (Text × List Binding) → Prop
  | none : Grows history project css [] []
  | append {writers blocks i added} (grown : Grows history project css writers blocks)
      (planned : Planned (heardBy history i) (project i) (Stylesheet.extendAll css blocks) added) :
      Grows history project css (writers ++ [i]) (blocks ++ [((project i).config.blockComment,added)])

variable {project : ι → Project} {stylesheet : Path} {css classPrefix : Text} {history full : List (Moment ι)}

theorem marked_concat (kind : Mark) (moment : Moment ι) : marked stylesheet kind (history ++ [moment]) =
    noted (moment.mark? stylesheet) kind moment.run (marked stylesheet kind history) := by
  rw [marked,noted,List.filter_append,List.map_append]
  split
  next hit => simp [hit,marked]
  next miss => simp [miss,marked]

theorem Grows.fresh (valid : Config.isValidPrefix classPrefix = true)
    (prefixes : ∀ i, (project i).config.classPrefix = classPrefix)
    (oneLine : ∀ i, '\n' ∉ (project i).config.blockComment) {writers : List ι} {blocks : List (Text × List Binding)}
    (grows : Grows full project css writers blocks) : blocks = [] ∨ Stylesheet.Fresh classPrefix css blocks := by
  induction grows with
  | none => exact .inl rfl
  | @append writers blocks i added grown planned ih =>
    obtain ⟨sources,conversion,-,seeded,-,made,rfl⟩ := planned.made
    obtain ⟨texts,outcomes,last,-,hoisted,rfl⟩ := Conversion.ofSources_eq_ok.mp made
    have known : Stylesheet.seed classPrefix (Stylesheet.extendAll css blocks) = .ok sources.registry := by
      rw [Sources.seed,prefixes i] at seeded
      split at seeded
      next registry same =>
        cases seeded
        exact same
      next => cases seeded
    have fresh : Stylesheet.Fresh classPrefix css blocks := by
      rcases ih with rfl | fresh
      · exact Stylesheet.fresh_nil known
      · exact fresh
    exact .inr (fresh.concat valid (oneLine i) known hoisted)

theorem Grows.step {writers : List ι} {blocks : List (Text × List Binding)} {i : ι} {mark : Option Mark} {text : Text}
    (grows : Grows full project css writers blocks)
    (gains : Gains (heardBy full i) (project i) (Stylesheet.extendAll css blocks) mark text) :
    ∃ more, text = Stylesheet.extendAll css more ∧ Grows full project css (noted mark .wrote i writers) more ∧
      (mark ≠ some .wrote → more = blocks) := by
  cases gains with
  | same unwritten =>
    rw [noted,if_neg unwritten]
    exact ⟨blocks,rfl,grows,fun _ => rfl⟩
  | wrote planned =>
    rw [noted,if_pos rfl]
    exact ⟨_,(Stylesheet.extendAll_concat ..).symm,grows.append planned,fun other => absurd rfl other⟩

structure Orderly {α : Type} (full : List (Moment ι)) (project : ι → Project) (stylesheet : Path) (css : Text)
    (base : Place) (history : List (Moment ι)) (procedures : ι → Procedure α) (now : World) (phases : ι → Phase)
    (blocks : List (Text × List Binding)) : Prop where
  ground : now.Grounded
  here : now.base = base
  obeys : ∀ i, Obeys (heardBy full i) (project i) base (procedures i) (phases i) fun _ later => later.inside = false
  custody : Custody (marked stylesheet .took history) (marked stylesheet .wrote history)
    (marked stylesheet .gave history) phases
  grows : Grows full project css (marked stylesheet .wrote history) blocks
  stands : now.Stands stylesheet (Stylesheet.extendAll css blocks)
  fits : ∀ i, (phases i).Fits stylesheet (Stylesheet.extendAll css blocks) now
  idle : ∀ moment ∈ history, moment.run ∉ marked stylesheet .took history → SameFiles moment.before moment.later
  tried : ∀ i removed, phases i = .ended removed →
    ∃ moment ∈ history, moment.run = i ∧ moment.request = .remove (Lock.pathFor stylesheet)

namespace Orderly

variable {α : Type} {base : Place} {procedures : ι → Procedure α} {now later : World} {phases : ι → Phase}
  {blocks : List (Text × List Binding)} {i : ι} {request : Request} {reply : request.Reply}
  {next : request.Reply → Procedure α}
  (orderly : Orderly full project stylesheet css base history procedures now phases blocks)

include orderly

theorem allows (asks : procedures i = .ask request next) :
    (phases i).Allows (heardBy full i) (project i) now.base request := by
  have own := orderly.obeys i
  rw [asks,← orderly.here] at own
  exact own.1

theorem vacant (answered : now.Answers request reply later) (taken : mark? stylesheet request reply = some .took)
    (j : ι) : (phases j).holds = false := by
  rw [Bool.eq_false_iff]
  intro held
  obtain ⟨entry,there⟩ := (orderly.fits j).locked held
  rw [vacant_of_took orderly.ground answered taken] at there
  cases there

/-- A run that holds the lock is not disturbed. Whoever else is at it spares what they share. -/
theorem undisturbed (shared : (project i).stylesheetPath = stylesheet) (asks : procedures i = .ask request next)
    (answered : now.Answers request reply later) {j : ι} (other : j ≠ i) (held : (phases j).holds = true) :
    mark? stylesheet request reply ≠ some .wrote ∧ now.Spared (Guarded stylesheet now.base) later := by
  have allowed := orderly.allows asks
  have outer : (phases i).holds = false := by
    rw [Bool.eq_false_iff]
    exact fun holding => other (orderly.custody.alone j i held holding)
  have turn := turn_of_allows allowed reply
  have outside := @spared_of_outside (heardBy full i) (project i) (phases i) request reply now later orderly.ground outer
  rw [shared] at turn outside
  refine ⟨fun written => ?_,outside ((orderly.fits j).locked held) allowed answered⟩
  rw [written] at turn
  obtain ⟨sheet,draft,holding⟩ := turn.eq_holding
  rw [holding] at outer
  cases outer

theorem fits_step [DecidableEq ι] (shared : (project i).stylesheetPath = stylesheet)
    (asks : procedures i = .ask request next) (answered : now.Answers request reply later)
    (more : List (Text × List Binding)) (kept : mark? stylesheet request reply ≠ some .wrote → more = blocks)
    (fitting : ((phases i).after stylesheet request reply).Fits stylesheet (Stylesheet.extendAll css more) later) (j : ι) :
    (Function.update phases i ((phases i).after stylesheet request reply) j).Fits stylesheet
      (Stylesheet.extendAll css more) later := by
  refine (Function.forall_update_iff phases fun _ phase =>
    Phase.Fits stylesheet (Stylesheet.extendAll css more) later phase).mpr ⟨fitting,fun j other => ?_⟩ j
  -- whoever holds the lock is spared by the others, and a run without it relies on nothing
  by_cases held : (phases j).holds = true
  · obtain ⟨unwritten,spared⟩ := orderly.undisturbed shared asks answered other held
    rw [kept unwritten]
    exact (orderly.fits j).spared (orderly.here ▸ spared)
  · exact Phase.fits_of_free (by simpa using held)

theorem tried_step [DecidableEq ι] (request : Request) (reply : request.Reply) (later : World) (i j : ι) {removed : Bool}
    (ended : Function.update phases i ((phases i).after stylesheet request reply) j = .ended removed) :
    ∃ moment ∈ history ++ [⟨i,request,reply,now,later⟩],
      moment.run = j ∧ moment.request = .remove (Lock.pathFor stylesheet) := by
  have before (ended : phases j = .ended removed) : ∃ moment ∈ history ++ [⟨i,request,reply,now,later⟩],
      moment.run = j ∧ moment.request = .remove (Lock.pathFor stylesheet) := by
    obtain ⟨moment,member,told⟩ := orderly.tried j removed ended
    exact ⟨moment,List.mem_append_left _ member,told⟩
  rcases eq_or_ne j i with rfl | other
  · rw [Function.update_self] at ended
    rcases remove_of_ended ended with earlier | last
    · exact before earlier
    · exact ⟨_,List.mem_append_right _ List.mem_cons_self,rfl,last⟩
  · rw [Function.update_of_ne other] at ended
    exact before ended

theorem step [DecidableEq ι] (shared : (project i).stylesheetPath = stylesheet) (asks : procedures i = .ask request next)
    (answered : now.Answers request reply later)
    (read : (phases i).took = true → ∀ path content,
      (⟨request,reply⟩ : (request : Request) × request.Reply) = ⟨.read path,content⟩ →
        heardBy full i path content ∧ (path.same stylesheet = false → Harmless (project i) base path)) :
    ∃ phases blocks, Orderly full project stylesheet css base (history ++ [⟨i,request,reply,now,later⟩])
      (Function.update procedures i (next reply)) later phases blocks := by
  have vacant := orderly.vacant answered
  have allowed := orderly.allows asks
  have fitted := orderly.fits_step shared asks answered
  have tried := orderly.tried_step request reply later i
  obtain ⟨ground,rfl,obeys,custody,grows,stands,fits,idle,-⟩ := orderly
  have own := obeys i
  rw [asks] at own
  -- what the run does next it may do in the phase that the reply leaves it in
  have obeyed := own.2 reply _ ⟨rfl,shared.symm ▸ read⟩
  have turn := turn_of_allows allowed reply
  have leads := Sharing.step ground (shared.symm ▸ stands) (shared.symm ▸ fits i) allowed answered
  have untaken := sameFiles_of_untaken ground allowed answered
  rw [Leads] at leads
  rw [shared] at turn leads obeyed untaken
  obtain ⟨text,standing,fitting,gains⟩ := leads
  obtain ⟨more,rfl,grown,kept⟩ := grows.step gains
  have free : now.Spared (fun _ => False) later := World.answers_spared ground (fun _ _ => id) answered
  have custody' := custody.step turn vacant
  refine ⟨Function.update phases i ((phases i).after stylesheet request reply),more,?_⟩
  constructor
  case ground => exact free.ground
  case here => exact free.base
  case stands => exact standing
  case custody =>
    rw [marked_concat,marked_concat,marked_concat]
    exact custody'
  case grows =>
    rw [marked_concat]
    exact grown
  case obeys =>
    intro j
    rcases eq_or_ne j i with rfl | other
    · simpa only [Function.update_self] using obeyed
    · simpa only [Function.update_of_ne other] using obeys j
  case fits => exact fitted more kept fitting
  case idle =>
    intro moment member fresh
    rw [marked_concat] at fresh
    rcases List.mem_append.mp member with earlier | last
    · exact idle moment earlier fun taken => fresh (mem_noted.mpr (.inl taken))
    · rw [List.mem_singleton] at last
      subst last
      refine untaken ?_
      have none := (custody'.took_iff i).not.mp fresh
      simpa only [Function.update_self,Bool.not_eq_true] using none
  case tried => exact fun j removed => tried j

end Orderly

/-- Nothing that the runs do beside the stylesheet leads through what they share. -/
structure Beside (project : ι → Project) (arguments : ι → ConvertArguments) (stylesheet : Path) (base : Place) :
    Prop where
  ways : ∀ folder, stylesheet.Above folder → ¬ Guarded stylesheet base (folder.place base)
  lock : ∀ folder, (Lock.pathFor stylesheet).Above folder → ¬ Guarded stylesheet base (folder.place base)
  logs : ∀ i log, logOf (project i) (arguments i) = some log → ¬ Guarded stylesheet base (log.place base) ∧
    ∀ folder, log.Above folder → ¬ Guarded stylesheet base (folder.place base)

section

variable [DecidableEq ι] {identity : ι → Identity} {arguments : ι → ConvertArguments} {start now : World}
  {procedures : ι → Procedure (Except Failure Unit)}

end

section

open Conversion

variable {α : Type}

/-- The next requests of a run that nothing goes wrong with. -/
def trace (i : ι) : Nat → Procedure α → World → List (Moment ι)
  | n + 1, .ask request next, now =>
    ⟨i,request,(now.perform request).1,now,(now.perform request).2⟩ ::
      trace i n (next (now.perform request).1) (now.perform request).2
  | _, _, _ => []

/-- What is left of a run after some requests, and the world by then. -/
def proceed : Nat → Procedure α → World → Procedure α × World
  | n + 1, .ask request next, now => proceed n (next (now.perform request).1) (now.perform request).2
  | _, procedure, now => (procedure,now)

theorem Interleaves.proceed [DecidableEq ι] {runs procedures : ι → Procedure α} {start now : World}
    {history : List (Moment ι)} (sofar : Interleaves runs start history procedures now) (i : ι)
    {procedure : Procedure α} (left : procedures i = procedure) (n : Nat) :
    Interleaves runs start (history ++ trace i n procedure now)
      (Function.update procedures i (proceed n procedure now).1) (proceed n procedure now).2 := by
  induction n generalizing history procedures procedure now with
  | zero => simpa [trace,Sharing.proceed,← left] using sofar
  | succ n ih =>
    cases procedure with
    | done value => simpa [trace,Sharing.proceed,← left] using sofar
    | ask request next =>
      have others := ih (sofar.step i left (.performed request)) (Function.update_self ..)
      rw [Function.update_idem,List.append_assoc] at others
      exact others

end

end StyleHoist.Sharing
