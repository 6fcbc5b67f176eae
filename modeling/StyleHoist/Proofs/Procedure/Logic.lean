import Mathlib
import StyleHoist.Procedure.Basic

/-! A program logic for procedures. A state of any kind is carried along the
requests; every answer that the state admits has to be provided for. -/
namespace StyleHoist

namespace Procedure

variable {σ α β : Type} {answers : σ → (request : Request) → request.Reply → σ → Prop}
  {may : σ → Request → Prop} {state : σ}

instance : LawfulMonad Procedure := by
  refine LawfulMonad.mk' Procedure ?_ (fun _ _ => rfl) ?_
  · intro α procedure
    induction procedure with
    | done value => rfl
    | ask request next ih => exact congrArg (Procedure.ask request) (funext ih)
  · intro α β γ procedure next last
    induction procedure with
    | done value => rfl
    | ask request later ih => exact congrArg (Procedure.ask request) (funext ih)

/-- Each request is made in a state in which it may be, and each end is as it should be. -/
def Ensures (answers : σ → (request : Request) → request.Reply → σ → Prop) (may : σ → Request → Prop) :
    Procedure α → σ → (α → σ → Prop) → Prop
  | .done value, state, ends => ends value state
  | .ask request next, state, ends =>
    may state request ∧ ∀ reply later, answers state request reply later →
      (next reply).Ensures answers may later ends

@[simp] theorem ensures_pure (value : α) (ends : α → σ → Prop) :
    (pure value : Procedure α).Ensures answers may state ends ↔ ends value state := Iff.rfl

theorem Ensures.mono {procedure : Procedure α} {ends wider : α → σ → Prop}
    (ensures : procedure.Ensures answers may state ends)
    (widen : ∀ value state, ends value state → wider value state) :
    procedure.Ensures answers may state wider := by
  induction procedure generalizing state with
  | done value => exact widen value state ensures
  | ask request next ih =>
    obtain ⟨allowed,onwards⟩ := ensures
    exact ⟨allowed,fun reply later answered => ih reply (onwards reply later answered)⟩

@[simp] theorem ensures_bind (procedure : Procedure α) (next : α → Procedure β) (ends : β → σ → Prop) :
    (procedure >>= next).Ensures answers may state ends ↔
      procedure.Ensures answers may state fun value later => (next value).Ensures answers may later ends := by
  induction procedure generalizing state with
  | done value => rfl
  | ask request later ih =>
    refine and_congr_right fun _ => forall_congr' fun reply => forall_congr' fun state => ?_
    exact imp_congr_right fun _ => ih reply

theorem Ensures.request {request : Request} {ends : request.Reply → σ → Prop} (allowed : may state request)
    (onwards : ∀ reply later, answers state request reply later → ends reply later) :
    (Procedure.request request).Ensures answers may state ends := ⟨allowed,onwards⟩

/-- Whatever it is answered, a procedure makes only certain requests. -/
def Asks (asks : Request → Prop) (procedure : Procedure α) : Prop :=
  procedure.Ensures (fun _ _ _ _ => True) (fun () => asks) () fun _ _ => True

theorem asks_request {asks : Request → Prop} {request : Request} (asked : asks request) :
    (Procedure.request request).Asks asks :=
  .request asked fun _ _ _ => trivial

theorem Asks.ensures {asks : Request → Prop} {invariant : σ → Prop} {procedure : Procedure α}
    (only : procedure.Asks asks)
    (allowed : ∀ state request, invariant state → asks request → may state request)
    (kept : ∀ state request reply later, invariant state → asks request →
      answers state request reply later → invariant later)
    (start : invariant state) : procedure.Ensures answers may state fun _ later => invariant later := by
  induction procedure generalizing state with
  | done value => exact start
  | ask request next ih =>
    obtain ⟨asked,onwards⟩ := only
    refine ⟨allowed state request start asked,fun reply later answered => ?_⟩
    exact ih reply (onwards reply () trivial) (kept state request reply later start asked answered)

/-- The states that a procedure can be interrupted in. -/
inductive Reaches (answers : σ → (request : Request) → request.Reply → σ → Prop) :
    Procedure α → σ → σ → Prop
  | here (procedure state) : Reaches answers procedure state state
  | onwards (request) {next : request.Reply → Procedure α} {state reply later last}
      (answered : answers state request reply later) (rest : Reaches answers (next reply) later last) :
      Reaches answers (.ask request next) state last

/-- What holds whenever a request is made, and at every end, holds wherever the procedure is
interrupted. -/
theorem Ensures.reaches {safe : σ → Prop} {procedure : Procedure α} {last : σ}
    (ensures : procedure.Ensures answers (fun state _ => safe state) state fun _ later => safe later)
    (reaches : procedure.Reaches answers state last) : safe last := by
  induction reaches with
  | here procedure state =>
    cases procedure with
    | done value => exact ensures
    | ask request next => exact ensures.1
  | onwards request answered rest ih => exact ih (ensures.2 _ _ answered)

end Procedure

namespace Attempt

open Procedure

variable {σ α β : Type} {answers : σ → (request : Request) → request.Reply → σ → Prop}
  {may : σ → Request → Prop} {state : σ}

abbrev Ensures (answers : σ → (request : Request) → request.Reply → σ → Prop) (may : σ → Request → Prop)
    (attempt : Attempt α) (state : σ) (ends : Except Failure α → σ → Prop) : Prop :=
  Procedure.Ensures answers may attempt.run state ends

@[simp] theorem ensures_pure (value : α) (ends : Except Failure α → σ → Prop) :
    Ensures answers may (pure value) state ends ↔ ends (.ok value) state := Iff.rfl

@[simp] theorem ensures_throw (failure : Failure) (ends : Except Failure α → σ → Prop) :
    Ensures answers may (throw failure) state ends ↔ ends (.error failure) state := Iff.rfl

@[simp] theorem ensures_mk (result : Except Failure α) (ends : Except Failure α → σ → Prop) :
    Ensures answers may (ExceptT.mk (pure result)) state ends ↔ ends result state := Iff.rfl

/-- How the end of an attempt is taken up: a failure ends what follows too. -/
def continues (next : α → σ → Prop) (failed : Failure → σ → Prop) : Except Failure α → σ → Prop
  | .ok value, state => next value state
  | .error failure, state => failed failure state

@[simp] theorem continues_ok (next : α → σ → Prop) (failed : Failure → σ → Prop) (value : α) :
    continues next failed (.ok value) = next value := rfl

@[simp] theorem continues_error (next : α → σ → Prop) (failed : Failure → σ → Prop) (failure : Failure) :
    continues next failed (.error failure) = failed failure := rfl

@[simp] theorem ensures_bind (attempt : Attempt α) (next : α → Attempt β) (ends : Except Failure β → σ → Prop) :
    Ensures answers may (attempt >>= next) state ends ↔
      Ensures answers may attempt state (continues (fun value later => Ensures answers may (next value) later ends)
        fun failure later => ends (.error failure) later) := by
  rw [Ensures,ExceptT.run_bind,Procedure.ensures_bind]
  constructor <;>
  · intro ensures
    refine ensures.mono fun result later ends => ?_
    cases result <;> exact ends

/-- What holds after the first attempt, however it ends, and is kept by what follows, holds in the end. -/
theorem ensures_bind_kept {attempt : Attempt α} {next : α → Attempt β} {kept : σ → Prop}
    (first : Ensures answers may attempt state fun _ later => kept later)
    (onwards : ∀ value later, kept later → Ensures answers may (next value) later fun _ later => kept later) :
    Ensures answers may (attempt >>= next) state fun _ later => kept later := by
  refine (ensures_bind _ _ _).mpr (Procedure.Ensures.mono first fun result later holds => ?_)
  cases result with
  | error failure => exact holds
  | ok value => exact onwards value later holds

@[simp] theorem ensures_lift (procedure : Procedure α) (ends : Except Failure α → σ → Prop) :
    Ensures answers may (ExceptT.lift procedure) state ends ↔
      procedure.Ensures answers may state fun value => ends (.ok value) :=
  Procedure.ensures_bind procedure _ _

@[simp] theorem ensures_liftM (procedure : Procedure α) (ends : Except Failure α → σ → Prop) :
    Ensures answers may (liftM procedure) state ends ↔
      procedure.Ensures answers may state fun value => ends (.ok value) :=
  Procedure.ensures_bind procedure _ _

@[simp] theorem ensures_ask (answer : Procedure (Except FileError α)) (failure : FileError → Failure)
    (ends : Except Failure α → σ → Prop) :
    Ensures answers may (ask answer failure) state ends ↔
      answer.Ensures answers may state fun result => ends (result.mapError failure) := by
  refine (Procedure.ensures_bind answer _ _).trans ?_
  constructor <;>
  · intro ensures
    refine ensures.mono fun result later ends => ?_
    cases result <;> exact ends

section

variable {step : α → Attempt β} (invariant : List α → List β → σ → Prop) (failed : Failure → σ → Prop)
  (round : ∀ item rest made state, invariant (item :: rest) made state → Ensures answers may (step item) state
    (continues (fun value later => invariant rest (made ++ [value]) later) failed))

include round

private theorem ensures_mapM_from {list : List α} {made : List β} (start : invariant list made state) :
    Ensures answers may (list.mapM step) state
      (continues (fun values later => invariant [] (made ++ values) later) failed) := by
  induction list generalizing made state with
  | nil => simpa using start
  | cons item rest ih =>
    rw [List.mapM_cons,ensures_bind]
    refine (round item rest made state start).mono fun result later ends => ?_
    cases result with
    | error failure => exact ends
    | ok value =>
      rw [continues_ok,ensures_bind]
      refine (ih ends).mono fun result later ends => ?_
      cases result with
      | error failure => exact ends
      | ok values => simpa using ends

/-- A loop whose every round keeps an invariant of what is left, what has been made and the state. -/
theorem ensures_mapM {list : List α} (start : invariant list [] state) :
    Ensures answers may (list.mapM step) state (continues (invariant []) failed) :=
  ensures_mapM_from invariant failed round start

end

theorem asks_bind {asks : Request → Prop} {attempt : Attempt α} {next : α → Attempt β}
    (first : attempt.toProcedure.Asks asks) (onwards : ∀ value, (next value).toProcedure.Asks asks) :
    (attempt >>= next).toProcedure.Asks asks := by
  refine (ensures_bind attempt next _).mpr (Procedure.Ensures.mono first fun result _ _ => ?_)
  cases result with
  | error failure => trivial
  | ok value => exact onwards value

theorem asks_pure {asks : Request → Prop} (value : α) : (pure value : Attempt α).toProcedure.Asks asks := trivial

theorem asks_ask {asks : Request → Prop} {answer : Procedure (Except FileError α)} (only : answer.Asks asks)
    (failure : FileError → Failure) : (ask answer failure).toProcedure.Asks asks :=
  (ensures_ask answer failure _).mpr only

theorem asks_liftM {asks : Request → Prop} {procedure : Procedure α} (only : procedure.Asks asks) :
    (liftM procedure : Attempt α).toProcedure.Asks asks :=
  (ensures_liftM procedure _).mpr only

theorem ensures_toProcedure (attempt : Attempt α) (ends : Except Failure α → σ → Prop) :
    attempt.toProcedure.Ensures answers may state ends ↔ Ensures answers may attempt state ends := Iff.rfl

end Attempt

end StyleHoist
