import StyleHoist.Proofs.Procedure.Faults
import StyleHoist.Proofs.Procedure.Logic

/-! Machines that carry out procedures. A machine has a state of its own, on
which it depends what it refuses and where it cuts a write short, so that every
course a procedure can take is its course on some machine. -/
namespace StyleHoist

/-- Answers of someone who carries out certain requests whenever they can be carried out. -/
def World.Obliges (carried : Request → Prop) (world : World) (request : Request) (reply : request.Reply)
    (later : World) : Prop :=
  world.Answers request reply later ∧ (carried request → (reply,later) = world.perform request)

structure Machine (carried : Request → Prop) (σ : Type) where
  answer : World × σ → (request : Request) → request.Reply × (World × σ)
  faithful : ∀ (state : World × σ) (request : Request),
    state.1.Obliges carried request (answer state request).1 (answer state request).2.1

namespace Machine

variable {α β σ : Type} {carried : Request → Prop} (machine : Machine carried σ)

def run : Procedure α → World × σ → α × (World × σ)
  | .done value, state => (value,state)
  | .ask request next, state => run (next (machine.answer state request).1) (machine.answer state request).2

theorem run_bind (procedure : Procedure α) (next : α → Procedure β) (state : World × σ) :
    machine.run (procedure >>= next) state =
      machine.run (next (machine.run procedure state).1) (machine.run procedure state).2 := by
  induction procedure generalizing state with
  | done value => rfl
  | ask request later ih => exact ih _ _

section

variable {attempt : Attempt α} {state later : World × σ}

theorem run_bind_ok {value : α} (next : α → Attempt β)
    (done : machine.run attempt.toProcedure state = (.ok value,later)) :
    machine.run (attempt >>= next).toProcedure state = machine.run (next value).toProcedure later := by
  have opened := machine.run_bind attempt.run (ExceptT.bindCont next) state
  rw [show machine.run attempt.run state = _ from done] at opened
  exact opened

theorem run_bind_error {failure : Failure} (next : α → Attempt β)
    (failed : machine.run attempt.toProcedure state = (.error failure,later)) :
    machine.run (attempt >>= next).toProcedure state = (.error failure,later) := by
  have opened := machine.run_bind attempt.run (ExceptT.bindCont next) state
  rw [show machine.run attempt.run state = _ from failed] at opened
  exact opened

theorem run_lift (procedure : Procedure α) (state : World × σ) :
    machine.run (Attempt.toProcedure (ExceptT.lift procedure)) state =
      (.ok (machine.run procedure state).1,(machine.run procedure state).2) :=
  machine.run_bind procedure (fun value => pure (Except.ok value)) state

end

/-- What a procedure ensures for all answers it ensures on every machine. -/
theorem ensures {may : World → Request → Prop} {procedure : Procedure α} {ends : α → World → Prop}
    (state : World × σ) (ensures : procedure.Ensures (World.Obliges carried) may state.1 ends) :
    ends (machine.run procedure state).1 (machine.run procedure state).2.1 := by
  induction procedure generalizing state with
  | done value => exact ensures
  | ask request next ih => exact ih _ _ (ensures.2 _ _ (machine.faithful state request))

theorem attempt_ensures {may : World → Request → Prop} {attempt : Attempt α} {ends : Except Failure α → World → Prop}
    (state : World × σ) (ensures : Attempt.Ensures (World.Obliges carried) may attempt state.1 ends) :
    ends (machine.run attempt.toProcedure state).1 (machine.run attempt.toProcedure state).2.1 :=
  machine.ensures state ensures

end Machine

/-- The machine on which everything is carried out. -/
def Machine.sound (carried : Request → Prop) : Machine carried Unit where
  answer state request := ((state.1.perform request).1,(state.1.perform request).2,())
  faithful _ request := ⟨.performed request,fun _ => rfl⟩

theorem Machine.run_sound {α : Type} {carried : Request → Prop} (procedure : Procedure α) (state : World × Unit) :
    (Machine.sound carried).run procedure state = ((procedure.run state.1).1,(procedure.run state.1).2,()) := by
  induction procedure generalizing state with
  | done value => rfl
  | ask request next ih => exact ih _ _

end StyleHoist
