import Mathlib.Logic.Function.Basic
import StyleHoist.Proofs.Sharing.Phase

/-! Who has the lock. Among runs that take turns at most one does, and the
stylesheet is written in the order in which the lock was taken. -/
namespace StyleHoist.Sharing

variable {ι : Type} {took wrote gave : List ι} {phases : ι → Phase} {i : ι} {mark : Option Mark} {next : Phase}

/-- The runs that have taken the lock, written the stylesheet and given the lock back so far, each
in order, and how far every run is. -/
structure Custody (took wrote gave : List ι) (phases : ι → Phase) : Prop where
  took_iff : ∀ i, i ∈ took ↔ (phases i).took = true
  gave_iff : ∀ i, i ∈ gave ↔ phases i = .ended true
  nodup : took.Nodup
  order : wrote.Sublist took
  alone : ∀ i j, (phases i).holds = true → (phases j).holds = true → i = j
  latest : ∀ i sheet draft written, phases i = .holding sheet draft written →
    ∃ front, took = front ++ [i] ∧ (written = false → wrote.Sublist front)

/-- Adds a run to the list of its mark. -/
def noted (mark : Option Mark) (kind : Mark) (i : ι) (list : List ι) : List ι :=
  if mark = some kind then list ++ [i] else list

theorem mem_noted {kind : Mark} {list : List ι} {j : ι} :
    j ∈ noted mark kind i list ↔ j ∈ list ∨ mark = some kind ∧ j = i := by
  rw [noted]
  split
  next marked => simp [marked]
  next other => simp [other]

namespace Custody

variable (custody : Custody took wrote gave phases) (turn : (phases i).Turn mark next)
  (vacant : mark = some .took → ∀ j, (phases j).holds = false)

include custody turn

theorem nodup_noted : (noted mark .took i took).Nodup := by
  rw [noted]
  split
  next marked =>
    subst marked
    have fresh : i ∉ took := by
      rw [custody.took_iff,turn.eq_outside]
      exact Bool.false_ne_true
    exact List.nodup_append.mpr ⟨custody.nodup,List.pairwise_singleton _ i,fun other member last among same =>
      fresh (List.mem_singleton.mp among ▸ same ▸ member)⟩
  next => exact custody.nodup

theorem order_noted : (noted mark .wrote i wrote).Sublist (noted mark .took i took) := by
  by_cases taken : mark = some .took
  · subst taken
    exact custody.order.trans (List.sublist_append_left took [i])
  · rw [noted,noted,if_neg taken]
    split
    next written =>
      subst written
      obtain ⟨sheet,draft,held⟩ := turn.eq_holding
      obtain ⟨front,last,earlier⟩ := custody.latest i sheet draft false held
      rw [last]
      exact (earlier rfl).append_right [i]
    next => exact custody.order

include vacant

theorem excluded {j : ι} (other : j ≠ i) (held : (phases j).holds = true) : next.holds = false := by
  rw [Bool.eq_false_iff]
  intro holding
  rcases turn.holds holding with before | taken
  · exact other (custody.alone j i held before)
  · rw [vacant taken j] at held
    cases held

variable [DecidableEq ι]

theorem alone_update {j k : ι} (first : (Function.update phases i next j).holds = true)
    (second : (Function.update phases i next k).holds = true) : j = k := by
  by_cases own : j = i <;> by_cases own' : k = i
  · rw [own,own']
  · subst own
    rw [Function.update_of_ne own'] at second
    rw [Function.update_self,custody.excluded turn vacant own' second] at first
    cases first
  · subst own'
    rw [Function.update_of_ne own] at first
    rw [Function.update_self,custody.excluded turn vacant own first] at second
    cases second
  · rw [Function.update_of_ne own] at first
    rw [Function.update_of_ne own'] at second
    exact custody.alone j k first second

theorem latest_update {j : ι} {sheet : Option Text} {draft : Option ByteArray} {written : Bool}
    (held : Function.update phases i next j = .holding sheet draft written) :
    ∃ front, noted mark .took i took = front ++ [j] ∧
      (written = false → (noted mark .wrote i wrote).Sublist front) := by
  by_cases own : j = i
  · subst own
    rw [Function.update_self] at held
    generalize before : phases j = phase at turn
    cases turn with
    | stays => exact custody.latest j sheet draft written (before.trans held)
    | took =>
      cases held
      exact ⟨took,rfl,fun _ => custody.order⟩
    | learned =>
      cases held
      exact custody.latest j _ _ _ before
    | wrote =>
      cases held
      obtain ⟨front,last,-⟩ := custody.latest j _ _ _ before
      exact ⟨front,last,fun unwritten => by cases unwritten⟩
    | _ => cases held
  · rw [Function.update_of_ne own] at held
    have holding : (phases j).holds = true := by rw [held]; rfl
    have untaken : mark ≠ some .took := by
      intro taken
      rw [vacant taken j] at holding
      cases holding
    have unwritten : mark ≠ some .wrote := by
      rintro rfl
      obtain ⟨sheet',draft',before⟩ := turn.eq_holding
      exact own (custody.alone j i holding (by rw [before]; rfl))
    rw [noted,noted,if_neg untaken,if_neg unwritten]
    exact custody.latest j sheet draft written held

theorem step : Custody (noted mark .took i took) (noted mark .wrote i wrote) (noted mark .gave i gave)
    (Function.update phases i next) where
  took_iff j := by
    rw [mem_noted,custody.took_iff]
    by_cases own : j = i
    · subst own
      simp [turn.took_iff]
    · simp [own]
  gave_iff j := by
    rw [mem_noted,custody.gave_iff]
    by_cases own : j = i
    · subst own
      simp [turn.gave_iff]
    · simp [own]
  nodup := custody.nodup_noted turn
  order := custody.order_noted turn
  alone _ _ := custody.alone_update turn vacant
  latest _ _ _ _ := custody.latest_update turn vacant

end Custody

end StyleHoist.Sharing
