import Mathlib.Data.List.Forall2
import Mathlib.Data.List.Induction

/-! Computations that may fail, one behind the other or one for each item of a list. -/
namespace StyleHoist

variable {ε α β : Type}

theorem bind_eq_ok_iff {first : Except ε α} {next : α → Except ε β} {result : β} :
    first >>= next = .ok result ↔ ∃ value, first = .ok value ∧ next value = .ok result := by
  cases first with
  | error failure => simp [bind,Except.bind]
  | ok value => simp [bind,Except.bind]

theorem bind_eq_error_iff {first : Except ε α} {next : α → Except ε β} {failure : ε} :
    first >>= next = .error failure ↔
      first = .error failure ∨ ∃ value, first = .ok value ∧ next value = .error failure := by
  cases first with
  | error cause => simp [bind,Except.bind]
  | ok value => simp [bind,Except.bind]

section

variable {read : α → Except ε β} {items : List α} {results : List β}

theorem mapM_eq_ok_iff : items.mapM read = .ok results ↔
    List.Forall₂ (fun item result => read item = .ok result) items results := by
  induction items generalizing results with
  | nil =>
    rw [List.forall₂_nil_left_iff,List.mapM_nil]
    exact ⟨fun done => (Except.ok.inj done).symm,fun none => none ▸ rfl⟩
  | cons item rest ih =>
    simp only [List.mapM_cons,bind_eq_ok_iff,List.forall₂_cons_left_iff,ih]
    constructor
    · rintro ⟨result,first,others,all,same⟩
      cases same
      exact ⟨result,others,first,all,rfl⟩
    · rintro ⟨result,others,first,all,rfl⟩
      exact ⟨result,first,others,all,rfl⟩

theorem exists_mapM_eq_ok_iff :
    (∃ results, items.mapM read = .ok results) ↔ ∀ item ∈ items, ∃ result, read item = .ok result := by
  simp only [mapM_eq_ok_iff]
  induction items with
  | nil => simp
  | cons item rest ih =>
    rw [List.forall_mem_cons,← ih]
    constructor
    · rintro ⟨_,first | ⟨first,all⟩⟩
      exact ⟨⟨_,first⟩,_,all⟩
    · rintro ⟨⟨result,first⟩,results,all⟩
      exact ⟨result :: results,.cons first all⟩

theorem exists_mem_of_mapM (done : items.mapM read = .ok results) (holds : β → Prop) :
    (∃ result ∈ results, holds result) ↔ ∃ item ∈ items, ∃ result, read item = .ok result ∧ holds result := by
  have all := mapM_eq_ok_iff.mp done
  clear done
  induction all with
  | nil => simp
  | cons first all ih => simp [first,ih]

end

/-- What holds of a fold that has not failed, by what it has taken in. -/
theorem foldlM_ok_kept {step : β → α → Except ε β} (holds : List α → β → Prop)
    (round : ∀ front item before after, holds front before → step before item = .ok after →
      holds (front ++ [item]) after)
    {items : List α} {first last : β} (start : holds [] first) (run : items.foldlM step first = .ok last) :
    holds items last := by
  induction items using List.reverseRecOn generalizing last with
  | nil =>
    cases run
    exact start
  | append_singleton front item ih =>
    rw [List.foldlM_append] at run
    obtain ⟨before,reached,once⟩ := bind_eq_ok_iff.mp run
    rw [List.foldlM_cons] at once
    obtain ⟨after,stepped,done⟩ := bind_eq_ok_iff.mp once
    cases done
    exact round front item before last (ih reached) stepped

end StyleHoist
