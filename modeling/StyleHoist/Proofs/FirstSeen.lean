import Mathlib.Data.List.Induction
import Mathlib.Data.List.Nodup

/-! Lists without repetition, each value at the place where it was first seen. -/
namespace StyleHoist.FirstSeen

variable {α : Type} [BEq α] [LawfulBEq α]

theorem eraseDups_concat (list : List α) (a : α) :
    (list ++ [a]).eraseDups = if a ∈ list then list.eraseDups else list.eraseDups ++ [a] := by
  rw [List.eraseDups_append]
  split
  next seen => simp [List.removeAll,seen]
  next unseen => simp [List.removeAll,unseen,List.eraseDups_cons]

theorem nodup_eraseDups (list : List α) : list.eraseDups.Nodup := by
  induction list using List.reverseRecOn with
  | nil => exact List.nodup_nil
  | append_singleton list a ih =>
    rw [eraseDups_concat]
    split
    · exact ih
    next unseen =>
      rw [List.nodup_append]
      refine ⟨ih,List.nodup_singleton a,?_⟩
      intro b old c new same
      rw [List.mem_singleton.mp new] at same
      exact unseen (List.mem_eraseDups.mp (same ▸ old))

/-- Adding values at the end, unless they are there already, keeps those first seen. -/
theorem foldl_insert (list : List α) :
    list.foldl (fun seen a => if a ∈ seen then seen else seen ++ [a]) [] = list.eraseDups := by
  induction list using List.reverseRecOn with
  | nil => rfl
  | append_singleton list a ih =>
    rw [List.foldl_append,ih,eraseDups_concat]
    simp [List.mem_eraseDups]

end StyleHoist.FirstSeen
