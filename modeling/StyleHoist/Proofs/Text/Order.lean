import Mathlib.Data.Char
import Mathlib.Data.List.Lex
import Mathlib.Order.Lattice
import StyleHoist.Path

/-! The order of texts is the lexicographic order of their characters. -/
namespace StyleHoist

namespace Lexical

variable {α : Type} [LinearOrder α] {a b : α} {left right : List α}

theorem nil_le (right : List α) : [] ≤ right := by
  refine le_iff_lt_or_eq.mpr ?_
  cases right with
  | nil => exact .inr rfl
  | cons b right => exact .inl .nil

theorem not_cons_le_nil : ¬a :: left ≤ [] := by
  intro less
  rcases le_iff_lt_or_eq.mp less with before | same
  · cases before
  · cases same

theorem cons_le_cons_iff : a :: left ≤ b :: right ↔ a < b ∨ a = b ∧ left ≤ right := by
  have strict : a :: left < b :: right ↔ a < b ∨ a = b ∧ left < right := List.cons_lt_cons_iff
  rw [le_iff_lt_or_eq,le_iff_lt_or_eq,strict,List.cons.injEq,and_or_left,or_assoc]

end Lexical

theorem Text.atMost_iff_le (left right : Text) : atMost left right = true ↔ left ≤ right := by
  fun_induction atMost left right with
  | case1 right => exact iff_of_true rfl (Lexical.nil_le right)
  | case2 a left => exact iff_of_false Bool.false_ne_true Lexical.not_cons_le_nil
  | case3 a left b right ih =>
    rw [Bool.or_eq_true,Bool.and_eq_true,ih,decide_eq_true_eq,decide_eq_true_eq,Lexical.cons_le_cons_iff]

end StyleHoist
