import StyleHoist.Text.Basic

/-! Runs of characters in a text that goes on: where a run stops inside the first
part, what follows that part plays no role. -/
namespace StyleHoist.Text

variable {p : Char → Bool} {text rest lead : Text} {c : Char}

theorem takeWhile_append_cons (stop : p c = false) :
    (text ++ c :: rest).takeWhile p = text.takeWhile p := by
  induction text with
  | nil => simp [stop]
  | cons d text ih => by_cases inside : p d <;> simp [inside,ih]

theorem dropWhile_append_cons (stop : p c = false) :
    (text ++ c :: rest).dropWhile p = text.dropWhile p ++ c :: rest := by
  induction text with
  | nil => simp [stop]
  | cons d text ih => by_cases inside : p d <;> simp [inside,ih]

theorem takeWhile_of_stop (inside : ∀ d ∈ text, p d = true) (stop : p c = false) :
    (text ++ c :: rest).takeWhile p = text := by
  have whole : (text ++ []).takeWhile p = text ++ [].takeWhile p := List.takeWhile_append_of_pos inside
  rw [takeWhile_append_cons stop]
  simpa using whole

theorem dropWhile_of_stop (inside : ∀ d ∈ text, p d = true) (stop : p c = false) :
    (text ++ c :: rest).dropWhile p = c :: rest := by
  rw [dropWhile_append_cons stop]
  have gone : (text ++ []).dropWhile p = [].dropWhile p := List.dropWhile_append_of_pos inside
  rw [List.append_nil,List.dropWhile_nil] at gone
  rw [gone,List.nil_append]

@[simp] theorem after?_append (lead rest : Text) : after? lead (lead ++ rest) = some rest :=
  after?_eq_some.mpr rfl

theorem after?_append_cons (absent : c ∉ lead) :
    after? lead (text ++ c :: rest) = (after? lead text).map (· ++ c :: rest) := by
  induction lead generalizing text with
  | nil => rfl
  | cons d lead ih =>
    obtain ⟨different,absent⟩ := List.ne_and_not_mem_of_not_mem_cons absent
    cases text with
    | nil => simp [after?,different.symm]
    | cons e text => by_cases same : d = e <;> simp [after?,same,ih absent]

end StyleHoist.Text
