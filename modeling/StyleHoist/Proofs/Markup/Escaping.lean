import StyleHoist.Proofs.Markup.Openings

/-! Double quotes behind backslashes. A value ends at the first double quote that no
backslash precedes, and only such a quote can be part of an opening. -/
namespace StyleHoist.Markup

open Text

/-- A text in which a backslash stands directly before every double quote. -/
def Escaped (text : Text) : Prop := ∀ front back, text = front ++ '"' :: back → front.getLast? = some '\\'

variable {text part rest : Text}

theorem escaped_of_not_mem (absent : '"' ∉ text) : Escaped text := by
  rintro front back rfl
  exact absurd (by simp) absent

theorem Escaped.append (escaped : Escaped text) (absent : '"' ∉ part) : Escaped (text ++ part) := by
  intro front back split
  rcases List.append_eq_append_iff.mp split with ⟨mid,-,rfl⟩ | ⟨mid,rfl,same⟩
  · exact absurd (by simp) absent
  · cases mid with
    | nil =>
      rw [List.nil_append] at same
      exact absurd (same ▸ List.mem_cons_self) absent
    | cons c mid =>
      cases same
      exact escaped front mid rfl

theorem Escaped.left (escaped : Escaped (text ++ part)) : Escaped text := by
  rintro front back rfl
  exact escaped front (back ++ part) (by simp)

theorem closeValue?_append_of_some {value text read rest : Text} (found : closeValue? value text = some (read,rest))
    (more : Text) : closeValue? value (text ++ more) = some (read,rest ++ more) := by
  fun_induction closeValue? value text with
  | case1 => contradiction
  | case2 value c text closes =>
    cases found
    rw [List.cons_append,closeValue?,if_pos closes]
  | case3 value c text goes ih =>
    rw [List.cons_append,closeValue?,if_neg goes]
    exact ih found

theorem closeValue?_append_of_none {value text : Text} (unclosed : closeValue? value text = none) (more : Text) :
    closeValue? value (text ++ more) = closeValue? (text.reverse ++ value) more := by
  fun_induction closeValue? value text with
  | case1 => rfl
  | case2 => contradiction
  | case3 value c text goes ih =>
    rw [List.cons_append,closeValue?,if_neg goes,ih unclosed]
    simp

theorem closeValue?_append_left {value : Text} (filled : value ≠ []) (more text : Text) :
    closeValue? (value ++ more) text = (closeValue? value text).map fun found => (found.1 ++ more,found.2) := by
  fun_induction closeValue? value text with
  | case1 => rfl
  | case2 value c text closes =>
    rw [closeValue?,List.head?_append_of_ne_nil value filled,if_pos closes]
    rfl
  | case3 value c text goes ih =>
    rw [closeValue?,List.head?_append_of_ne_nil value filled,if_neg goes,← List.cons_append]
    exact ih (List.cons_ne_nil _ _)

theorem closeValue?_behind {c : Char} (unquoted : c ≠ '"') (value text : Text) : closeValue? value (c :: text) =
    (closeValue? [] (c :: text)).map fun found => (found.1 ++ value,found.2) := by
  have goes (value : Text) : closeValue? value (c :: text) = closeValue? (c :: value) text := by
    rw [closeValue?,if_neg (by simp [unquoted])]
  rw [goes,goes]
  exact closeValue?_append_left (List.cons_ne_nil c []) value text

theorem closeValue?_escaped (escaped : Escaped text) (solid : text.getLast? ≠ some '\\') (rest : Text) :
    closeValue? [] (text ++ '"' :: rest) = some (text.reverse,rest) := by
  have later (front back : Text) (split : text = front ++ back) :
      closeValue? front.reverse (back ++ '"' :: rest) = some (text.reverse,rest) := by
    induction back generalizing front with
    | nil =>
      rw [List.append_nil] at split
      rw [List.nil_append,closeValue?,if_pos (by simpa [← split] using solid),split]
    | cons c back ih =>
      have goes : ¬ (c = '"' && front.reverse.head? ≠ some '\\') = true := by
        simp only [Bool.and_eq_true,decide_eq_true_eq,not_and,not_not,List.head?_reverse]
        rintro rfl
        exact escaped front back split
      rw [List.cons_append,closeValue?,if_neg goes]
      have next := ih (front ++ [c]) (by simp [split])
      simpa using next
  exact later [] text rfl

theorem escaped_of_unclosed (unclosed : closeValue? [] text = none) : Escaped text := by
  intro front back split
  by_contra bare
  have here := not_closer_of_closeValue? [] unclosed (byteSize front)
  have closer : Closer ([] ++ front.reverse.reverse ++ '"' :: back) (byteSize []) (byteSize ([] ++ front.reverse.reverse)) :=
    closer_iff_head.mpr ⟨rfl,by simpa using bare⟩
  simp only [List.nil_append,List.reverse_reverse,← split] at closer here
  exact here closer

theorem after?_of_escaped (escaped : Escaped text) (suffix : part <:+ text) : after? styleOpen part = none := by
  refine Option.eq_none_iff_forall_not_mem.mpr fun rest opened => ?_
  obtain ⟨front,rfl⟩ := suffix
  have split := after?_eq_some.mp opened
  have last := escaped (front ++ "style=".toList) rest (by rw [split,styleOpen_append_quote]; simp)
  rw [List.getLast?_append_of_ne_nil _ (by decide)] at last
  exact absurd last (by decide)

theorem after?_of_escaped_quote (escaped : Escaped text) (suffix : part <:+ text) (other : part ≠ "style=".toList)
    (rest : Text) : after? styleOpen (part ++ '"' :: rest) = none := by
  refine Option.eq_none_iff_forall_not_mem.mpr fun after opened => ?_
  have split := after?_eq_some.mp opened
  rw [styleOpen_append_quote,List.append_assoc,List.singleton_append] at split
  rcases List.append_eq_append_iff.mp split with ⟨mid,same,behind⟩ | ⟨mid,rfl,behind⟩
  · cases mid with
    | nil => exact other (by simpa using same.symm)
    | cons c mid =>
      cases behind
      exact absurd (same ▸ (by simp : '"' ∈ part ++ '"' :: mid)) (by decide : '"' ∉ "style=".toList)
  · cases mid with
    | nil => exact other (List.append_nil _)
    | cons c mid =>
      cases behind
      have unopened := after?_of_escaped escaped suffix
      rw [List.append_cons,← styleOpen_append_quote,after?_append] at unopened
      contradiction

theorem scanFrom_escaped (escaped : Escaped text) (behind : Text) : scanFrom behind text = [] := by
  have unopened : ∀ tail, tail ≠ [] → tail <:+ text → after? styleOpen (tail ++ []) = none := by
    intro tail _ suffix
    rw [List.append_nil]
    exact after?_of_escaped escaped suffix
  have passed := scanFrom_append unopened behind
  rwa [List.append_nil,scanFrom_nil] at passed

/-- A quote behind escaped ones is read, and nothing is found, unless it completes an opening. -/
theorem scanFrom_past (escaped : Escaped text) (other : ¬ "style=".toList <:+ text) (behind rest : Text) :
    scanFrom behind (text ++ '"' :: rest) = scanFrom ('"' :: text.reverse ++ behind) rest := by
  rw [scanFrom_append fun tail _ suffix => after?_of_escaped_quote escaped suffix (fun same => other (same ▸ suffix)) rest]
  exact scanFrom_ne (show ∀ c ∈ ['"'], c ≠ 's' by simp) _ _

theorem scanFrom_opening (escaped : Escaped text) (behind rest : Text) :
    scanFrom behind (text ++ (styleOpen ++ rest)) = scanFrom (text.reverse ++ behind) (styleOpen ++ rest) := by
  refine scanFrom_append (fun tail filled suffix => ?_) behind
  have further : Escaped (text ++ "style=".toList) := escaped.append (by decide)
  obtain ⟨front,rfl⟩ := suffix
  have end_ : tail ++ "style=".toList <:+ front ++ tail ++ "style=".toList := ⟨front,(List.append_assoc _ _ _).symm⟩
  have none := after?_of_escaped_quote further end_ (fun same => filled (List.append_left_eq_self.mp same)) rest
  rwa [List.append_assoc,← List.singleton_append,← List.append_assoc "style=".toList] at none

end StyleHoist.Markup
