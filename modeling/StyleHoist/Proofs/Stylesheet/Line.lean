import StyleHoist.Config
import StyleHoist.Proofs.Declaration.Canonical
import StyleHoist.Proofs.Text.Run
import Mathlib.Data.List.TakeWhile

/-! A stylesheet is read line by line: its generated rules are those of its lines,
so text that is appended behind a line feed adds its own rules and changes none
of the others. A printed rule is read back as it was printed. -/
namespace StyleHoist.Stylesheet

open Text

variable {classPrefix : Text}

theorem lineFeed_not_mem_of_isValidPrefix (valid : Config.isValidPrefix classPrefix = true) :
    '\n' ∉ classPrefix := by
  intro member
  cases classPrefix with
  | nil => simp at member
  | cons c rest =>
    simp only [Config.isValidPrefix,Bool.and_eq_true,List.all_eq_true] at valid
    rcases List.mem_cons.mp member with rfl | later
    · exact absurd valid.1 (by decide)
    · exact absurd (valid.2 _ later) (by decide)

theorem headName?_append_lineFeed (single : '\n' ∉ classPrefix) (text rest : Text) :
    headName? classPrefix (text ++ '\n' :: rest) =
      (headName? classPrefix text).map fun found => (found.1,found.2 ++ '\n' :: rest) := by
  unfold headName?
  rw [after?_append_cons single]
  cases after? classPrefix text with
  | none => rfl
  | some digits =>
    simp only [Option.map_some,Option.bind_eq_bind,Option.bind_some]
    by_cases long : ClassId.digestLength ≤ digits.length
    · rw [List.take_append_of_le_length long,List.drop_append_of_le_length long]
      split <;> rfl
    · -- A line feed among the digits is no digit, and without it there are too few.
      have short : (digits.take ClassId.digestLength).length ≠ ClassId.digestLength := by
        rw [List.length_take]
        omega
      have broken : '\n' ∈ (digits ++ '\n' :: rest).take ClassId.digestLength := by
        rw [List.take_append,List.mem_append]
        obtain ⟨n,room⟩ := Nat.exists_eq_succ_of_ne_zero (by omega : ClassId.digestLength - digits.length ≠ 0)
        exact Or.inr (by simp [room])
      have other : ((digits ++ '\n' :: rest).take ClassId.digestLength).all ClassId.isHexDigit = false := by
        rw [List.all_eq_false]
        exact ⟨_,broken,by decide⟩
      rw [other,Bool.and_false,decide_eq_false short,Bool.false_and]
      rfl

theorem ruleAt?_append_lineFeed (single : '\n' ∉ classPrefix) (text rest : Text) :
    ruleAt? classPrefix (text ++ '\n' :: rest) =
      (ruleAt? classPrefix text).map fun found => (found.1,found.2 ++ '\n' :: rest) := by
  unfold ruleAt?
  rw [dropWhile_append_cons (by decide),after?_append_cons (by decide)]
  cases after? ['.'] (text.dropWhile isIndent) with
  | none => rfl
  | some name =>
    simp only [Option.map_some,Option.bind_eq_bind,Option.bind_some]
    rw [headName?_append_lineFeed single]
    cases headName? classPrefix name with
    | none => rfl
    | some head =>
      simp only [Option.map_some,Option.bind_some]
      rw [dropWhile_append_cons (by decide),after?_append_cons (by decide)]
      cases after? ['{'] (head.2.dropWhile isIndent) with
      | none => rfl
      | some line =>
        simp only [Option.map_some,Option.bind_some]
        rw [takeWhile_append_cons (by decide),dropWhile_append_cons (by decide)]
        cases body? (line.takeWhile (· ≠ '\n')) <;> rfl

@[simp] theorem rules_nil : rules classPrefix [] = [] := by
  have absent : ruleAt? classPrefix [] = none := rfl
  rw [rules,absent]
  rfl

theorem headName?_eq_some {text rest : Text} {id : ClassId}
    (found : headName? classPrefix text = some (id,rest)) :
    text = id.text ++ rest ∧ ∃ digits, id.text = classPrefix ++ digits ∧
      digits.length = ClassId.digestLength ∧ digits.all ClassId.isHexDigit = true := by
  simp only [headName?,Option.bind_eq_bind,Option.bind_eq_some_iff] at found
  obtain ⟨digits,lead,found⟩ := found
  split at found
  next whole =>
    simp only [Option.some.injEq,Prod.mk.injEq] at found
    obtain ⟨rfl,rfl⟩ := found
    simp only [Bool.and_eq_true,decide_eq_true_eq] at whole
    refine ⟨?_,_,rfl,whole⟩
    rw [after?_eq_some.mp lead,List.append_assoc,List.take_append_drop]
  next => contradiction

private theorem rest_ruleAt? {text rest : Text} {entry : ClassId × Text}
    (found : ruleAt? classPrefix text = some (entry,rest)) :
    rest <:+ text ∧ (rest = [] ∨ ∃ more, rest = '\n' :: more) := by
  simp only [ruleAt?,Option.bind_eq_bind,Option.bind_eq_some_iff,Option.some.injEq,Prod.mk.injEq] at found
  obtain ⟨name,dot,⟨id,behind⟩,head,line,brace,-,-,-,rfl⟩ := found
  constructor
  · have inName := List.suffix_append ['.'] name
    rw [← after?_eq_some.mp dot] at inName
    have inHead := List.suffix_append id.text behind
    rw [← (headName?_eq_some head).1] at inHead
    have inBrace := List.suffix_append ['{'] line
    rw [← after?_eq_some.mp brace] at inBrace
    have inBody := (List.dropWhile_suffix (fun c => decide (c ≠ '\n'))).trans inBrace
    have behindHead := (inBody.trans (List.dropWhile_suffix isIndent)).trans inHead
    exact (behindHead.trans inName).trans (List.dropWhile_suffix isIndent)
  cases tail : line.dropWhile (· ≠ '\n') with
  | nil => exact Or.inl rfl
  | cons c more =>
    have stop := List.head?_dropWhile_not (fun c => decide (c ≠ '\n')) line
    simp only [tail,List.head?_cons,decide_eq_false_iff_not,Classical.not_not] at stop
    exact Or.inr ⟨more,by rw [stop]⟩

theorem rules_append_lineFeed (single : '\n' ∉ classPrefix) (text rest : Text) :
    rules classPrefix (text ++ '\n' :: rest) = rules classPrefix text ++ rules classPrefix rest := by
  fun_induction rules classPrefix text with
  | case1 text entry tail found ih =>
    rw [rules,ruleAt?_append_lineFeed single,found]
    rcases (rest_ruleAt? found).2 with rfl | ⟨more,rfl⟩
    · simp
    · simpa using ih
  | case2 text absent empty =>
    rw [rules,ruleAt?_append_lineFeed single,absent,dropWhile_append_cons (by decide),empty]
    rfl
  | case3 text absent c tail later ih =>
    rw [rules,ruleAt?_append_lineFeed single,absent,dropWhile_append_cons (by decide),later]
    exact ih

/-- The generated rule that a line is. -/
def lineRule? (classPrefix line : Text) : Option (ClassId × Text) :=
  (ruleAt? classPrefix line).map (·.1)

theorem rules_line (classPrefix : Text) {line : Text} (single : '\n' ∉ line) :
    rules classPrefix line = (lineRule? classPrefix line).toList := by
  unfold lineRule?
  rw [rules]
  split
  next entry rest found =>
    obtain ⟨last,empty | ⟨more,broken⟩⟩ := rest_ruleAt? found
    · rw [found,empty]
      simp
    · exact absurd (last.subset (broken ▸ List.mem_cons_self)) single
  next absent =>
    have whole : line.dropWhile (fun c => decide (c ≠ '\n')) = [] := by
      rw [List.dropWhile_eq_nil_iff]
      intro c member
      rw [decide_eq_true_eq]
      rintro rfl
      exact single member
    rw [absent]
    split
    · rfl
    next later => rw [whole] at later; contradiction

private theorem rules_intercalate (single : '\n' ∉ classPrefix) {lines : List Text}
    (separate : ∀ line ∈ lines, '\n' ∉ line) :
    rules classPrefix (['\n'].intercalate lines) = lines.filterMap (lineRule? classPrefix) := by
  induction lines with
  | nil => exact rules_nil
  | cons line rest ih =>
    have first := rules_line classPrefix (separate line List.mem_cons_self)
    have later := ih fun other member => separate other (List.mem_cons_of_mem _ member)
    cases rest with
    | nil =>
      rw [List.intercalate_singleton,first]
      cases found : lineRule? classPrefix line <;> simp [found]
    | cons next rest =>
      rw [List.intercalate_cons_cons,List.append_assoc,List.singleton_append,
        rules_append_lineFeed single,first,later]
      cases found : lineRule? classPrefix line <;> simp [List.filterMap_cons (a := line),found]

theorem rules_eq_lines (single : '\n' ∉ classPrefix) (text : Text) :
    rules classPrefix text = (text.splitOn '\n').filterMap (lineRule? classPrefix) := by
  have separate (line : Text) (member : line ∈ text.splitOn '\n') : '\n' ∉ line := notMem_of_mem_splitOn member
  rw [← rules_intercalate single separate,List.intercalate_splitOn]

end StyleHoist.Stylesheet
