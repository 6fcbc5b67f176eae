import StyleHoist.Proofs.Markup.Openings
import StyleHoist.Proofs.Text.Lines

/-! Where a warning says that it is. No two places of a document have the same position, and
the warnings of a scan come in the order of theirs. -/
namespace StyleHoist.Markup

open Position

variable {document : Text} {warning : Warning}

theorem Judged.locate?_position {offset : Nat} (judged : Judged document offset (.warning warning)) :
    locate? document offset = some warning.position := by
  cases judged with
  | unseparated here | malformed here | unbounded here => exact here

theorem eq_of_warning? {item : Item} (found : item.warning? = some warning) : item = .warning warning := by
  cases item with
  | style => contradiction
  | warning other => rw [Option.some.inj found]

theorem locate?_of_mem_warningsOf (member : warning ∈ warningsOf document) :
    locate? document warning.position.offset = some warning.position := by
  obtain ⟨item,among,found⟩ := List.mem_filterMap.mp member
  obtain rfl := eq_of_warning? found
  exact ((scans_scanFrom [] document).readFrom.judged _ among).locate?_position

theorem pairwise_warningsOf (document : Text) : (warningsOf document).Pairwise fun first second =>
    first.position.coordinates < second.position.coordinates := by
  have offsets : (warningsOf document).Pairwise fun first second => first.position.offset < second.position.offset := by
    refine (scans_scanFrom [] document).readFrom.increasing.filterMap _ ?_
    intro first second before one found other again
    obtain rfl := eq_of_warning? found
    obtain rfl := eq_of_warning? again
    exact before
  exact offsets.imp_of_mem fun one other before =>
    coordinates_lt_of_lt (locate?_of_mem_warningsOf one) (locate?_of_mem_warningsOf other) before

/-- Each place that a document can be cut at has a position. A later place has a later position, no
two positions read the same, and a position leads back to its place, so many characters into the
line that it names. The warnings of a scan come in the order of their positions. -/
theorem positions_faithful (document : Text) :
    (∀ offset, (∃ position, locate? document offset = some position) ↔ document.Boundary offset) ∧
    (∀ first second one other, locate? document first = some one → locate? document second = some other →
      (one.coordinates < other.coordinates ↔ first < second) ∧ (one.text = other.text ↔ first = second)) ∧
    (∀ offset position, locate? document offset = some position ↔
      position.offset = offset ∧ document.point? position.line position.column = some offset) ∧
    (∀ warning ∈ warningsOf document, locate? document warning.position.offset = some warning.position) ∧
    (warningsOf document).Pairwise fun first second =>
      first.position.coordinates < second.position.coordinates :=
  ⟨fun _ => exists_locate?_iff,
    fun _ _ _ _ here there => ⟨coordinates_lt_iff here there,text_inj.trans (coordinates_inj here there)⟩,
    fun _ _ => locate?_eq_some_iff_point?,fun _ member => locate?_of_mem_warningsOf member,pairwise_warningsOf document⟩

/-- An empty style outside a tag, behind a letter of two bytes, and in the next line one that is not closed. -/
def strayText : Text := "ü style=\"\"\n\tstyle=\"".toList

theorem warningsOf_stray : warningsOf strayText = [⟨.unbounded,⟨3,1,3⟩⟩,⟨.malformed,⟨13,2,2⟩⟩] := by
  have opened : strayText = "ü ".toList ++ (styleOpen ++ ([] ++ '"' :: ("\n\t".toList ++ (styleOpen ++ [])))) := rfl
  rw [warningsOf,scan,opened,scanFrom_ne (show ∀ c ∈ "ü ".toList, c ≠ 's' by simp),scanFrom_value rfl rfl,
    scanFrom_ne (show ∀ c ∈ "\n\t".toList, c ≠ 's' by simp),scanFrom_unclosed rfl rfl]
  rfl

/-- The two warnings read 1:3 and 2:2, and from there their offsets 3 and 13 are found again. -/
theorem positions_faithful_stray :
    warningsOf strayText = [⟨.unbounded,⟨3,1,3⟩⟩,⟨.malformed,⟨13,2,2⟩⟩] ∧
      locate? strayText 3 = some ⟨3,1,3⟩ ∧ locate? strayText 13 = some ⟨13,2,2⟩ ∧
      (⟨3,1,3⟩ : Position).coordinates < (⟨13,2,2⟩ : Position).coordinates ∧
      (⟨3,1,3⟩ : Position).text ≠ (⟨13,2,2⟩ : Position).text ∧
      strayText.point? 1 3 = some 3 ∧ strayText.point? 2 2 = some 13 := by
  obtain ⟨-,ordered,recovered,placed,-⟩ := positions_faithful strayText
  have first := placed ⟨.unbounded,⟨3,1,3⟩⟩ (by simp [warningsOf_stray])
  have second := placed ⟨.malformed,⟨13,2,2⟩⟩ (by simp [warningsOf_stray])
  obtain ⟨before,same⟩ := ordered 3 13 _ _ first second
  exact ⟨warningsOf_stray,first,second,before.mpr (by decide),mt same.mp (by decide),
    ((recovered 3 _).mp first).2,((recovered 13 _).mp second).2⟩

end StyleHoist.Markup
