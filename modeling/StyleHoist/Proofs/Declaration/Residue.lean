import StyleHoist.Proofs.Declaration.Faithful
import StyleHoist.Proofs.Stylesheet.RoundTrip

/-! What normalizing leaves of a text: every character that is neither blank nor a
semicolon, in its order. Blanks that are not ASCII white space are lost with the others. -/
namespace StyleHoist

namespace Text

/-- A text without its semicolons and without what counts as blank. -/
def without (blank : Char → Bool) (text : Text) : Text := text.filter fun c => !blank c && c ≠ ';'

/-- A text whose only blanks are ASCII white space. -/
def BlanksAreSpaces (text : Text) : Prop := ∀ c ∈ text, isBlank c = true → isSpace c = true

theorem flatten_splitOnP (separates : Char → Bool) (text : Text) :
    (text.splitOnP separates).flatten = text.filter fun c => !separates c := by
  induction text with
  | nil => rfl
  | cons c text ih =>
    obtain ⟨head,tail,split⟩ := List.exists_cons_of_ne_nil (List.splitOnP_ne_nil separates text)
    rw [List.splitOnP_cons_eq_if_modifyHead]
    rw [split,List.flatten_cons] at ih
    cases cut : separates c with
    | true => simp [split,ih,cut]
    | false => simp [split,ih,cut]

theorem flatten_words (text : Text) : (words text).flatten = text.filter fun c => !isBlank c := by
  rw [words,List.flatten_filter_ne_nil,flatten_splitOnP]

theorem without_isBlank (text : Text) :
    text.without isBlank = (text.without isSpace).filter fun c => !isBlank c := by
  rw [without,without,List.filter_filter]
  refine List.filter_congr fun c _ => ?_
  cases space : isSpace c with
  | true => simp [isBlank_of_isSpace space]
  | false => simp

theorem blanksAreSpaces_iff (text : Text) :
    text.BlanksAreSpaces ↔ text.without isBlank = text.without isSpace := by
  rw [without_isBlank,List.filter_eq_self]
  constructor
  · intro spaces c member
    obtain ⟨inside,kept⟩ := List.mem_filter.mp member
    cases blank : isBlank c with
    | false => rfl
    | true => simp [spaces c inside blank] at kept
  · intro kept c inside blank
    by_contra other
    have solid : c ≠ ';' := by
      rintro rfl
      exact absurd blank (by decide)
    have member : c ∈ text.without isSpace := List.mem_filter.mpr ⟨inside,by simp [solid,other]⟩
    simpa [blank] using kept c member

end Text

namespace Declaration

open Text

theorem flatten_segments (text : Text) : (segments text).flatten.flatten = text.without isBlank := by
  have pieces : ((text.splitOn ';').map fun piece => (words piece).flatten).flatten =
      (text.splitOn ';').flatten.filter fun c => !isBlank c := by
    simp only [flatten_words,List.filter_flatten]
  rw [segments,List.flatten_filter_ne_nil,List.flatten_flatten,List.map_map]
  rw [show (List.flatten ∘ words) = fun piece => (words piece).flatten from rfl,pieces,List.splitOn_eq_splitOnP,
    flatten_splitOnP,List.filter_filter,without]
  exact List.filter_congr fun c _ => by simp [← beq_eq_decide]

theorem without_normalize (text : Text) : (normalize text).text.without isBlank = text.without isBlank := by
  rw [← flatten_segments,segments_normalize,flatten_segments]

theorem blanksAreSpaces_normalize (text : Text) : (normalize text).text.BlanksAreSpaces := by
  intro c member blank
  rw [eq_space_of_mem_normalize member blank]
  rfl

/-- No registry of a run gives one class to texts that differ in more than blanks and semicolons. -/
theorem without_eq_of_lookup {classPrefix css : Text} {first : Registry} {declarations : List Declaration}
    {id : ClassId} {a b : Text} (seeded : Stylesheet.seed classPrefix css = .ok first)
    (one : (first.attemptAll declarations).lookup (normalize a) = some id)
    (other : (first.attemptAll declarations).lookup (normalize b) = some id) :
    a.without isBlank = b.without isBlank := by
  obtain ⟨added,grown,-⟩ := first.growth_attemptAll declarations
  have sound := grown.sound (Stylesheet.sound_of_seed seeded)
  have same := sound.eq_of_id (Registry.mem_of_lookup one) (Registry.mem_of_lookup other) rfl
  rw [← without_normalize a,(Binding.mk.inj same).1,without_normalize]

/-- Normalizing loses nothing but blanks and semicolons. It loses nothing but ASCII white space and
semicolons exactly if the text has no other blanks; texts without other blanks that differ in more
have different forms, and different classes wherever both have one. -/
theorem normalize_residue (a b : Text) :
    (normalize a).text.without isBlank = a.without isBlank ∧
    ((normalize a).text.without isSpace = a.without isSpace ↔ a.BlanksAreSpaces) ∧
    (a.BlanksAreSpaces → b.BlanksAreSpaces → a.without isSpace ≠ b.without isSpace →
      normalize a ≠ normalize b ∧
      ∀ classPrefix css first declarations id, Stylesheet.seed classPrefix css = .ok first →
        (first.attemptAll declarations).lookup (normalize a) = some id →
        (first.attemptAll declarations).lookup (normalize b) ≠ some id) := by
  refine ⟨without_normalize a,?_,fun left right differ => ⟨fun same => ?_,?_⟩⟩
  · rw [blanksAreSpaces_iff,← (blanksAreSpaces_iff _).mp (blanksAreSpaces_normalize a),without_normalize]
  · have kept := without_normalize a
    rw [same,without_normalize] at kept
    rw [blanksAreSpaces_iff] at left right
    exact differ (left.symm.trans (kept.symm.trans right))
  · intro classPrefix css first declarations id seeded one other
    rw [blanksAreSpaces_iff] at left right
    exact differ (left.symm.trans ((without_eq_of_lookup seeded one other).trans right))

/-- A no-break space in a quoted value becomes a space, and so does a vertical tab, so that three
different styles have one form. -/
theorem normalize_merges :
    let noBreak : Text := "content:'a\u00a0b'".toList
    let space : Text := "content:'a b'".toList
    (normalize noBreak).text.without isSpace ≠ noBreak.without isSpace ∧
      noBreak.without isSpace ≠ space.without isSpace ∧ normalize noBreak = normalize space ∧
      normalize "content:'a\u000bb'".toList = normalize space := by
  refine ⟨?_,?_,?_,?_⟩ <;> decide

end Declaration

end StyleHoist
