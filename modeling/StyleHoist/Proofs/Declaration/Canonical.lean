import StyleHoist.Declaration
import StyleHoist.Proofs.Text.Pieces

/-! The canonical form is a fixed point. Writing segments and reading them back
gives the same segments, and blanks around a text do not change what it
declares, so a declaration survives being printed between braces. -/
namespace StyleHoist

namespace Text

def IsWord (word : Text) : Prop := word ≠ [] ∧ ∀ c ∈ word, isBlank c = false

@[simp] theorem words_nil : words [] = [] := by
  simp [words]

theorem words_append_cons (before after : Text) {c : Char} (blank : isBlank c = true) :
    words (before ++ c :: after) = words before ++ words after := by
  unfold words
  rw [List.splitOnP_append_cons before after blank,List.filter_append]

theorem words_cons (text : Text) {c : Char} (blank : isBlank c = true) :
    words (c :: text) = words text := by
  have split := words_append_cons [] text blank
  simpa only [List.nil_append,words_nil] using split

theorem words_concat (text : Text) {c : Char} (blank : isBlank c = true) :
    words (text ++ [c]) = words text := by
  have split := words_append_cons text [] blank
  simpa only [List.append_nil,words_nil] using split

theorem words_of_isWord {word : Text} (whole : IsWord word) : words word = [word] := by
  unfold words
  rw [List.splitOnP_eq_singleton whole.2]
  simp [whole.1]

theorem isWord_of_mem_words {text word : Text} (member : word ∈ words text) : IsWord word := by
  obtain ⟨piece,filled⟩ := List.mem_filter.mp member
  exact ⟨by simpa using filled,fun c inside => (mem_piece piece inside).1⟩

theorem mem_of_mem_words {text word : Text} {c : Char} (member : word ∈ words text)
    (inside : c ∈ word) : c ∈ text :=
  (mem_piece (List.mem_filter.mp member).1 inside).2

theorem words_intercalate {list : List Text} (whole : ∀ word ∈ list, IsWord word) :
    words ([' '].intercalate list) = list := by
  induction list with
  | nil => rfl
  | cons word rest ih =>
    have first := words_of_isWord (whole word List.mem_cons_self)
    have later := ih fun other member => whole other (List.mem_cons_of_mem _ member)
    cases rest with
    | nil => rw [List.intercalate_singleton,first]
    | cons next rest =>
      rw [List.intercalate_cons_cons,List.append_assoc,List.singleton_append,
        words_append_cons _ _ (by decide),first,later,List.singleton_append]

theorem mem_intercalate {separator : Text} {list : List Text} {c : Char}
    (member : c ∈ separator.intercalate list) : c ∈ separator ∨ ∃ text ∈ list, c ∈ text := by
  induction list with
  | nil => simp at member
  | cons first rest ih =>
    cases rest with
    | nil =>
      rw [List.intercalate_singleton] at member
      exact Or.inr ⟨first,List.mem_cons_self,member⟩
    | cons second rest =>
      rw [List.intercalate_cons_cons,List.mem_append,List.mem_append] at member
      rcases member with (inside | between) | later
      · exact Or.inr ⟨first,List.mem_cons_self,inside⟩
      · exact Or.inl between
      · rcases ih later with between | ⟨text,present,inside⟩
        · exact Or.inl between
        · exact Or.inr ⟨text,List.mem_cons_of_mem _ present,inside⟩

end Text

namespace Declaration

open Text

/-- Segments as they can be read from a text: none is empty, and no word holds a semicolon. -/
def AreSegments (parts : List (List Text)) : Prop :=
  ∀ part ∈ parts, part ≠ [] ∧ ∀ word ∈ part, IsWord word ∧ ';' ∉ word

theorem segments_append_cons (before after : Text) :
    segments (before ++ ';' :: after) = segments before ++ segments after := by
  unfold segments
  rw [List.splitOn_append_cons_self,List.map_append,List.filter_append]

theorem segments_of_not_mem {text : Text} (absent : ';' ∉ text) :
    segments text = [words text].filter (· ≠ []) := by
  unfold segments
  rw [List.splitOn_eq_singleton absent,List.map_singleton]

@[simp] theorem segments_nil : segments [] = [] := by
  rw [segments_of_not_mem List.not_mem_nil,words_nil]
  rfl

private theorem last_segment (text : Text) :
    ';' ∉ text ∨ ∃ before after, text = before ++ ';' :: after ∧ ';' ∉ after := by
  by_cases present : ';' ∈ text
  · obtain ⟨after,before,whole,absent⟩ := List.eq_append_cons_of_mem (List.mem_reverse.mpr present)
    refine Or.inr ⟨before.reverse,after.reverse,?_,by simpa using absent⟩
    rw [← List.reverse_reverse text,whole]
    simp
  · exact Or.inl present

theorem segments_cons (text : Text) {c : Char} (blank : isBlank c = true) :
    segments (c :: text) = segments text := by
  have other : c ≠ ';' := by rintro rfl; exact absurd blank (by decide)
  by_cases present : ';' ∈ text
  · obtain ⟨before,after,rfl,absent⟩ := List.eq_append_cons_of_mem present
    rw [← List.cons_append,segments_append_cons,segments_append_cons,
      segments_of_not_mem (by simp [absent,other.symm]),segments_of_not_mem absent,words_cons _ blank]
  · rw [segments_of_not_mem (by simp [present,other.symm]),segments_of_not_mem present,
      words_cons _ blank]

theorem segments_concat (text : Text) {c : Char} (blank : isBlank c = true) :
    segments (text ++ [c]) = segments text := by
  have other : c ≠ ';' := by rintro rfl; exact absurd blank (by decide)
  rcases last_segment text with absent | ⟨before,after,rfl,absent⟩
  · rw [segments_of_not_mem (by simp [absent,other.symm]),segments_of_not_mem absent,
      words_concat _ blank]
  · have longer : ';' ∉ after ++ [c] := by simp [absent,other.symm]
    rw [List.append_assoc,List.cons_append,segments_append_cons,segments_append_cons,
      segments_of_not_mem longer,segments_of_not_mem absent,words_concat _ blank]

theorem areSegments_segments (raw : Text) : AreSegments (segments raw) := by
  intro part member
  obtain ⟨found,filled⟩ := List.mem_filter.mp member
  obtain ⟨piece,inside,rfl⟩ := List.mem_map.mp found
  refine ⟨by simpa using filled,fun word present => ⟨isWord_of_mem_words present,?_⟩⟩
  intro semicolon
  rw [List.splitOn_eq_splitOnP] at inside
  have separate := (mem_piece inside (mem_of_mem_words present semicolon)).1
  simp at separate

private theorem segment_print {part : List Text}
    (whole : part ≠ [] ∧ ∀ word ∈ part, IsWord word ∧ ';' ∉ word) :
    segments ([' '].intercalate part) = [part] := by
  have absent : ';' ∉ [' '].intercalate part := by
    intro member
    rcases mem_intercalate member with between | ⟨word,present,inside⟩
    · simp at between
    · exact (whole.2 word present).2 inside
  rw [segments_of_not_mem absent,words_intercalate fun word member => (whole.2 word member).1]
  simp [whole.1]

theorem segments_ofSegments {parts : List (List Text)} (whole : AreSegments parts) :
    segments (ofSegments parts).text = parts := by
  induction parts with
  | nil => exact segments_nil
  | cons part rest ih =>
    have first := segment_print (whole part List.mem_cons_self)
    have later := ih fun other member => whole other (List.mem_cons_of_mem _ member)
    cases rest with
    | nil =>
      simp only [ofSegments,List.cons_ne_nil,if_false,List.map_singleton,List.intercalate_singleton]
      rw [segments_append_cons,first,segments_nil,List.append_nil]
    | cons next rest =>
      simp only [ofSegments,List.cons_ne_nil,if_false,List.map_cons,List.intercalate_cons_cons] at later ⊢
      simp only [List.append_assoc,List.cons_append,List.nil_append]
      rw [segments_append_cons,first,segments_cons _ (by decide),later,List.singleton_append]

theorem segments_normalize (raw : Text) : segments (normalize raw).text = segments raw :=
  segments_ofSegments (areSegments_segments raw)

@[simp] theorem normalize_normalize (raw : Text) : normalize (normalize raw).text = normalize raw := by
  rw [normalize,segments_normalize,← normalize]

/-- The body of a printed rule, with its inner spaces, declares what was printed. -/
theorem normalize_between (raw : Text) :
    normalize (' ' :: (normalize raw).text ++ [' ']) = normalize raw := by
  rw [normalize,segments_concat _ (by decide),segments_cons _ (by decide),segments_normalize,← normalize]

theorem eq_space_of_mem_normalize {raw : Text} {c : Char} (member : c ∈ (normalize raw).text)
    (blank : isBlank c = true) : c = ' ' := by
  have whole := areSegments_segments raw
  unfold normalize ofSegments at member
  split at member
  · simp at member
  · simp only [List.mem_append,List.mem_singleton] at member
    rcases member with inside | rfl
    · rcases mem_intercalate inside with between | ⟨printed,present,inside⟩
      · simp only [List.mem_cons,List.not_mem_nil,or_false] at between
        rcases between with rfl | rfl
        · exact absurd blank (by decide)
        · rfl
      · obtain ⟨part,found,rfl⟩ := List.mem_map.mp present
        rcases mem_intercalate inside with between | ⟨word,present,inside⟩
        · simpa using between
        · rw [((whole part found).2 word present).1.2 c inside] at blank
          contradiction
    · exact absurd blank (by decide)

theorem lineFeed_not_mem_normalize (raw : Text) : '\n' ∉ (normalize raw).text := by
  intro member
  exact absurd (eq_space_of_mem_normalize member (by decide)) (by decide)

end Declaration

end StyleHoist
