import Mathlib.Data.List.Chain
import StyleHoist.Proofs.Declaration.Canonical

/-! The canonical form keeps the segments of a text and nothing else of it. Two texts
have the same form exactly if they have the same segments, and what is blank in a form
are single spaces. -/
namespace StyleHoist

namespace Text

/-- Two neighbours that are not both a space. -/
def Unspaced (c d : Char) : Prop := c ≠ ' ' ∨ d ≠ ' '

/-- A text that begins and ends with something else than a space, and has no two spaces in a row. -/
structure Tight (text : Text) : Prop where
  first : ∃ c, text.head? = some c ∧ c ≠ ' '
  last : ∃ c, text.getLast? = some c ∧ c ≠ ' '
  single : text.IsChain Unspaced

theorem tight_of_isWord {word : Text} (whole : IsWord word) : Tight word := by
  have solid (c : Char) (member : c ∈ word) : c ≠ ' ' := by
    rintro rfl
    exact absurd (whole.2 _ member) (by decide)
  refine ⟨⟨_,List.head?_eq_some_head whole.1,solid _ (List.head_mem whole.1)⟩,
    ⟨_,List.getLast?_eq_some_getLast whole.1,solid _ (List.getLast_mem whole.1)⟩,?_⟩
  exact (List.pairwise_of_forall_mem_list fun c member _ _ => .inl (solid c member)).isChain

theorem Tight.join {left right separator : Text} (before : Tight left) (after : Tight right)
    (single : separator.IsChain Unspaced) : Tight (left ++ separator ++ right) := by
  obtain ⟨first,head,solid⟩ := before.first
  obtain ⟨last,ends,closed⟩ := after.last
  refine ⟨⟨first,by simp [head],solid⟩,⟨last,by simp [ends],closed⟩,?_⟩
  have front : (left ++ separator).IsChain Unspaced := by
    refine before.single.append single fun c behind _ _ => ?_
    obtain ⟨d,same,other⟩ := before.last
    cases same.symm.trans behind
    exact .inl other
  refine front.append after.single fun _ _ d ahead => ?_
  obtain ⟨c,same,other⟩ := after.first
  cases same.symm.trans ahead
  exact .inr other

theorem tight_intercalate {separator : Text} {list : List Text} (some : list ≠ [])
    (inside : ∀ text ∈ list, Tight text) (single : separator.IsChain Unspaced) :
    Tight (separator.intercalate list) := by
  induction list with
  | nil => contradiction
  | cons text rest ih =>
    have first := inside text List.mem_cons_self
    cases rest with
    | nil => rwa [List.intercalate_singleton]
    | cons next rest =>
      rw [List.intercalate_cons_cons]
      have later := ih (List.cons_ne_nil _ _) fun other member => inside other (List.mem_cons_of_mem _ member)
      exact first.join later single

end Text

namespace Declaration

open Text

theorem text_normalize (raw : Text) :
    (segments raw = [] ∧ (normalize raw).text = []) ∨
      ∃ printed, Tight printed ∧ (normalize raw).text = printed ++ [';'] := by
  rw [normalize,ofSegments]
  split
  next none => exact .inl ⟨none,rfl⟩
  next some =>
    have whole := areSegments_segments raw
    refine .inr ⟨_,tight_intercalate (by simpa using some) (fun text member => ?_) (by simp [Unspaced]),rfl⟩
    obtain ⟨part,found,rfl⟩ := List.mem_map.mp member
    exact tight_intercalate (whole part found).1
      (fun word present => tight_of_isWord ((whole part found).2 word present).1) (List.isChain_singleton _)

theorem isEmpty_normalize_iff (raw : Text) : (normalize raw).isEmpty = true ↔ segments raw = [] := by
  rw [isEmpty,List.isEmpty_iff]
  rcases text_normalize raw with ⟨none,empty⟩ | ⟨printed,-,ends⟩
  · exact iff_of_true empty none
  · refine iff_of_false (by simp [ends]) fun none => ?_
    rw [normalize,none] at ends
    simp [ofSegments] at ends

theorem normalize_eq_iff (a b : Text) : normalize a = normalize b ↔ segments a = segments b := by
  constructor
  · intro same
    rw [← segments_normalize a,same,segments_normalize]
  · intro same
    rw [normalize,same,← normalize]

/-- A form ends where a segment ends, so what follows it is read as if it stood alone. -/
theorem segments_normalize_append (a b : Text) : segments ((normalize a).text ++ b) = segments a ++ segments b := by
  rcases text_normalize a with ⟨none,empty⟩ | ⟨printed,-,ends⟩
  · rw [none,empty]
    rfl
  · have own := segments_normalize a
    rw [ends,segments_append_cons,segments_nil,List.append_nil] at own
    rw [ends,List.append_assoc,List.singleton_append,segments_append_cons,own]

theorem isChain_normalize (raw : Text) : (normalize raw).text.IsChain Unspaced := by
  rcases text_normalize raw with ⟨-,empty⟩ | ⟨printed,tight,ends⟩
  · rw [empty]
    exact List.isChain_nil
  · rw [ends]
    refine tight.single.append (List.isChain_singleton _) fun _ _ d ahead => ?_
    cases ahead
    exact .inr (by decide)

/-- Normalizing keeps the segments of a text and drops all else, so that texts with the same segments
become equal and others do not. Of what is blank there are single spaces left. -/
theorem normalize_faithful (a b : Text) :
    segments (normalize a).text = segments a ∧
    ((normalize a).isEmpty = true ↔ segments a = []) ∧
    (normalize a = normalize b ↔ segments a = segments b) ∧
    normalize (normalize a).text = normalize a ∧
    normalize (' ' :: (normalize a).text ++ [' ']) = normalize a ∧
    normalize (a ++ ';' :: b) = normalize ((normalize a).text ++ (normalize b).text) ∧
    (∀ c ∈ (normalize a).text, isBlank c = true → c = ' ') ∧
    ¬ [' ',' '] <:+: (normalize a).text := by
  refine ⟨segments_normalize a,isEmpty_normalize_iff a,normalize_eq_iff a b,normalize_normalize a,normalize_between a,
    ?_,fun c member blank => eq_space_of_mem_normalize member blank,fun twice => ?_⟩
  · rw [normalize_eq_iff,segments_append_cons,segments_normalize_append,segments_normalize]
  · have apart := List.IsChain.infix (isChain_normalize a) twice
    simp [Unspaced] at apart

end Declaration

end StyleHoist
