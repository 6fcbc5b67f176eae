import Mathlib.Data.Prod.Lex
import StyleHoist.Proofs.Text.Pieces
import StyleHoist.Proofs.Text.Place

/-! Lines and columns. The position of a place tells how the text up to there falls into
lines, so that the place can be found again from its line and its column. Positions come
in the order of their places: by line, and within a line by column. -/
namespace StyleHoist

namespace Text

/-- The places at which a text can be cut. -/
def Boundary (text : Text) (offset : Nat) : Prop := ∃ front back, text = front ++ back ∧ byteSize front = offset

/-- The size of lines, with the line feed that ends each. -/
def linesSize (lines : List Text) : Nat := byteSize (lines.flatMap (· ++ ['\n']))

/-- The place behind all characters of a line that come before a column. Lines and columns
are counted from one. -/
def point? (text : Text) : Nat → Nat → Option Nat
  | line + 1, column + 1 => do
    let lines := text.splitOn '\n'
    let here ← lines[line]?
    if column ≤ here.length then some (linesSize (lines.take line) + byteSize (here.take column)) else none
  | _, _ => none

variable {text : Text} {line column offset : Nat}

theorem utf8Size_feed : '\n'.utf8Size = 1 := rfl

@[simp] theorem linesSize_concat (lines : List Text) (line : Text) :
    linesSize (lines ++ [line]) = linesSize lines + (byteSize line + 1) := by
  simp [linesSize,utf8Size_feed]

theorem point?_eq_some : point? text line column = some offset ↔
    ∃ earlier part rest later, text.splitOn '\n' = earlier ++ (part ++ rest) :: later ∧
      line = earlier.length + 1 ∧ column = part.length + 1 ∧ offset = linesSize earlier + byteSize part := by
  constructor
  · intro found
    match line, column with
    | 0, _ | _ + 1, 0 => simp [point?] at found
    | line + 1, column + 1 =>
      obtain ⟨here,among,found⟩ := Option.bind_eq_some_iff.mp found
      obtain ⟨within,same⟩ := Option.ite_none_right_eq_some.mp found
      obtain ⟨short,rfl⟩ := List.getElem?_eq_some_iff.mp among
      have split : text.splitOn '\n' = (text.splitOn '\n').take line ++
          ((text.splitOn '\n')[line].take column ++ (text.splitOn '\n')[line].drop column) ::
            (text.splitOn '\n').drop (line + 1) := by
        rw [List.take_append_drop,← List.drop_eq_getElem_cons short,List.take_append_drop]
      refine ⟨_,_,_,_,split,?_,?_,(Option.some.inj same).symm⟩
      · rw [List.length_take_of_le (Nat.le_of_lt short)]
      · rw [List.length_take_of_le within]
  · rintro ⟨earlier,part,rest,later,split,rfl,rfl,rfl⟩
    simp [point?,split]

end Text

namespace Position

open Text

variable {text : Text} {first second : Nat} {earlier later position : Position}

/-- Line and column, by which positions are ordered. -/
def coordinates (position : Position) : Nat ×ₗ Nat := toLex (position.line,position.column)

theorem ofBehind_feed (behind : Text) : ofBehind ('\n' :: behind) =
    ⟨(ofBehind behind).offset + 1,(ofBehind behind).line + 1,1⟩ := by
  simp [ofBehind,utf8Size_feed,Nat.add_comm]

theorem ofBehind_cons {c : Char} (within : c ≠ '\n') (behind : Text) : ofBehind (c :: behind) =
    ⟨(ofBehind behind).offset + c.utf8Size,(ofBehind behind).line,(ofBehind behind).column + 1⟩ := by
  simp [ofBehind,within,Nat.add_comm]

/-- A position counts the lines that are complete and the characters of the last. -/
theorem exists_lines_ofBehind (behind : Text) : ∃ lines last, behind.reverse.splitOn '\n' = lines ++ [last] ∧
    ofBehind behind = ⟨linesSize lines + byteSize last,lines.length + 1,last.length + 1⟩ := by
  induction behind with
  | nil => exact ⟨[],[],rfl,rfl⟩
  | cons c behind ih =>
    obtain ⟨lines,last,split,same⟩ := ih
    rw [List.reverse_cons,splitOn_append split]
    by_cases feed : c = '\n'
    · refine ⟨lines ++ [last],[],by simp [feed,List.splitOn_cons_eq_if_modifyHead],?_⟩
      rw [feed,ofBehind_feed,same]
      simp [Nat.add_assoc]
    · refine ⟨lines,last ++ [c],by simp [feed,List.splitOn_cons_eq_if_modifyHead],?_⟩
      rw [ofBehind_cons feed,same]
      simp [Nat.add_assoc]

theorem ofBehind_reverse {front last : Text} {lines : List Text} (split : front.splitOn '\n' = lines ++ [last]) :
    ofBehind front.reverse = ⟨linesSize lines + byteSize last,lines.length + 1,last.length + 1⟩ := by
  obtain ⟨complete,ending,whole,same⟩ := exists_lines_ofBehind front.reverse
  rw [List.reverse_reverse,split] at whole
  obtain ⟨rfl,rfl⟩ := List.append_singleton_inj.mp whole
  exact same

theorem coordinates_ofBehind_lt_cons (c : Char) (behind : Text) :
    (ofBehind behind).coordinates < (ofBehind (c :: behind)).coordinates := by
  rw [coordinates,coordinates,Prod.Lex.toLex_lt_toLex]
  by_cases feed : c = '\n'
  · rw [feed,ofBehind_feed]
    exact .inl (Nat.lt_succ_self _)
  · rw [ofBehind_cons feed]
    exact .inr ⟨rfl,Nat.lt_succ_self _⟩

theorem coordinates_ofBehind_lt_append {read : Text} (some : read ≠ []) (behind : Text) :
    (ofBehind behind).coordinates < (ofBehind (read ++ behind)).coordinates := by
  induction read with
  | nil => exact absurd rfl some
  | cons c read ih =>
    have next := coordinates_ofBehind_lt_cons c (read ++ behind)
    by_cases last : read = []
    · simpa [last] using next
    · exact (ih last).trans next

theorem toList_text (position : Position) :
    position.text.toList = Nat.toDigits 10 position.line ++ ':' :: Nat.toDigits 10 position.column := by
  simp [text,toString]

theorem text_inj : earlier.text = later.text ↔ earlier.coordinates = later.coordinates := by
  have plain (n : Nat) : ':' ∉ Nat.toDigits 10 n := fun inside =>
    absurd (Nat.isDigit_of_mem_toDigits (by decide) (Nat.le_refl _) inside) (by decide)
  have parts (position : Position) : position.text.toList.splitOn ':' =
      [Nat.toDigits 10 position.line,Nat.toDigits 10 position.column] := by
    rw [toList_text,List.splitOn_append_cons_self_of_not_mem (plain _),List.splitOn_eq_singleton (plain _)]
  have read {one other : Nat} (same : Nat.toDigits 10 one = Nat.toDigits 10 other) : one = other := by
    have value (n : Nat) := Nat.ofDigitChars_toDigits (n := n) (by decide) (Nat.le_refl 10)
    rw [← value one,same,value]
  constructor
  · intro same
    have pieces := (parts earlier).symm.trans (same ▸ parts later)
    simp only [List.cons.injEq,and_true] at pieces
    rw [coordinates,coordinates,read pieces.1,read pieces.2]
  · intro same
    obtain ⟨line,column⟩ := Prod.mk.inj (toLex_inj.mp same)
    rw [text,text,line,column]

theorem locate?_eq_some : locate? text first = some position ↔
    ∃ front back, text = front ++ back ∧ byteSize front = first ∧ ofBehind front.reverse = position := by
  simp only [locate?,Option.map_eq_some_iff,Prod.exists,cut?_eq_some,and_assoc]

theorem exists_locate?_iff : (∃ position, locate? text first = some position) ↔ text.Boundary first := by
  constructor
  · rintro ⟨position,found⟩
    obtain ⟨front,back,whole,size,-⟩ := locate?_eq_some.mp found
    exact ⟨front,back,whole,size⟩
  · rintro ⟨front,back,whole,size⟩
    exact ⟨_,locate?_eq_some.mpr ⟨front,back,whole,size,rfl⟩⟩

/-- A position is that of a place exactly if its line and column lead there. -/
theorem locate?_eq_some_iff_point? : locate? text first = some position ↔
    position.offset = first ∧ text.point? position.line position.column = some first := by
  rw [locate?_eq_some,point?_eq_some]
  constructor
  · rintro ⟨front,back,rfl,rfl,rfl⟩
    obtain ⟨lines,last,split,same⟩ := exists_lines_ofBehind front.reverse
    rw [List.reverse_reverse] at split
    -- The line of the place is the last line so far, with what follows up to the next line feed.
    obtain ⟨head,tail,ahead⟩ := List.exists_cons_of_ne_nil (List.splitOn_ne_nil '\n' back)
    have whole := splitOn_append split back
    rw [ahead,List.modifyHead_cons] at whole
    have offset : (ofBehind front.reverse).offset = byteSize front := byteSize_reverse front
    rw [same] at offset ⊢
    exact ⟨offset,lines,last,head,tail,whole,rfl,rfl,offset.symm⟩
  · rintro ⟨offset,lines,part,rest,others,split,line,column,size⟩
    obtain ⟨front,back,rfl,before⟩ := exists_front_of_splitOn split
    have same : ofBehind front.reverse = position := by
      rw [ofBehind_reverse before,← line,← column,← size,← offset]
    refine ⟨front,back,rfl,?_,same⟩
    rw [← offset,← same]
    exact (byteSize_reverse front).symm

theorem coordinates_lt_of_lt (here : locate? text first = some earlier) (there : locate? text second = some later)
    (before : first < second) : earlier.coordinates < later.coordinates := by
  obtain ⟨front,back,rfl,rfl,rfl⟩ := locate?_eq_some.mp here
  obtain ⟨lead,rest,same,rfl,rfl⟩ := locate?_eq_some.mp there
  obtain ⟨read,rfl,-⟩ := eq_append_of_byteSize_le same (Nat.le_of_lt before)
  rw [List.reverse_append]
  refine coordinates_ofBehind_lt_append ?_ front.reverse
  intro nothing
  simp [List.reverse_eq_nil_iff.mp nothing] at before

theorem coordinates_lt_iff (here : locate? text first = some earlier) (there : locate? text second = some later) :
    earlier.coordinates < later.coordinates ↔ first < second := by
  refine ⟨fun less => ?_,coordinates_lt_of_lt here there⟩
  rcases Nat.lt_trichotomy first second with before | same | behind
  · exact before
  · subst same
    cases here.symm.trans there
    exact absurd less (lt_irrefl _)
  · exact absurd less (lt_asymm (coordinates_lt_of_lt there here behind))

theorem coordinates_inj (here : locate? text first = some earlier) (there : locate? text second = some later) :
    earlier.coordinates = later.coordinates ↔ first = second := by
  constructor
  · intro same
    have forth : ¬ first < second := mt (coordinates_lt_iff here there).mpr (not_lt_of_ge same.ge)
    have back : ¬ second < first := mt (coordinates_lt_iff there here).mpr (not_lt_of_ge same.le)
    omega
  · rintro rfl
    rw [Option.some.inj (here.symm.trans there)]

end Position

end StyleHoist
