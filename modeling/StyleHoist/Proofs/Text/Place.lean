import StyleHoist.Text.Position

/-! Places in a text, given as byte offsets. What begins at a place, and what
ends there, does not depend on how the text is cut. -/
namespace StyleHoist.Text

/-- A part of the text that begins at an offset. -/
def Stands (text : Text) (offset : Nat) (part : Text) : Prop :=
  ∃ front rest, text = front ++ part ++ rest ∧ byteSize front = offset

/-- A character with some property that ends at an offset. -/
def Behind (text : Text) (offset : Nat) (p : Char → Bool) : Prop :=
  ∃ front c rest, text = front ++ c :: rest ∧ offset = byteSize front + c.utf8Size ∧ p c = true

theorem eq_append_of_byteSize_le {front back left right : Text} (same : front ++ back = left ++ right)
    (short : byteSize front ≤ byteSize left) : ∃ mid, left = front ++ mid ∧ back = mid ++ right := by
  rcases List.append_eq_append_iff.mp same with ⟨mid,longer,rest⟩ | ⟨mid,rfl,rfl⟩
  · exact ⟨mid,longer,rest⟩
  · cases mid with
    | nil => exact ⟨[],by simp,rfl⟩
    | cons c mid =>
      have := c.utf8Size_pos
      simp only [byteSize_append,byteSize_cons] at short
      omega

theorem eq_of_byteSize_eq {front back left right : Text} (same : front ++ back = left ++ right)
    (size : byteSize front = byteSize left) : front = left ∧ back = right := by
  have first : cut? (front ++ back) (byteSize left) = some (front,back) := cut?_eq_some.mpr ⟨rfl,size⟩
  have second : cut? (front ++ back) (byteSize left) = some (left,right) := cut?_eq_some.mpr ⟨same,rfl⟩
  simpa using first.symm.trans second

variable {front back part rest text : Text} {offset : Nat} {c : Char} {p : Char → Bool}

theorem stands_append (front back : Text) (offset : Nat) (part : Text) :
    Stands (front ++ back) (byteSize front + offset) part ↔ Stands back offset part := by
  constructor
  · rintro ⟨lead,rest,whole,size⟩
    rw [List.append_assoc] at whole
    obtain ⟨mid,rfl,split⟩ := eq_append_of_byteSize_le whole (by omega)
    rw [byteSize_append] at size
    exact ⟨mid,rest,by rw [split,List.append_assoc],by omega⟩
  · rintro ⟨lead,rest,rfl,rfl⟩
    exact ⟨front ++ lead,rest,by simp,byteSize_append _ _⟩

theorem stands_zero : Stands text 0 part ↔ ∃ rest, text = part ++ rest := by
  constructor
  · rintro ⟨front,rest,rfl,empty⟩
    cases front with
    | nil => exact ⟨rest,rfl⟩
    | cons c front => have := c.utf8Size_pos; simp at empty; omega
  · rintro ⟨rest,rfl⟩
    exact ⟨[],rest,rfl,rfl⟩

theorem stands_here : Stands (front ++ back) (byteSize front) part ↔ ∃ rest, back = part ++ rest := by
  rw [← stands_zero]
  exact stands_append front back 0 part

theorem Stands.next (stands : Stands (front ++ c :: back) offset part) (reached : byteSize front ≤ offset) :
    offset = byteSize front ∨ byteSize (front ++ [c]) ≤ offset := by
  obtain ⟨lead,rest,whole,rfl⟩ := stands
  rw [List.append_assoc] at whole
  obtain ⟨mid,rfl,split⟩ := eq_append_of_byteSize_le whole reached
  cases mid with
  | nil => exact .inl (by simp)
  | cons d mid =>
    cases split
    exact .inr (by simp only [byteSize_append,byteSize_cons,byteSize_nil]; omega)

theorem Stands.clear (stands : Stands (front ++ part ++ rest) offset [c]) (absent : c ∉ part)
    (reached : byteSize front ≤ offset) : byteSize front + byteSize part ≤ offset := by
  obtain ⟨lead,after,whole,rfl⟩ := stands
  rw [List.append_assoc,List.append_assoc] at whole
  obtain ⟨mid,rfl,split⟩ := eq_append_of_byteSize_le whole reached
  rcases List.append_eq_append_iff.mp split with ⟨gap,rfl,-⟩ | ⟨gap,rfl,within⟩
  · simp only [byteSize_append]
    omega
  · cases gap with
    | nil => simp
    | cons d gap =>
      cases within
      exact absurd (by simp) absent

theorem behind_here : Behind (front ++ back) (byteSize front) p ↔ ∃ c ∈ front.getLast?, p c = true := by
  constructor
  · rintro ⟨lead,c,rest,whole,size,holds⟩
    have cut : front ++ back = (lead ++ [c]) ++ rest := by simp [whole]
    obtain ⟨rfl,-⟩ := eq_of_byteSize_eq cut (by simp [size])
    exact ⟨c,by simp,holds⟩
  · rintro ⟨c,last,holds⟩
    obtain ⟨lead,rfl⟩ := List.getLast?_eq_some_iff.mp last
    exact ⟨lead,c,back,by simp,by simp,holds⟩

theorem behind_reverse (behind back : Text) (p : Char → Bool) :
    Behind (behind.reverse ++ back) (byteSize behind) p ↔ behind.head?.any p = true := by
  rw [← byteSize_reverse behind,behind_here,List.getLast?_reverse,Option.any_eq_true]
  rfl

theorem Behind.and {q : Char → Bool} (one : Behind text offset p) (two : Behind text offset q) :
    ∃ c, p c = true ∧ q c = true := by
  obtain ⟨front,c,rest,rfl,rfl,holds⟩ := one
  have size : byteSize front + c.utf8Size = byteSize (front ++ [c]) := by simp
  rw [size,List.append_cons,behind_here] at two
  obtain ⟨d,last,also⟩ := two
  simp only [List.getLast?_append,List.getLast?_singleton,Option.some_or,Option.mem_def,Option.some.injEq] at last
  exact ⟨c,holds,last ▸ also⟩

theorem locate?_append (behind ahead : Text) :
    Position.locate? (behind.reverse ++ ahead) (byteSize behind) = some (Position.ofBehind behind) := by
  have cut : cut? (behind.reverse ++ ahead) (byteSize behind) = some (behind.reverse,ahead) :=
    cut?_eq_some.mpr ⟨rfl,byteSize_reverse behind⟩
  rw [Position.locate?,cut,Option.map_some,List.reverse_reverse]

theorem offset_of_locate? {position : Position} (found : Position.locate? text offset = some position) :
    position.offset = offset := by
  obtain ⟨⟨front,back⟩,cut,rfl⟩ := Option.map_eq_some_iff.mp found
  obtain ⟨-,size⟩ := cut?_eq_some.mp cut
  simpa [Position.ofBehind] using size

end StyleHoist.Text
