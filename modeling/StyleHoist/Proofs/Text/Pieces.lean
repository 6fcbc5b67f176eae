import StyleHoist.Text.Basic

/-! Texts in pieces, at a character that separates them. Put together, two texts have
the pieces of the one and then of the other, except that the two pieces that meet are one. -/
namespace StyleHoist.Text

variable {separator : Char} {front text piece last part rest : Text} {earlier later : List Text}

theorem mem_piece {separates : Char → Bool} {c : Char} (member : piece ∈ text.splitOnP separates)
    (inside : c ∈ piece) : separates c = false ∧ c ∈ text := by
  induction text generalizing piece with
  | nil =>
    simp only [List.splitOnP_nil,List.mem_singleton] at member
    simp [member] at inside
  | cons d text ih =>
    rw [List.splitOnP_cons_eq_if_modifyHead] at member
    split at member
    · rcases List.mem_cons.mp member with rfl | later
      · simp at inside
      · exact (ih later inside).imp_right (List.mem_cons_of_mem _)
    next letter =>
      obtain ⟨head,tail,split⟩ := List.exists_cons_of_ne_nil (List.splitOnP_ne_nil separates text)
      rw [split] at ih member
      rcases List.mem_cons.mp member with rfl | later
      · rcases List.mem_cons.mp inside with rfl | inside
        · exact ⟨by simpa using letter,List.mem_cons_self⟩
        · exact (ih List.mem_cons_self inside).imp_right (List.mem_cons_of_mem _)
      · exact (ih (List.mem_cons_of_mem _ later) inside).imp_right (List.mem_cons_of_mem _)

theorem notMem_of_mem_splitOn (member : piece ∈ text.splitOn separator) : separator ∉ piece := by
  intro inside
  rw [List.splitOn_eq_splitOnP] at member
  simpa using (mem_piece member inside).1

/-- What follows a text goes on in the last of its pieces. -/
theorem exists_splitOn_append (separator : Char) (front : Text) :
    ∃ earlier last, front.splitOn separator = earlier ++ [last] ∧ ∀ back,
      (front ++ back).splitOn separator = earlier ++ (back.splitOn separator).modifyHead (last ++ ·) := by
  induction front with
  | nil => exact ⟨[],[],rfl,fun back => (congrFun List.modifyHead_id (back.splitOn separator)).symm⟩
  | cons c front ih =>
    obtain ⟨earlier,last,short,long⟩ := ih
    by_cases separates : c = separator
    · have parted (tail : Text) : (c :: tail).splitOn separator = [] :: tail.splitOn separator := by
        rw [List.splitOn_cons_eq_if_modifyHead,if_pos (by simpa using separates)]
      refine ⟨[] :: earlier,last,by rw [parted,short,List.cons_append],fun back => ?_⟩
      rw [List.cons_append,parted,long,List.cons_append]
    · have joined (tail : Text) : (c :: tail).splitOn separator = (tail.splitOn separator).modifyHead (c :: ·) := by
        rw [List.splitOn_cons_eq_if_modifyHead,if_neg (by simpa using separates)]
      cases earlier with
      | nil =>
        refine ⟨[],c :: last,by rw [joined,short]; rfl,fun back => ?_⟩
        rw [List.cons_append,joined,long,List.nil_append,List.nil_append,List.modifyHead_modifyHead]
        rfl
      | cons first earlier =>
        refine ⟨(c :: first) :: earlier,last,by rw [joined,short]; rfl,fun back => ?_⟩
        rw [List.cons_append,joined,long]
        rfl

theorem splitOn_append (split : front.splitOn separator = earlier ++ [last]) (back : Text) :
    (front ++ back).splitOn separator = earlier ++ (back.splitOn separator).modifyHead (last ++ ·) := by
  obtain ⟨pieces,piece,short,long⟩ := exists_splitOn_append separator front
  obtain ⟨rfl,rfl⟩ := List.append_singleton_inj.mp (short.symm.trans split)
  exact long back

/-- A text can be broken off within any of its pieces. What is before has the earlier pieces and
the broken one. -/
theorem exists_front_of_splitOn (split : text.splitOn separator = earlier ++ (part ++ rest) :: later) :
    ∃ front back, text = front ++ back ∧ front.splitOn separator = earlier ++ [part] := by
  have clear (piece : Text) (member : piece ∈ earlier ++ (part ++ rest) :: later) : separator ∉ piece :=
    notMem_of_mem_splitOn (split ▸ member)
  have broken := clear (part ++ rest) (by simp)
  rw [List.mem_append,not_or] at broken
  have before : ([separator].intercalate (earlier ++ [part])).splitOn separator = earlier ++ [part] := by
    refine List.splitOn_intercalate separator (fun piece member => ?_) (by simp)
    rcases List.mem_append.mp member with among | same
    · exact clear piece (by simp [among])
    · rw [List.mem_singleton.mp same]
      exact broken.1
  have after : ([separator].intercalate (rest :: later)).splitOn separator = rest :: later := by
    refine List.splitOn_intercalate separator (fun piece member => ?_) (by simp)
    rcases List.mem_cons.mp member with rfl | among
    · exact broken.2
    · exact clear piece (by simp [among])
  have pieces := splitOn_append before ([separator].intercalate (rest :: later))
  rw [after,List.modifyHead_cons,← split] at pieces
  have whole := congrArg [separator].intercalate pieces
  rw [List.intercalate_splitOn,List.intercalate_splitOn] at whole
  exact ⟨_,_,whole.symm,before⟩

end StyleHoist.Text
