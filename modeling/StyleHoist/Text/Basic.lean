/-! Text as a list of characters, addressed by byte offsets into its UTF-8 form.
A cut exists exactly where an offset falls on a character boundary, so every
slice and every splice below says by its `Option` whether it is in range. -/
namespace StyleHoist

abbrev Text := List Char

/-- Half-open range of byte offsets. -/
structure Span where
  start : Nat
  stop : Nat
deriving DecidableEq, Repr, Inhabited

/-- A span of a whole as a span of the part that starts at `base`. -/
def Span.within (span : Span) (base : Nat) : Span := ⟨span.start - base,span.stop - base⟩

namespace Text

/-- Length in UTF-8 bytes. -/
def byteSize (text : Text) : Nat := text.foldl (fun size c => size + c.utf8Size) 0

private theorem foldl_size (size : Nat) (text : Text) :
    text.foldl (fun size c => size + c.utf8Size) size = size + byteSize text := by
  induction text generalizing size with
  | nil => rfl
  | cons c text ih =>
    rw [byteSize,List.foldl_cons,List.foldl_cons,ih,ih]
    omega

@[simp] theorem byteSize_nil : byteSize [] = 0 := rfl

@[simp] theorem byteSize_cons (c : Char) (text : Text) :
    byteSize (c :: text) = c.utf8Size + byteSize text := by
  rw [byteSize,List.foldl_cons,foldl_size]
  omega

@[simp] theorem byteSize_append (left right : Text) :
    byteSize (left ++ right) = byteSize left + byteSize right := by
  induction left with
  | nil => simp
  | cons c left ih => simp [ih,Nat.add_assoc]

@[simp] theorem byteSize_reverse (text : Text) : byteSize text.reverse = byteSize text := by
  induction text with
  | nil => rfl
  | cons c text ih => simp [ih,Nat.add_comm]

private def cutFrom (taken : Text) : Text → Nat → Option (Text × Text)
  | rest, 0 => some (taken.reverse,rest)
  | [], _ + 1 => none
  | c :: rest, n + 1 =>
    if c.utf8Size ≤ n + 1 then cutFrom (c :: taken) rest (n + 1 - c.utf8Size) else none

/-- The text before and after a byte offset, if the offset is a boundary. -/
def cut? (text : Text) (offset : Nat) : Option (Text × Text) := cutFrom [] text offset

private theorem cutFrom_eq_some (taken text : Text) (n : Nat) (left right : Text) :
    cutFrom taken text n = some (left,right) ↔
      ∃ mid, left = taken.reverse ++ mid ∧ text = mid ++ right ∧ byteSize mid = n := by
  fun_induction cutFrom taken text n with
  | case1 taken rest =>
    constructor
    · intro same
      cases same
      exact ⟨[],by simp⟩
    · rintro ⟨mid,rfl,rfl,empty⟩
      cases mid with
      | nil => simp
      | cons c mid => have := c.utf8Size_pos; simp at empty; omega
  | case2 taken n =>
    constructor
    · simp
    · rintro ⟨mid,-,whole,size⟩
      have : mid = [] := by cases mid <;> simp_all
      simp_all
  | case3 taken c rest n fits ih =>
    rw [ih]
    clear ih
    constructor
    · rintro ⟨mid,rfl,rfl,size⟩
      refine ⟨c :: mid,by simp,by simp,by simp; omega⟩
    · rintro ⟨mid,rfl,whole,size⟩
      cases mid with
      | nil => simp at size
      | cons d mid =>
        simp only [List.cons_append,List.cons.injEq] at whole
        obtain ⟨rfl,rfl⟩ := whole
        simp only [byteSize_cons] at size
        exact ⟨mid,by simp,rfl,by omega⟩
  | case4 taken c rest n wide =>
    constructor
    · simp
    · rintro ⟨mid,-,whole,size⟩
      cases mid with
      | nil => simp at size
      | cons d mid =>
        simp only [List.cons_append,List.cons.injEq] at whole
        obtain ⟨rfl,rfl⟩ := whole
        simp only [byteSize_cons] at size
        omega

/-- A cut loses nothing and its left part has exactly the asked size. -/
theorem cut?_eq_some {text left right : Text} {offset : Nat} :
    cut? text offset = some (left,right) ↔ text = left ++ right ∧ byteSize left = offset := by
  rw [cut?,cutFrom_eq_some]
  simp

/-- The characters of a span. -/
def slice? (text : Text) (span : Span) : Option Text := do
  let (_,later) ← cut? text span.start
  if span.start ≤ span.stop then
    let (inside,_) ← cut? later (span.stop - span.start)
    some inside
  else none

theorem slice?_eq_some {text inside : Text} {span : Span} :
    slice? text span = some inside ↔ ∃ before after, text = before ++ inside ++ after ∧
      byteSize before = span.start ∧ byteSize before + byteSize inside = span.stop := by
  simp only [slice?,Option.bind_eq_bind,Option.bind_eq_some_iff,Prod.exists,cut?_eq_some]
  constructor
  · rintro ⟨before,later,⟨rfl,start⟩,rest⟩
    split at rest
    · simp only [Option.bind_eq_some_iff,Prod.exists,cut?_eq_some,Option.some.injEq] at rest
      obtain ⟨_,after,⟨rfl,size⟩,rfl⟩ := rest
      exact ⟨before,after,by simp,start,by omega⟩
    · simp at rest
  · rintro ⟨before,after,rfl,start,stop⟩
    refine ⟨before,inside ++ after,⟨by simp,start⟩,?_⟩
    rw [if_pos (by omega)]
    simp only [Option.bind_eq_some_iff,Prod.exists,cut?_eq_some,Option.some.injEq]
    exact ⟨inside,after,⟨rfl,by omega⟩,rfl⟩

/-- The text with a span exchanged for other characters. -/
def splice? (text : Text) (span : Span) (replacement : Text) : Option Text := do
  let (before,later) ← cut? text span.start
  if span.start ≤ span.stop then
    let (_,after) ← cut? later (span.stop - span.start)
    some (before ++ replacement ++ after)
  else none

theorem splice?_eq_some {text replacement result : Text} {span : Span} :
    splice? text span replacement = some result ↔ ∃ before inside after,
      text = before ++ inside ++ after ∧ byteSize before = span.start ∧
      byteSize before + byteSize inside = span.stop ∧ result = before ++ replacement ++ after := by
  simp only [splice?,Option.bind_eq_bind,Option.bind_eq_some_iff,Prod.exists,cut?_eq_some]
  constructor
  · rintro ⟨before,later,⟨rfl,start⟩,rest⟩
    split at rest
    · simp only [Option.bind_eq_some_iff,Prod.exists,cut?_eq_some,Option.some.injEq] at rest
      obtain ⟨inside,after,⟨rfl,size⟩,rfl⟩ := rest
      exact ⟨before,inside,after,by simp,start,by omega,rfl⟩
    · simp at rest
  · rintro ⟨before,inside,after,rfl,start,stop,rfl⟩
    refine ⟨before,inside ++ after,⟨by simp,start⟩,?_⟩
    rw [if_pos (by omega)]
    simp only [Option.bind_eq_some_iff,Prod.exists,cut?_eq_some,Option.some.injEq]
    exact ⟨inside,after,⟨rfl,by omega⟩,rfl⟩

/-- The rest of a text that begins with a given lead. -/
def after? : Text → Text → Option Text
  | [], text => some text
  | _ :: _, [] => none
  | a :: lead, c :: text => if a = c then after? lead text else none

theorem after?_eq_some {lead text rest : Text} :
    after? lead text = some rest ↔ text = lead ++ rest := by
  fun_induction after? lead text with
  | case1 text => simp [eq_comm]
  | case2 => simp
  | case3 lead c text ih => simpa using ih
  | case4 a lead c text different => simp [eq_comm,different]

theorem length_after? {lead text rest : Text} (found : after? lead text = some rest) :
    text.length = lead.length + rest.length := by
  rw [after?_eq_some.mp found,List.length_append]

end Text

end StyleHoist
