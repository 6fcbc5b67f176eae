import StyleHoist.Proofs.Bytewise.Ends

/-! The class attribute of a tag. A slice is taken behind white space, an equals sign or a
quote, and there a character begins. -/
namespace StyleHoist.Markup.Bytewise

open Text

theorem narrow_ends : Narrow fun c => isSpace c || c = '>' := by
  intro c ends
  rcases Bool.or_eq_true_iff.mp ends with space | close
  · exact narrow_isSpace c space
  · exact Narrow.same (by decide) c close

theorem classValue?_eq (base : Nat) (front text : Text) :
    classValue? (front ++ classOpen ++ text) base (byteSize front) =
      some (Markup.classValue? (base + byteSize front) (base + byteSize (front ++ classOpen)) text) := by
  have size : byteSize front + 6 = byteSize (front ++ classOpen) := by rw [byteSize_append]; rfl
  rw [classValue?,size]
  generalize front ++ classOpen = lead
  have behind : (bytes (lead ++ text)).drop (byteSize lead) = bytes text := by
    rw [bytes_append,← length_bytes lead,List.drop_left]
  have bare : (((bytes text).findIdx? fun b => isSpace b || b = '>').map (byteSize lead + ·)).getD
      (bytes (lead ++ text)).length = byteSize lead + byteSize (text.takeWhile fun d => !(isSpace d || d = '>')) := by
    rw [← findIdx?_bytes narrow_ends,length_bytes,byteSize_append]
    cases (bytes text).findIdx? fun b => isSpace b || b = '>' <;> rfl
  simp only [behind,bare]
  cases text with
  | nil =>
    have missing : (bytes (lead ++ []))[byteSize lead]? = none :=
      List.getElem?_eq_none (by simp)
    rw [missing]
    rfl
  | cons c text =>
    obtain ⟨b,member,here⟩ := exists_getElem?_bytes lead c text (Nat.le_refl _)
      (Nat.lt_add_of_pos_right c.utf8Size_pos)
    rw [here,Markup.classValue?]
    simp only [narrow_isQuote.of_mem_encode member]
    split
    next quote =>
      obtain ⟨single,wide⟩ := narrow_isQuote.encode_eq quote
      rw [single,List.mem_singleton] at member
      have cut : cut? (lead ++ c :: text) (byteSize lead + 1) = some (lead ++ [c],text) :=
        cut?_eq_some.mpr ⟨by simp,by simp [wide]⟩
      rw [member,cut,Option.bind_eq_bind,Option.bind_some,find?_singleton]
      dsimp only
      split
      next => rfl
      next => simp only [Option.map_some,Nat.add_assoc]
    next => simp only [Nat.add_assoc]

theorem classIn?_within {front rest : Text} {c : Char} {base : Nat} {quote : Option Char}
    (quotes : ∀ q ∈ quote, isQuote q = true) {offsets : List Nat}
    (inside : ∀ i ∈ offsets, byteSize front < i ∧ i < byteSize front + c.utf8Size) (later : List Nat) :
    classIn? (front ++ c :: rest) base quote (offsets ++ later) = classIn? (front ++ c :: rest) base quote later := by
  induction offsets with
  | nil => rfl
  | cons i offsets ih =>
    have ih := ih fun j member => inside j (List.mem_cons_of_mem _ member)
    obtain ⟨reached,within⟩ := inside i List.mem_cons_self
    -- a place within a character: it has more than one byte
    have wide : 128 ≤ c.toNat := by
      refine Nat.le_of_not_lt fun short => ?_
      have := utf8Size_of_lt short
      omega
    obtain ⟨b,member,here⟩ := exists_getElem?_bytes front c rest (Nat.le_of_lt reached) within
    obtain ⟨before,among,last⟩ := exists_getElem?_bytes front c rest (i := i - 1) (by omega) (by omega)
    have far := le_toNat_of_mem_encode wide member
    have unspaced := narrow_isSpace.eq_false (le_toNat_of_mem_encode wide among)
    have unquoted := narrow_isQuote.eq_false far
    cases quote with
    | none =>
      simp only [List.cons_append,classIn?,here,last,unspaced,unquoted,Option.bind_eq_bind,Option.bind_some,
        Bool.false_eq_true,if_false,ih]
    | some q =>
      have other : b ≠ q := by
        rintro rfl
        rw [quotes b rfl] at unquoted
        contradiction
      simp only [List.cons_append,classIn?,here,Option.bind_eq_bind,Option.bind_some,if_neg other,ih]

/-- Behind the first byte of a character the search goes on at the next character. -/
theorem classIn?_next {quote : Option Char} (quotes : ∀ q ∈ quote, isQuote q = true) (base : Nat) (front : Text)
    (c : Char) (rest : Text) :
    classIn? (front ++ c :: rest) base quote (List.range' (byteSize front + 1) (byteSize (c :: rest) - 1)) =
      classIn? (front ++ c :: rest) base quote (List.range' (byteSize (front ++ [c])) (byteSize rest)) := by
  obtain ⟨more,wide⟩ := Nat.exists_eq_add_one.mpr c.utf8Size_pos
  have offsets : List.range' (byteSize front + 1) (byteSize (c :: rest) - 1) =
      List.range' (byteSize front + 1) more ++ List.range' (byteSize (front ++ [c])) (byteSize rest) := by
    rw [byteSize_append,byteSize_cons,byteSize_cons,byteSize_nil,wide,Nat.add_right_comm more,Nat.add_sub_cancel,
      Nat.add_zero,Nat.add_comm more 1,← Nat.add_assoc,List.range'_append_1]
  rw [offsets]
  refine classIn?_within quotes (fun i member => ?_) _
  have := List.mem_range'_1.mp member
  omega

section

variable {front text : Text} {before c : Char} {base : Nat}

theorem classIn?_cons_quoted {q : Char} (quote : isQuote q = true) (offsets : List Nat) :
    classIn? (front ++ before :: c :: text) base (some q) (byteSize (front ++ [before]) :: offsets) =
      classIn? (front ++ before :: c :: text) base (if c = q then none else some q) offsets := by
  obtain ⟨b,member,here⟩ := exists_getElem?_bytes (front ++ [before]) c text (Nat.le_refl _)
    (Nat.lt_add_of_pos_right c.utf8Size_pos)
  rw [List.append_assoc,List.singleton_append] at here
  have narrow : Narrow (· = q) := .same (narrow_isQuote q quote)
  have same : b = q ↔ c = q := by simpa only [decide_eq_decide] using narrow.of_mem_encode member
  simp only [classIn?,here,Option.bind_eq_bind,Option.bind_some,same]

theorem classIn?_cons_bare (offsets : List Nat) :
    classIn? (front ++ before :: c :: text) base none (byteSize (front ++ [before]) :: offsets) =
      match (if isSpace before then after? classOpen (c :: text) else none) with
      | some value => some (Markup.classValue? (base + byteSize (front ++ [before]))
        (base + byteSize (front ++ [before]) + byteSize classOpen) value)
      | none => classIn? (front ++ before :: c :: text) base (if isQuote c then some c else none) offsets := by
  obtain ⟨b,member,here⟩ := exists_getElem?_bytes (front ++ [before]) c text (Nat.le_refl _)
    (Nat.lt_add_of_pos_right c.utf8Size_pos)
  have size : byteSize (front ++ [before]) = byteSize front + before.utf8Size := by simp
  have positive := before.utf8Size_pos
  -- the byte before the place is the last one of the character before it
  obtain ⟨last,among,behind⟩ := exists_getElem?_bytes front before (c :: text) (i := byteSize (front ++ [before]) - 1)
    (by omega) (by omega)
  have shape : front ++ [before] ++ c :: text = front ++ before :: c :: text := by simp
  rw [shape] at here
  have next : (if isQuote b then some b else none) = if isQuote c then some c else none := by
    rw [narrow_isQuote.of_mem_encode member]
    split
    next quote =>
      rw [(narrow_isQuote.encode_eq quote).1,List.mem_singleton] at member
      rw [member]
    next => rfl
  simp only [classIn?,here,behind,Option.bind_eq_bind,Option.bind_some,next,narrow_isSpace.of_mem_encode among]
  split
  next space =>
    have cut : cut? (front ++ before :: c :: text) (byteSize (front ++ [before])) =
        some (front ++ [before],c :: text) := cut?_eq_some.mpr ⟨by simp,rfl⟩
    rw [cut,Option.map_some,Option.bind_some]
    cases opened : after? classOpen (c :: text) with
    | none => rfl
    | some value =>
      have named := classValue?_eq base (front ++ [before]) value
      rw [List.append_assoc,← after?_eq_some.mp opened,shape,byteSize_append _ classOpen,← Nat.add_assoc] at named
      exact named
  next => rfl

end

theorem classIn?_eq {quote : Option Char} (quotes : ∀ q ∈ quote, isQuote q = true) (base : Nat) (front : Text)
    (before : Char) (text : Text) : classIn? (front ++ before :: text) base quote
      (List.range' (byteSize (front ++ [before])) (byteSize text)) =
      some (Markup.classIn? quote before (base + byteSize (front ++ [before])) text) := by
  induction text generalizing quote front before with
  | nil => rfl
  | cons c text ih =>
    have offsets : List.range' (byteSize (front ++ [before])) (byteSize (c :: text)) =
        byteSize (front ++ [before]) :: List.range' (byteSize (front ++ [before]) + 1) (byteSize (c :: text) - 1) := by
      rw [← List.range'_succ,Nat.sub_add_cancel]
      rw [byteSize_cons]
      exact Nat.le_add_right_of_le c.utf8Size_pos
    have later (next : Option Char) (quotes : ∀ q ∈ next, isQuote q = true) :
        classIn? (front ++ before :: c :: text) base next
          (List.range' (byteSize (front ++ [before]) + 1) (byteSize (c :: text) - 1)) =
        some (Markup.classIn? next c (base + byteSize (front ++ [before]) + c.utf8Size) text) := by
      have shape : front ++ [before] ++ c :: text = front ++ before :: c :: text := by simp
      have goes := ih quotes (front ++ [before]) c
      rw [← shape,classIn?_next quotes,goes]
      simp [Nat.add_assoc]
    rw [offsets]
    cases quote with
    | some q =>
      rw [classIn?_cons_quoted (quotes q rfl),Markup.classIn?]
      refine later _ fun other member => ?_
      split at member
      next => exact quotes_none other member
      next => exact quotes other member
    | none =>
      rw [classIn?_cons_bare,Markup.classIn?]
      cases (if isSpace before then after? classOpen (c :: text) else none) with
      | some value => rfl
      | none =>
        refine later _ fun q member => ?_
        split at member
        next quote => exact (Option.some.inj member) ▸ quote
        next => exact quotes_none q member

theorem classOf?_eq {document text : Text} {tag : Span} (inside : slice? document tag = some text) :
    classOf? document tag = some (Markup.classOf? tag.start text) := by
  rw [classOf?,inside,Option.bind_eq_bind,Option.bind_some,length_bytes]
  cases text with
  | nil => rfl
  | cons c text =>
    have first := classIn?_next quotes_none tag.start [] c text
    have later := classIn?_eq quotes_none tag.start [] c text
    rw [Markup.classOf?]
    refine first.trans (later.trans ?_)
    rw [List.nil_append,byteSize_cons,byteSize_nil,Nat.add_zero]

end StyleHoist.Markup.Bytewise
