import StyleHoist.Proofs.Bytewise.Scan
import StyleHoist.Proofs.Markup.Openings

/-! Where values and tags end. Only characters of one byte are looked for, so that what is
found among the bytes is what is found among the characters. -/
namespace StyleHoist.Markup.Bytewise

open Text

theorem narrow_isSpace : Narrow isSpace := by
  intro c space
  simp only [isSpace,Bool.or_eq_true,decide_eq_true_eq] at space
  rcases space with (((rfl | rfl) | rfl) | rfl) | rfl <;> decide

theorem narrow_isQuote : Narrow isQuote := by
  intro c quote
  simp only [isQuote,Bool.or_eq_true,decide_eq_true_eq] at quote
  rcases quote with rfl | rfl <;> decide

theorem narrow_isBracket : Narrow isBracket := by
  intro c bracket
  simp only [isBracket,Bool.or_eq_true,decide_eq_true_eq] at bracket
  rcases bracket with rfl | rfl <;> decide

theorem narrow_isAlpha : Narrow Char.isAlpha := by
  intro c alpha
  have below {last : Char} (within : c.val ≤ last.val) (small : last.toNat < 128) : c.toNat < 128 :=
    Nat.lt_of_le_of_lt (UInt32.le_iff_toNat_le.mp within) small
  rcases Bool.or_eq_true_iff.mp alpha with upper | lower
  · have range : c.val ≥ 'A'.val ∧ c.val ≤ 'Z'.val := of_decide_eq_true upper
    exact below range.2 (by decide)
  · have range : (decide (c.val ≥ 'a'.val) && decide (c.val ≤ 'z'.val)) = true := lower
    exact below (of_decide_eq_true (Bool.and_eq_true_iff.mp range).2) (by decide)

theorem closer_iff {document : Text} {start i : Nat} : Closer document start i ↔ start ≤ i ∧
    ((bytes document)[i]? = some '"' && (i = start || (bytes document)[i - 1]? ≠ some '\\')) = true := by
  have narrow : Narrow (· = '\\') := .same (by decide)
  rw [Closer,stands_iff_getElem?_bytes (by decide),narrow.behind_iff]
  simp only [Option.any_eq_true,Bool.and_eq_true,decide_eq_true_eq,Bool.or_eq_true]
  refine and_congr_right fun reached => and_congr_right fun _ => ?_
  by_cases same : i = start
  · simp [same]
  · simp [same,show 0 < i by omega]

theorem closeValue?_of_closes {document : Text} {start stop : Nat} (closes : Closes document start stop) :
    closeValue? (bytes document) start = some stop := by
  obtain ⟨first,least⟩ := closes
  obtain ⟨reached,passes⟩ := closer_iff.mp first
  refine List.find?_range'_eq_some.mpr ⟨passes,List.mem_range'_1.mpr ⟨reached,?_⟩,fun i before behind => ?_⟩
  · obtain ⟨quote,-⟩ := Bool.and_eq_true_iff.mp passes
    obtain ⟨within,-⟩ := List.getElem?_eq_some_iff.mp (of_decide_eq_true quote)
    omega
  · have opens : ¬ Closer document start i := fun closer => Nat.not_le_of_lt behind (least i closer)
    rw [closer_iff] at opens
    simpa only [Bool.not_eq_true'] using eq_false_of_ne_true fun passes => opens ⟨before,passes⟩

theorem closeValue?_of_unclosed {document : Text} {start : Nat} (unclosed : ∀ place, ¬ Closer document start place) :
    closeValue? (bytes document) start = none := by
  refine List.find?_eq_none.mpr fun i member closes => ?_
  exact unclosed i (closer_iff.mpr ⟨(List.mem_range'_1.mp member).1,closes⟩)

theorem quotes_none : ∀ q ∈ (none : Option Char), isQuote q = true :=
  fun _ member => absurd member (Option.not_mem_none _)

theorem closeTag?_high {quote : Option Char} (quotes : ∀ q ∈ quote, isQuote q = true) {high : List Char}
    (wide : ∀ b ∈ high, 128 ≤ b.toNat) (offset : Nat) (rest : List Char) :
    closeTag? quote offset (high ++ rest) = closeTag? quote (offset + high.length) rest := by
  induction high generalizing offset with
  | nil => rfl
  | cons b high ih =>
    have far := wide b List.mem_cons_self
    have unquoted := narrow_isQuote.eq_false far
    have unbracketed := narrow_isBracket.eq_false far
    simp only [isBracket,Bool.or_eq_false_iff,decide_eq_false_iff_not] at unbracketed
    have later := ih (fun d member => wide d (List.mem_cons_of_mem _ member)) (offset + 1)
    rw [List.length_cons,Nat.add_comm high.length,← Nat.add_assoc,← later,List.cons_append]
    cases quote with
    | none => simp [closeTag?,unquoted,unbracketed]
    | some q =>
      have other : b ≠ q := by
        rintro rfl
        rw [quotes b rfl] at unquoted
        contradiction
      simp [closeTag?,other]

theorem closeTag?_wide {quote : Option Char} (quotes : ∀ q ∈ quote, isQuote q = true) {c : Char} (wide : 128 ≤ c.toNat)
    (read text : Text) : Markup.closeTag? quote read (c :: text) = Markup.closeTag? quote (c :: read) text := by
  have unquoted := narrow_isQuote.eq_false wide
  have unbracketed := narrow_isBracket.eq_false wide
  simp only [isBracket,Bool.or_eq_false_iff,decide_eq_false_iff_not] at unbracketed
  cases quote with
  | none => simp [Markup.closeTag?,unquoted,unbracketed]
  | some q =>
    have other : c ≠ q := by
      rintro rfl
      rw [quotes c rfl] at unquoted
      contradiction
    simp [Markup.closeTag?,other]

theorem closeTag?_eq {quote : Option Char} (quotes : ∀ q ∈ quote, isQuote q = true) (base : Nat) (read text : Text) :
    closeTag? quote (base + byteSize read) (bytes text) =
      (Markup.closeTag? quote read text).map (base + byteSize ·) := by
  induction text generalizing quote read with
  | nil => rfl
  | cons c text ih =>
    have later {next : Option Char} (quotes : ∀ q ∈ next, isQuote q = true) :
        closeTag? next (base + byteSize read + c.utf8Size) (bytes text) =
          (Markup.closeTag? next (c :: read) text).map (base + byteSize ·) := by
      have size : base + byteSize read + c.utf8Size = base + byteSize (c :: read) := by
        rw [byteSize_cons]
        omega
      rw [size]
      exact ih quotes (c :: read)
    -- a short character is its own byte, and no byte of a longer one can end the search
    rcases Nat.lt_or_ge c.toNat 128 with short | long
    · have one := utf8Size_of_lt short
      rw [one] at later
      rw [bytes_cons,encode_of_lt short,List.singleton_append]
      cases quote with
      | some q =>
        rw [closeTag?,Markup.closeTag?]
        refine later fun other member => ?_
        split at member
        next => exact quotes_none other member
        next => exact quotes other member
      | none =>
        rw [closeTag?,Markup.closeTag?]
        split
        next quote => exact later fun q member => (Option.some.inj member) ▸ quote
        next =>
          split
          next => rw [Option.map_some,byteSize_cons,one,Nat.add_comm 1,Nat.add_assoc]
          next =>
            split
            next => rfl
            next => exact later quotes_none
    · rw [bytes_cons,closeTag?_high quotes (fun b => le_toNat_of_mem_encode long),length_encode,later quotes,
        closeTag?_wide quotes long]

theorem openTag?_of_clear {front : Text} (clear : ∀ c ∈ front, isBracket c = false) :
    openTag? front.reverse = none := by
  have dropped : front.reverse.dropWhile (!isBracket ·) = [] := by
    have gone : (front.reverse ++ []).dropWhile (!isBracket ·) = [].dropWhile (!isBracket ·) :=
      List.dropWhile_append_of_pos fun c member => by rw [clear c (List.mem_reverse.mp member),Bool.not_false]
    rwa [List.append_nil] at gone
  rw [openTag?_eq,dropped]

theorem openTag?_of_bracket {stem back : Text} {bracket : Char} (bracketed : isBracket bracket = true)
    (clear : ∀ c ∈ back, isBracket c = false) : openTag? (stem ++ bracket :: back).reverse =
      if bracket = '<' && back.head?.any Char.isAlpha then some (stem.reverse,'<' :: back) else none := by
  have split : (stem ++ bracket :: back).reverse = back.reverse ++ bracket :: stem.reverse := by simp
  have inside (c : Char) (member : c ∈ back.reverse) : (!isBracket c) = true := by
    rw [clear c (List.mem_reverse.mp member),Bool.not_false]
  have stop : (!isBracket bracket) = false := by rw [bracketed,Bool.not_true]
  rw [openTag?_eq,split,takeWhile_of_stop inside stop,dropWhile_of_stop inside stop,List.getLast?_reverse,
    List.reverse_reverse]
  by_cases opening : bracket = '<'
  · subst opening
    cases back with
    | nil => rfl
    | cons letter back => simp
  · have other : ∀ before letter, ¬ (bracket :: stem.reverse = '<' :: before ∧ back.head? = some letter) := by
      rintro before letter ⟨same,-⟩
      exact opening (List.cons.inj same).1
    simp only [opening]
    split
    next before letter same head => exact absurd ⟨same,head⟩ (other before letter)
    next => rfl

/-- Behind a bracket, when white space comes last, there is a letter among the bytes if there is
one among the characters. -/
theorem letter_of_bracket {stem back : Text} {bracket : Char} (bracketed : isBracket bracket = true)
    (spaced : ∃ c ∈ (stem ++ bracket :: back).getLast?, isSpace c = true) (tail : Text) :
    ((bytes (stem ++ bracket :: back ++ tail))[byteSize stem + 1]?).any Char.isAlpha =
      back.head?.any Char.isAlpha := by
  cases back with
  | nil =>
    obtain ⟨c,ends,space⟩ := spaced
    rw [List.getLast?_append,List.getLast?_singleton,Option.some_or,Option.mem_def,Option.some.injEq] at ends
    subst ends
    simp only [isBracket,Bool.or_eq_true,decide_eq_true_eq] at bracketed
    rcases bracketed with rfl | rfl <;> exact absurd space (by decide)
  | cons d back =>
    obtain ⟨b,member,same⟩ := exists_getElem?_bytes (stem ++ [bracket]) d (back ++ tail) (Nat.le_refl _)
      (Nat.lt_add_of_pos_right d.utf8Size_pos)
    have shape : stem ++ bracket :: d :: back ++ tail = stem ++ [bracket] ++ d :: (back ++ tail) := by simp
    rw [byteSize_append,byteSize_cons,(narrow_isBracket.encode_eq bracketed).2,byteSize_nil,← shape] at same
    rw [same,Option.any_some,narrow_isAlpha.of_mem_encode member]
    rfl

theorem enclosingTag?_eq {document front tail through rest : Text} {attr : Span}
    (first : cut? document attr.start = some (front,tail)) (last : cut? document attr.stop = some (through,rest))
    (spaced : ∃ c ∈ front.getLast?, isSpace c = true) :
    enclosingTag? (bytes document) attr = some (Markup.enclosingTag? document attr) := by
  obtain ⟨whole,start⟩ := cut?_eq_some.mp first
  obtain ⟨split,stop⟩ := cut?_eq_some.mp last
  have lead : (bytes document).take attr.start = bytes front := by
    rw [whole,bytes_append,← start,← length_bytes front,List.take_left]
  have back : (bytes document).drop attr.stop = bytes rest := by
    rw [split,bytes_append,← stop,← length_bytes through,List.drop_left]
  -- the attribute lies within the document, so that neither slice is missing
  have short : ¬ (bytes document).length < attr.start := by
    rw [length_bytes,whole,byteSize_append]
    omega
  have ends : closeTag? none attr.stop (bytes rest) = (Markup.closeTag? none [] rest).map (attr.stop + byteSize ·) := by
    simpa using closeTag?_eq quotes_none attr.stop [] rest
  rw [enclosingTag?,if_neg short,lead,back,narrow_isBracket.lastWith?_bytes,Markup.enclosingTag?,first,last,ends]
  simp only [Option.bind_eq_bind,Option.bind_some]
  cases found : lastWith? Char.utf8Size isBracket front with
  | none =>
    rw [openTag?_of_clear (lastWith?_eq_none.mp found)]
    rfl
  | some start =>
    obtain ⟨stem,bracket,back,rfl,bracketed,clear,rfl⟩ := exists_of_lastWith? found
    have here : (bytes document)[byteSize stem]? = some bracket := by
      rw [← stands_iff_getElem?_bytes (narrow_isBracket bracket bracketed)]
      exact ⟨stem,back ++ tail,by simp [whole],rfl⟩
    have letter := letter_of_bracket bracketed spaced tail
    rw [← whole] at letter
    rw [openTag?_of_bracket bracketed clear]
    simp only [here,letter]
    split
    next =>
      rw [Option.map_map,Option.bind_some,byteSize_reverse]
      cases Markup.closeTag? none [] rest <;> rfl
    next => rfl

end StyleHoist.Markup.Bytewise
