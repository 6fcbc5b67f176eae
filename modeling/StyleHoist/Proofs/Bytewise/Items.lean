import StyleHoist.Proofs.Bytewise.Names

/-! The items of a document, found on its bytes. Every slice that is taken is there, and the
items are those that the scan finds character by character. -/
namespace StyleHoist.Markup.Bytewise

open Text

theorem position?_eq (text : Text) (offset : Nat) : position? text offset = Position.locate? text offset := by
  rw [position?,Position.locate?]
  cases found : cut? text offset with
  | none => rfl
  | some parts =>
    obtain ⟨before,rest⟩ := parts
    obtain ⟨-,rfl⟩ := cut?_eq_some.mp found
    simp only [Option.bind_eq_bind,Option.bind_some,Option.map_some]
    cases last : lastWith? Char.utf8Size (· = '\n') before with
    | none =>
      have clear := lastWith?_eq_none.mp last
      have whole : before.reverse.takeWhile (· ≠ '\n') = before.reverse := by
        have same : (before.reverse ++ []).takeWhile (· ≠ '\n') = before.reverse ++ [].takeWhile (· ≠ '\n') :=
          List.takeWhile_append_of_pos fun c member => by simpa using clear c (List.mem_reverse.mp member)
        simpa using same
      have cut : cut? before 0 = some ([],before) := cut?_eq_some.mpr ⟨rfl,rfl⟩
      rw [Option.map_none,Option.getD_none,cut,Option.bind_some,Position.ofBehind,whole]
      simp only [byteSize_reverse,List.count_reverse,List.length_reverse]
    | some start =>
      obtain ⟨front,c,line,rfl,feed,clear,rfl⟩ := exists_of_lastWith? last
      obtain rfl := of_decide_eq_true feed
      have cut : cut? (front ++ '\n' :: line) (byteSize front + 1) = some (front ++ ['\n'],line) :=
        cut?_eq_some.mpr ⟨by simp,by simp; rfl⟩
      have ends : (front ++ '\n' :: line).reverse.takeWhile (· ≠ '\n') = line.reverse := by
        have split : (front ++ '\n' :: line).reverse = line.reverse ++ '\n' :: front.reverse := by simp
        rw [split]
        exact takeWhile_of_stop (fun d member => by simpa using clear d (List.mem_reverse.mp member)) rfl
      rw [Option.map_some,Option.getD_some,cut,Option.bind_some,Position.ofBehind,ends]
      simp only [byteSize_reverse,List.count_reverse,List.length_reverse]

theorem warn?_eq {document : Text} {offset : Nat} {position : Position}
    (here : Position.locate? document offset = some position) (trouble : Trouble) (next : Option Nat) :
    Turn.warn? document offset trouble next = some ⟨some (.warning ⟨trouble,position⟩),next⟩ := by
  rw [Turn.warn?,position?_eq,here,Option.map_some]

section

variable {document : Text} {offset stop : Nat} {position : Position} {item : Item}

theorem exists_byte_of_behind {p : Char → Bool} (narrow : Narrow p) (behind : Behind document offset p) :
    offset ≠ 0 ∧ ∃ b, (bytes document)[offset - 1]? = some b ∧ p b = true := by
  obtain ⟨positive,passes⟩ := narrow.behind_iff.mp behind
  rw [Option.any_eq_true] at passes
  exact ⟨Nat.ne_of_gt positive,passes⟩

theorem judge?_unseparated (here : Position.locate? document offset = some position)
    (behind : Behind document offset isQuote) :
    judge? document offset = some ⟨some (.warning ⟨.unseparated,position⟩),some (offset + 7)⟩ := by
  obtain ⟨later,b,before,quote⟩ := exists_byte_of_behind narrow_isQuote behind
  have unspaced := isSpace_of_isQuote quote
  simp only [judge?,if_neg later,before,Option.bind_eq_bind,Option.bind_some,unspaced,quote,Bool.false_eq_true,if_false,
    if_true,warn?_eq here]

theorem judge?_malformed (here : Position.locate? document offset = some position)
    (behind : Behind document offset isSpace) (unclosed : ∀ place, ¬ Closer document (offset + 7) place) :
    judge? document offset = some ⟨some (.warning ⟨.malformed,position⟩),none⟩ := by
  obtain ⟨later,b,before,space⟩ := exists_byte_of_behind narrow_isSpace behind
  simp only [judge?,if_neg later,before,Option.bind_eq_bind,Option.bind_some,space,if_true,
    closeValue?_of_unclosed unclosed,warn?_eq here]

theorem judge?_closed (judged : Judged document offset item) (behind : Behind document offset isSpace)
    (closes : Closes document (offset + 7) stop) :
    judge? document offset = some ⟨some item,some (stop + 1)⟩ := by
  obtain ⟨later,b,before,space⟩ := exists_byte_of_behind narrow_isSpace behind
  have enclosed : enclosingTag? (bytes document) ⟨offset,stop + 1⟩ =
      some (Markup.enclosingTag? document ⟨offset,stop + 1⟩) := by
    obtain ⟨front,c,rest,whole,size,blank⟩ := behind
    obtain ⟨through,after,split,ends⟩ := closes.1.2.1
    have start : cut? document offset = some (front ++ [c],rest) :=
      cut?_eq_some.mpr ⟨by rw [whole,List.append_cons],by simp [size]⟩
    exact enclosingTag?_eq start (cut?_eq_some.mpr ⟨split,by rw [byteSize_append,ends]; rfl⟩) ⟨c,by simp,blank⟩
  simp only [judge?,if_neg later,before,Option.bind_eq_bind,Option.bind_some,space,if_true,
    closeValue?_of_closes closes,enclosed]
  cases judged with
  | unseparated _ quoted => exact (not_isSpace_and_isQuote behind quoted).elim
  | malformed _ _ unclosed => exact (unclosed stop closes.1).elim
  | unbounded here _ again tagless =>
    obtain rfl := closes.unique again
    rw [tagless,warn?_eq here]
  | style _ again encloses inside =>
    obtain rfl := closes.unique again
    simp only [encloses,classOf?_eq inside,Option.bind_some]

theorem judge?_plain (within : offset ≤ byteSize document) (unspaced : ¬ Behind document offset isSpace)
    (unquoted : ¬ Behind document offset isQuote) : judge? document offset = some ⟨none,some (offset + 7)⟩ := by
  rw [judge?]
  split
  next => rfl
  next later =>
    have short : offset - 1 < (bytes document).length := by
      rw [length_bytes]
      omega
    have before := List.getElem?_eq_getElem short
    have fails {p : Char → Bool} (narrow : Narrow p) (other : ¬ Behind document offset p) :
        p (bytes document)[offset - 1] = false := by
      rw [narrow.behind_iff,before,Option.any_some] at other
      exact eq_false_of_ne_true fun passes => other ⟨Nat.pos_of_ne_zero later,passes⟩
    simp only [before,fails narrow_isSpace unspaced,fails narrow_isQuote unquoted,Option.bind_eq_bind,Option.bind_some,
      Bool.false_eq_true,if_false]

end

theorem turn?_eq (behind ahead : Text) : turn? (behind.reverse ++ ahead) (byteSize behind) =
    (find? styleOpen ahead).elim (some ⟨none,none⟩) fun found =>
      judge? (behind.reverse ++ ahead) (byteSize behind + found) := by
  have cut : cut? (behind.reverse ++ ahead) (byteSize behind) = some (behind.reverse,ahead) :=
    cut?_eq_some.mpr ⟨rfl,byteSize_reverse behind⟩
  simp only [turn?,cut,Option.bind_eq_bind,Option.bind_some]
  cases find? styleOpen ahead <;> rfl

theorem turn?_skip {behind rest : Text} {c : Char} (unopened : after? styleOpen (c :: rest) = none) :
    turn? (behind.reverse ++ c :: rest) (byteSize behind) =
      turn? (behind.reverse ++ c :: rest) (byteSize (c :: behind)) := by
  have later := turn?_eq (c :: behind) rest
  rw [List.reverse_cons,List.append_assoc,List.singleton_append] at later
  rw [later,turn?_eq,find?,unopened]
  cases find? styleOpen rest with
  | none => rfl
  | some found =>
    have same : byteSize behind + (c.utf8Size + found) = byteSize (c :: behind) + found := by
      rw [byteSize_cons]
      omega
    simp only [Option.isSome_none,Bool.false_eq_true,if_false,Option.map_some,Option.elim_some,same]

theorem turn?_open (behind rest : Text) : turn? (behind.reverse ++ (styleOpen ++ rest)) (byteSize behind) =
    judge? (behind.reverse ++ (styleOpen ++ rest)) (byteSize behind) := by
  rw [turn?_eq,find?_of_after? (by decide) (after?_append styleOpen rest)]
  rfl

theorem itemsFrom?_eq (document : Text) (cursor : Nat) : itemsFrom? document cursor =
    (turn? document cursor).bind fun turn => turn.next.elim (some turn.item.toList) fun next =>
      (itemsFrom? document next).map (turn.item.toList ++ ·) := by
  rw [itemsFrom?]
  split
  next taken => rw [taken,Option.bind_none]
  next turn taken =>
    rw [taken,Option.bind_some]
    split
    next ends => rw [ends,Option.elim_none]
    next next goes => rw [goes,Option.elim_some]

/-- Every slice is there, and the items are those found character by character. -/
theorem itemsFrom?_eq_some {behind ahead : Text} {items : List Item} (scans : Scans behind ahead items) :
    itemsFrom? (behind.reverse ++ ahead) (byteSize behind) = some items := by
  induction scans with
  | nil behind =>
    rw [itemsFrom?_eq,turn?_eq]
    rfl
  | cons unopened _ ih =>
    rw [List.reverse_cons,List.append_assoc,List.singleton_append] at ih
    rw [itemsFrom?_eq,turn?_skip unopened,← itemsFrom?_eq,ih]
  | @unclosed behind rest spaced unclosed =>
    have blank := (behind_reverse behind (styleOpen ++ rest) isSpace).mpr spaced
    have unending := not_closer_of_closeValue? (behind.reverse ++ styleOpen) unclosed
    rw [List.append_assoc,byteSize_append,byteSize_reverse,byteSize_styleOpen] at unending
    rw [itemsFrom?_eq,turn?_open,judge?_malformed (locate?_append behind _) blank unending]
    rfl
  | @value behind value rest _ spaced closed _ ih =>
    have blank := (behind_reverse behind (styleOpen ++ (value ++ '"' :: rest)) isSpace).mpr spaced
    obtain ⟨whole,size⟩ := passed_value behind value rest
    rw [whole,size] at ih
    rw [itemsFrom?_eq,turn?_open,judge?_closed (judged_of_closes spaced closed) blank (closes_value behind closed),
      Option.bind_some]
    dsimp only [Option.elim_some]
    rw [ih]
    rfl
  | @unseparated behind rest _ unspaced quoted _ ih =>
    obtain ⟨whole,size⟩ := passed_styleOpen behind rest
    have quote := (behind_reverse behind (styleOpen ++ rest) isQuote).mpr quoted
    rw [whole,size] at ih
    rw [itemsFrom?_eq,turn?_open,judge?_unseparated (locate?_append behind _) quote,Option.bind_some]
    dsimp only [Option.elim_some]
    rw [ih]
    rfl
  | @within behind rest _ unspaced unquoted _ ih =>
    obtain ⟨whole,size⟩ := passed_styleOpen behind rest
    rw [whole,size] at ih
    have within : byteSize behind ≤ byteSize (behind.reverse ++ (styleOpen ++ rest)) := by
      rw [byteSize_append,byteSize_reverse]
      omega
    rw [itemsFrom?_eq,turn?_open,judge?_plain within (by simp [behind_reverse,unspaced])
      (by simp [behind_reverse,unquoted]),Option.bind_some]
    dsimp only [Option.elim_some]
    rw [ih]
    rfl

end StyleHoist.Markup.Bytewise
