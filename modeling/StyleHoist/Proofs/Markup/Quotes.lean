import StyleHoist.Proofs.Markup.Located
import StyleHoist.Proofs.Text.Run

/-! Quotes as the searches for the end of a tag and for its class attribute follow them: each
ends at the next of its kind, whatever stands before that. What such a search does behind a
stretch of text depends on the stretch only through the quote that it leaves open. -/
namespace StyleHoist.Markup

open Text

/-- The quote that is open behind a character. -/
def nextQuote : Option Char → Char → Option Char
  | some q, c => if c = q then none else some q
  | none, c => if isQuote c then some c else none

/-- The quote that is open behind a text. -/
def quoteAfter (quote : Option Char) (text : Text) : Option Char := text.foldl nextQuote quote

/-- Nothing in a text opens a class attribute: behind white space, outside quotes. -/
def Unnamed (quote : Option Char) (text : Text) : Prop :=
  ∀ front back, text = front ++ (classOpen ++ back) → front.getLast?.any isSpace = true →
    quoteAfter quote front ≠ none

variable {quote : Option Char} {text : Text}

theorem quoteAfter_append (quote : Option Char) (front back : Text) :
    quoteAfter quote (front ++ back) = quoteAfter (quoteAfter quote front) back := List.foldl_append

theorem quoteAfter_cons (quote : Option Char) (c : Char) (text : Text) :
    quoteAfter quote (c :: text) = quoteAfter (nextQuote quote c) text := rfl

theorem quoteAfter_unquoted (unquoted : ∀ c ∈ text, isQuote c = false) : quoteAfter none text = none := by
  induction text with
  | nil => rfl
  | cons c text ih =>
    rw [quoteAfter_cons,nextQuote,unquoted c List.mem_cons_self,if_neg Bool.false_ne_true]
    exact ih fun d member => unquoted d (List.mem_cons_of_mem _ member)

theorem quoteAfter_within {q : Char} (absent : q ∉ text) : quoteAfter (some q) text = some q := by
  induction text with
  | nil => rfl
  | cons c text ih =>
    obtain ⟨other,absent⟩ := List.ne_and_not_mem_of_not_mem_cons absent
    rw [quoteAfter_cons,nextQuote,if_neg other.symm]
    exact ih absent

theorem closeTag?_past (clear : ∀ c ∈ text, isBracket c = false) (quote : Option Char) (read rest : Text) :
    closeTag? quote read (text ++ rest) = closeTag? (quoteAfter quote text) (text.reverse ++ read) rest := by
  induction text generalizing quote read with
  | nil => rfl
  | cons c text ih =>
    have step : closeTag? quote read (c :: (text ++ rest)) = closeTag? (nextQuote quote c) (c :: read) (text ++ rest) := by
      have bracket := clear c List.mem_cons_self
      simp only [isBracket,Bool.or_eq_false_iff,decide_eq_false_iff_not] at bracket
      cases quote with
      | some q => rfl
      | none =>
        rw [closeTag?,nextQuote]
        cases isQuote c <;> simp [bracket]
    rw [List.cons_append,step,ih fun d member => clear d (List.mem_cons_of_mem _ member)]
    simp [quoteAfter_cons]

/-- A class attribute that the search finds in front of a character opens before it. The text may
go on from there in any way. -/
theorem classIn?_past {c : Char} (other : c ∉ classOpen) (quote : Option Char) (before : Char) (offset : Nat)
    (unnamed : ∀ front back, text = front ++ (classOpen ++ back) → (before :: front).getLast?.any isSpace = true →
      quoteAfter quote front ≠ none) :
    ∃ last, ∀ rest, classIn? quote before offset (text ++ c :: rest) =
      classIn? (quoteAfter quote text) last (offset + byteSize text) (c :: rest) := by
  induction text generalizing quote before offset with
  | nil => exact ⟨before,fun rest => rfl⟩
  | cons d text ih =>
    have step (rest : Text) : classIn? quote before offset (d :: (text ++ c :: rest)) =
        classIn? (nextQuote quote d) d (offset + d.utf8Size) (text ++ c :: rest) := by
      cases quote with
      | some q => rfl
      | none =>
        have absent : isSpace before = true → after? classOpen (d :: text) = none := by
          intro space
          refine Option.eq_none_iff_forall_not_mem.mpr fun tail opened => ?_
          have split : d :: text = classOpen ++ tail := after?_eq_some.mp opened
          exact unnamed [] tail split space rfl
        have further : (if isSpace before then after? classOpen (d :: (text ++ c :: rest)) else none) = none := by
          split
          next space => rw [← List.cons_append,after?_append_cons other,absent space,Option.map_none]
          next => rfl
        rw [classIn?,further]
        rfl
    obtain ⟨last,passed⟩ := ih (nextQuote quote d) d (offset + d.utf8Size)
      fun front back split spaced => unnamed (d :: front) back (by rw [split,List.cons_append]) (by simpa using spaced)
    refine ⟨last,fun rest => ?_⟩
    rw [List.cons_append,step,passed,byteSize_cons,Nat.add_assoc]
    rfl

end StyleHoist.Markup
