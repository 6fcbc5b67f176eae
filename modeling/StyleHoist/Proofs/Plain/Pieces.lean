import StyleHoist.Proofs.Plain.Scan

/-! The scan of a whole plain document: text and other markup are passed over, so
the items are the style attributes of the tags, where they were printed. -/
namespace StyleHoist.Markup

open Text

namespace Piece

/-- Text behind which a piece of text can be at its end. -/
def Bounded (text : Text) : Prop := text = [] ∨ ∃ rest, text = '<' :: rest

theorem arePlain_cons {piece : Piece} {rest : List Piece} (plain : arePlain (piece :: rest) = true) :
    piece.isPlain = true ∧ arePlain rest = true ∧ (piece.isText = true → Bounded (printAll rest)) := by
  cases rest with
  | nil => exact ⟨plain,rfl,fun _ => Or.inl rfl⟩
  | cons next rest =>
    simp only [arePlain,Bool.and_eq_true,Bool.not_eq_true',Bool.and_eq_false_iff] at plain
    obtain ⟨⟨here,apart⟩,later⟩ := plain
    refine ⟨here,later,fun textual => Or.inr ?_⟩
    cases next with
    | text content =>
      rw [textual] at apart
      simp [isText] at apart
    | other inside => exact ⟨_,rfl⟩
    | tag start => exact ⟨_,by rw [printAll,List.flatMap_cons,print,Tag.print_eq]; rfl⟩

theorem after?_of_hasStyleOpen {text tail : Text} (absent : hasStyleOpen text = false)
    (suffix : tail <:+ text) : after? styleOpen tail = none := by
  induction text with
  | nil =>
    rw [List.suffix_nil.mp suffix]
    rfl
  | cons c text ih =>
    simp only [hasStyleOpen,Bool.or_eq_false_iff,Option.isSome_eq_false_iff,
      Option.isNone_iff_eq_none] at absent
    rcases List.suffix_cons_iff.mp suffix with rfl | inner
    · exact absent.1
    · exact ih absent.2 inner

theorem scanFrom_inert {text : Text} (inert : isInert text = true) {rest : Text}
    (bounded : rest = [] ∨ ∃ c tail, rest = c :: tail ∧ c ∉ styleOpen) (behind : Text) :
    scanFrom behind (text ++ rest) = scanFrom (text.reverse ++ behind) rest := by
  simp only [isInert,Bool.and_eq_true,Bool.not_eq_true'] at inert
  apply scanFrom_append
  intro tail some suffix
  have absent := after?_of_hasStyleOpen inert.2 suffix
  rcases bounded with rfl | ⟨c,more,rfl,outside⟩
  · rwa [List.append_nil]
  · rw [after?_append_cons outside,absent,Option.map_none]

/-- The style attributes of a piece that is printed at a place. -/
def located (offset : Nat) : Piece → List StyleAttr
  | .tag start => start.located offset
  | _ => []

def locatedAll (offset : Nat) : List Piece → List StyleAttr
  | [] => []
  | piece :: rest => piece.located offset ++ locatedAll (offset + byteSize piece.print) rest

theorem scanFrom_print {piece : Piece} (plain : piece.isPlain = true) {rest : Text}
    (bounded : piece.isText = true → Bounded rest) (behind : Text) :
    scanFrom behind (piece.print ++ rest) =
      (piece.located (byteSize behind)).map .style ++ scanFrom (piece.print.reverse ++ behind) rest := by
  cases piece with
  | text content =>
    refine scanFrom_inert plain ?_ behind
    rcases bounded rfl with rfl | ⟨tail,rfl⟩
    · exact Or.inl rfl
    · exact Or.inr ⟨'<',tail,rfl,by decide⟩
  | other inside =>
    have inert : isInert inside = true := (Bool.and_eq_true_iff.mp plain).2
    have whole : print (.other inside) ++ rest = '<' :: (inside ++ '>' :: rest) := by simp [print]
    rw [whole,scanFrom_cons rfl,
      scanFrom_inert inert (Or.inr ⟨'>',rest,rfl,by decide⟩),scanFrom_cons rfl]
    simp [located,print]
  | tag start => exact scanFrom_tag (Tag.plain_of_isPlain plain).legible behind rest

theorem scanFrom_printAll {pieces : List Piece} (plain : arePlain pieces = true) (behind : Text) :
    scanFrom behind (printAll pieces) = (locatedAll (byteSize behind) pieces).map .style := by
  induction pieces generalizing behind with
  | nil => exact scanFrom_nil behind
  | cons piece rest ih =>
    obtain ⟨here,later,bounded⟩ := arePlain_cons plain
    have split : printAll (piece :: rest) = piece.print ++ printAll rest := List.flatMap_cons
    rw [split,scanFrom_print here bounded,ih later,byteSize_append,byteSize_reverse,Nat.add_comm,
      locatedAll,List.map_append]

/-- The items of a plain document are the style attributes of its tags. -/
theorem scan_printAll {pieces : List Piece} (plain : arePlain pieces = true) :
    scan (printAll pieces) = (locatedAll 0 pieces).map .style :=
  scanFrom_printAll plain []

theorem styleAttrs_printAll {pieces : List Piece} (plain : arePlain pieces = true) :
    styleAttrs (printAll pieces) = locatedAll 0 pieces := by
  rw [styleAttrs,scan_printAll plain,List.filterMap_map]
  exact List.filterMap_some

end Piece

end StyleHoist.Markup
