import Mathlib.Data.List.Basic
import StyleHoist.Markup.Scan
import StyleHoist.Proofs.Text.Run

/-! The scan step by step: what it does at the end, at a character that opens nothing, at an
opening that is passed over and at one whose value ends. What holds of a scan is shown by
induction on these steps. -/
namespace StyleHoist.Markup

open Text

theorem scanFrom_nil (behind : Text) : scanFrom behind [] = [] := by
  have none : after? styleOpen [] = .none := rfl
  rw [scanFrom]
  split
  next => rfl
  next found => rw [none] at found; contradiction

theorem scanFrom_cons {c : Char} {rest : Text} (none : after? styleOpen (c :: rest) = .none)
    (behind : Text) : scanFrom behind (c :: rest) = scanFrom (c :: behind) rest := by
  rw [scanFrom]
  split
  next => rfl
  next found => rw [none] at found; contradiction

theorem scanFrom_append {text rest : Text}
    (none : ∀ tail, tail ≠ [] → tail <:+ text → after? styleOpen (tail ++ rest) = .none)
    (behind : Text) : scanFrom behind (text ++ rest) = scanFrom (text.reverse ++ behind) rest := by
  induction text generalizing behind with
  | nil => rfl
  | cons c text ih =>
    have head : after? styleOpen (c :: (text ++ rest)) = .none :=
      none (c :: text) (List.cons_ne_nil _ _) List.suffix_rfl
    rw [List.cons_append,scanFrom_cons head,
      ih fun tail some suffix => none tail some (suffix.trans (List.suffix_cons c text))]
    simp

theorem scanFrom_ne {text : Text} (other : ∀ c ∈ text, c ≠ 's') (behind rest : Text) :
    scanFrom behind (text ++ rest) = scanFrom (text.reverse ++ behind) rest := by
  apply scanFrom_append
  intro tail some suffix
  obtain ⟨c,tail,rfl⟩ := List.exists_cons_of_ne_nil some
  exact if_neg (other c (suffix.mem List.mem_cons_self)).symm

/-- What is found at an opening whose value ends. -/
def itemAt (behind value rest : Text) : Item :=
  match styleAttr? behind value rest with
  | some attr => .style attr
  | none => .warning ⟨.unbounded,Position.ofBehind behind⟩

theorem scanFrom_styleOpen (behind rest : Text) : scanFrom behind (styleOpen ++ rest) =
    if behind.head?.any isSpace then
      match closeValue? [] rest with
      | none => [.warning ⟨.malformed,Position.ofBehind behind⟩]
      | some (value,after) =>
        itemAt behind value.reverse after :: scanFrom ('"' :: value ++ (styleOpen.reverse ++ behind)) after
    else if behind.head?.any isQuote then
      .warning ⟨.unseparated,Position.ofBehind behind⟩ :: scanFrom (styleOpen.reverse ++ behind) rest
    else scanFrom (styleOpen.reverse ++ behind) rest := by
  rw [scanFrom]
  split
  next none => rw [after?_append] at none; contradiction
  next tail found =>
    rw [after?_append] at found
    cases found
    split
    next =>
      split
      next unclosed => rw [unclosed]
      next closed =>
        rw [closed]
        rfl
    next => rfl

theorem scanFrom_within {behind : Text} (unspaced : behind.head?.any isSpace = false)
    (unquoted : behind.head?.any isQuote = false) (rest : Text) :
    scanFrom behind (styleOpen ++ rest) = scanFrom (styleOpen.reverse ++ behind) rest := by
  rw [scanFrom_styleOpen,unspaced,unquoted,if_neg Bool.false_ne_true,if_neg Bool.false_ne_true]

theorem scanFrom_unseparated {behind : Text} (unspaced : behind.head?.any isSpace = false)
    (quoted : behind.head?.any isQuote = true) (rest : Text) :
    scanFrom behind (styleOpen ++ rest) =
      .warning ⟨.unseparated,Position.ofBehind behind⟩ :: scanFrom (styleOpen.reverse ++ behind) rest := by
  rw [scanFrom_styleOpen,unspaced,if_neg Bool.false_ne_true,if_pos quoted]

theorem scanFrom_unclosed {behind rest : Text} (spaced : behind.head?.any isSpace = true)
    (unclosed : closeValue? [] rest = none) :
    scanFrom behind (styleOpen ++ rest) = [.warning ⟨.malformed,Position.ofBehind behind⟩] := by
  rw [scanFrom_styleOpen,if_pos spaced,unclosed]

theorem scanFrom_read {behind text read rest : Text} (spaced : behind.head?.any isSpace = true)
    (closed : closeValue? [] text = some (read,rest)) : scanFrom behind (styleOpen ++ text) =
      itemAt behind read.reverse rest :: scanFrom ('"' :: read ++ (styleOpen.reverse ++ behind)) rest := by
  rw [scanFrom_styleOpen,if_pos spaced,closed]

theorem scanFrom_value {behind value rest : Text} (spaced : behind.head?.any isSpace = true)
    (closed : closeValue? [] (value ++ '"' :: rest) = some (value.reverse,rest)) :
    scanFrom behind (styleOpen ++ (value ++ '"' :: rest)) =
      itemAt behind value rest ::
        scanFrom ('"' :: value.reverse ++ (styleOpen.reverse ++ behind)) rest := by
  rw [scanFrom_read spaced closed,List.reverse_reverse]

theorem filterMap_style?_cons (item : Item) (items : List Item) :
    (item :: items).filterMap Item.style? = item.style?.toList ++ items.filterMap Item.style? := by
  rw [List.filterMap_cons]
  cases item.style? <;> rfl

/-- The steps of a scan: the text behind, the text ahead, and the items that are found ahead. -/
inductive Scans : Text → Text → List Item → Prop
  | nil (behind : Text) : Scans behind [] []
  | cons {behind rest : Text} {c : Char} {items : List Item} (unopened : after? styleOpen (c :: rest) = none)
      (onwards : Scans (c :: behind) rest items) : Scans behind (c :: rest) items
  | unclosed {behind rest : Text} (spaced : behind.head?.any isSpace = true) (unclosed : closeValue? [] rest = none) :
      Scans behind (styleOpen ++ rest) [.warning ⟨.malformed,Position.ofBehind behind⟩]
  | value {behind value rest : Text} {items : List Item} (spaced : behind.head?.any isSpace = true)
      (closed : closeValue? [] (value ++ '"' :: rest) = some (value.reverse,rest))
      (onwards : Scans ('"' :: value.reverse ++ (styleOpen.reverse ++ behind)) rest items) :
      Scans behind (styleOpen ++ (value ++ '"' :: rest)) (itemAt behind value rest :: items)
  | unseparated {behind rest : Text} {items : List Item} (unspaced : behind.head?.any isSpace = false)
      (quoted : behind.head?.any isQuote = true) (onwards : Scans (styleOpen.reverse ++ behind) rest items) :
      Scans behind (styleOpen ++ rest) (.warning ⟨.unseparated,Position.ofBehind behind⟩ :: items)
  | within {behind rest : Text} {items : List Item} (unspaced : behind.head?.any isSpace = false)
      (unquoted : behind.head?.any isQuote = false) (onwards : Scans (styleOpen.reverse ++ behind) rest items) :
      Scans behind (styleOpen ++ rest) items

theorem scans_scanFrom (behind ahead : Text) : Scans behind ahead (scanFrom behind ahead) := by
  fun_induction scanFrom behind ahead with
  | case1 behind => exact .nil behind
  | case2 behind c rest unopened ih => exact .cons unopened ih
  | case3 behind ahead rest opened spaced unclosed =>
    rw [after?_eq_some.mp opened]
    exact .unclosed spaced unclosed
  | case4 behind ahead rest opened inside spaced value after closed item ih =>
    obtain ⟨content,rfl,same⟩ := closeValue?_eq_some closed
    rw [List.append_nil] at same
    subst same
    rw [after?_eq_some.mp opened]
    have found : item = itemAt behind content after := by
      simp only [item,List.reverse_reverse]
      rfl
    rw [found]
    exact .value spaced closed ih
  | case5 behind ahead rest opened inside unspaced quoted ih =>
    rw [after?_eq_some.mp opened]
    exact .unseparated (eq_false_of_ne_true unspaced) quoted ih
  | case6 behind ahead rest opened inside unspaced unquoted ih =>
    rw [after?_eq_some.mp opened]
    exact .within (eq_false_of_ne_true unspaced) (eq_false_of_ne_true unquoted) ih

end StyleHoist.Markup
