import Mathlib
import StyleHoist.Event

/-! The compact text of a JSON value has no line feed, so that an event of the
log is one line whatever it tells. -/
namespace StyleHoist

theorem lineFeed_notMem_toDigits (n : Nat) : '\n' ∉ Nat.toDigits 10 n :=
  fun inside => absurd (Nat.isDigit_of_mem_toDigits (by decide) (le_refl _) inside) (by decide)

theorem lineFeed_notMem_int (n : Int) : '\n' ∉ (toString n).toList := by
  have digits := lineFeed_notMem_toDigits
  cases n <;> simp [toString,Int.repr,digits]

theorem Double.lineFeed_notMem_layout {plus : Bool} {digits : List Char} {exponent : Int} (plain : '\n' ∉ digits) :
    '\n' ∉ layout plus digits exponent := by
  have number := lineFeed_notMem_int
  have front : ∀ n, '\n' ∉ digits.take n := fun n inside => plain (List.mem_of_mem_take inside)
  have back : ∀ n, '\n' ∉ digits.drop n := fun n inside => plain (List.mem_of_mem_drop inside)
  unfold layout
  dsimp only
  split
  · simp [plain,zeros]
  split
  · simp [front,back]
  split
  · simp [plain,zeros]
  have marked : '\n' ∉ (if (plus && decide (0 < (digits.length : Int) + exponent)) = true then ['e','+'] else ['e']) := by
    split <;> decide
  rw [List.mem_append,List.mem_append]
  rintro ((inside | inside) | inside)
  · split at inside <;> simp_all
  · exact marked inside
  · exact number _ inside

namespace Json

theorem notMem_number (value : Double) : '\n' ∉ number value := by
  have digits := lineFeed_notMem_toDigits
  cases value with
  | finite negative mantissa exponent =>
    rw [number,Double.finiteText]
    split
    · cases negative <;> decide
    · have laid := fun power => @Double.lineFeed_notMem_layout true _ power (digits (Double.shortest mantissa exponent).1)
      cases negative <;> simp [laid]
  | infinite negative => exact (by decide : '\n' ∉ "null".toList)
  | nan => decide

theorem notMem_escape (c : Char) : '\n' ∉ escape c := by
  have control : ∀ n < 0x20, '\n' ∉ escape (Char.ofNat n) := by decide
  by_cases low : c.toNat < 0x20
  · have held := control c.toNat low
    rwa [Char.ofNat_toNat] at held
  · have other : c ≠ '\n' := by
      rintro rfl
      exact low (by decide)
    rw [escape]
    split
    next name named =>
      obtain ⟨front,back,whole,-⟩ := List.lookup_eq_some_iff.mp named
      have visible : ∀ pair ∈ namedEscapes, pair.2 ≠ '\n' := by decide
      have letter := visible (c,name) (by simp [whole])
      simp [letter.symm]
    next =>
      rw [if_neg low]
      simpa using other.symm

theorem notMem_quote (text : Text) : '\n' ∉ quote text := by
  simp [quote,notMem_escape]

theorem notMem_separated {separator : Text} {parts : List Text} (plain : '\n' ∉ separator)
    (lines : ∀ part ∈ parts, '\n' ∉ part) : '\n' ∉ separated separator parts := by
  rw [separated]
  induction parts with
  | nil => simp
  | cons part rest ih =>
    obtain ⟨first,others⟩ := List.forall_mem_cons.mp lines
    cases rest with
    | nil => simpa using first
    | cons next rest =>
      have onwards := ih others
      rw [List.intercalate_cons_of_ne_nil (List.cons_ne_nil _ _)]
      simp [first,plain,onwards]

mutual

theorem notMem_compact : (value : Json) → '\n' ∉ compact value
  | .null => by decide
  | .bool value => by cases value <;> decide
  | .int value => lineFeed_notMem_int value
  | .float value => notMem_number value
  | .str text => notMem_quote text
  | .list items => by
    have inside := notMem_separated (show '\n' ∉ [','] by decide) (notMem_compactItems items)
    simp [compact,inside]
  | .obj members => by
    have inside := notMem_separated (show '\n' ∉ [','] by decide) (notMem_compactMembers members)
    simp [compact,inside]

theorem notMem_compactItems : (items : List Json) → ∀ part ∈ compactItems items, '\n' ∉ part
  | [] => List.forall_mem_nil _
  | item :: rest => List.forall_mem_cons.mpr ⟨notMem_compact item,notMem_compactItems rest⟩

theorem notMem_compactMembers : (members : List (Text × Json)) → ∀ part ∈ compactMembers members, '\n' ∉ part
  | [] => List.forall_mem_nil _
  | (name,value) :: rest => by
    refine List.forall_mem_cons.mpr ⟨?_,notMem_compactMembers rest⟩
    simp [notMem_quote,notMem_compact value]

end

end Json

/-- An event is one line. -/
theorem Event.notMem_line (event : Event) : '\n' ∉ event.line := Json.notMem_compact _

end StyleHoist
