import StyleHoist.Proofs.Registry.Allocation
import StyleHoist.Proofs.Stylesheet.RoundTrip

/-! The names of generated classes. Those read from a stylesheet have the same form
as those made for declarations, so every class of a registry has it. -/
namespace StyleHoist

variable {classPrefix css : Text} {registry last : Registry}

/-- The marking text and eight digits. -/
def ClassId.Generated (classPrefix : Text) (id : ClassId) : Prop :=
  ∃ digits, id.text = classPrefix ++ digits ∧ digits.length = digestLength ∧
    digits.all isHexDigit = true

def Registry.Named (classPrefix : Text) (registry : Registry) : Prop :=
  ∀ binding ∈ registry.known, binding.id.Generated classPrefix

namespace Stylesheet

theorem generated_of_lineRule? {line body : Text} {id : ClassId}
    (found : lineRule? classPrefix line = some (id,body)) : id.Generated classPrefix := by
  obtain ⟨entry,read,same⟩ := Option.map_eq_some_iff.mp found
  simp only [ruleAt?,Option.bind_eq_bind,Option.bind_eq_some_iff,Option.some.injEq] at read
  obtain ⟨name,-,⟨own,rest⟩,head,line,-,inside,-,rfl⟩ := read
  cases same
  exact (headName?_eq_some head).2

theorem generated_of_mem_bindings (single : '\n' ∉ classPrefix) {binding : Binding}
    (member : binding ∈ bindings classPrefix css) : binding.id.Generated classPrefix := by
  obtain ⟨mapped,-⟩ := List.mem_filter.mp member
  obtain ⟨⟨id,body⟩,among,rfl⟩ := List.mem_map.mp mapped
  rw [rules_eq_lines single] at among
  obtain ⟨line,-,found⟩ := List.mem_filterMap.mp among
  exact generated_of_lineRule? found

theorem mem_of_foldlM_register {lines : List Binding}
    (registered : lines.foldlM Registry.register registry = .ok last) :
    ∀ binding ∈ last.known, binding ∈ registry.known ∨ binding ∈ lines := by
  refine foldlM_ok_kept (fun front reached => ∀ binding ∈ reached.known, binding ∈ registry.known ∨ binding ∈ front)
    ?_ (fun binding member => Or.inl member) registered
  intro front line before after kept step binding member
  rw [List.mem_append,← or_assoc]
  rcases Registry.register_cases step with ⟨rfl,-⟩ | ⟨-,-,rfl⟩
  · exact Or.inl (kept binding member)
  · exact (List.mem_append.mp member).imp_left (kept binding)

theorem named_of_seed (single : '\n' ∉ classPrefix) (seeded : seed classPrefix css = .ok registry) :
    registry.Named classPrefix := by
  intro binding member
  rcases mem_of_foldlM_register (seed_eq_ok_iff.mp seeded) binding member with none | line
  · exact absurd none List.not_mem_nil
  · exact generated_of_mem_bindings single line

end Stylesheet

theorem Registry.Named.grow (named : registry.Named classPrefix) (same : registry.classPrefix = classPrefix)
    {added : List Binding} (grown : Growth registry added last) : last.Named classPrefix := by
  intro binding member
  rw [grown.known] at member
  rcases List.mem_append.mp member with old | new
  · exact named binding old
  · rw [grown.derived new,same]
    exact Stylesheet.derive_digits classPrefix binding.declaration

theorem Registry.Named.generated (named : registry.Named classPrefix) {ids : List ClassId}
    {declarations : List Declaration} (standing : registry.StandFor ids declarations) :
    ∀ id ∈ ids, id.Generated classPrefix := by
  intro id member
  obtain ⟨declaration,-,bound⟩ := exists_of_forall₂ standing id member
  exact named _ bound

theorem isBlank_of_isClassChar {c : Char} (letter : Config.isClassChar c = true) : isBlank c = false := by
  have size : c.val.toNat = c.toNat := rfl
  have bounds : Config.isClassChar c = (decide (c.val ≥ 'A'.val ∧ c.val ≤ 'Z'.val) ||
      (c.val ≥ 'a'.val && c.val ≤ 'z'.val) || (c.val ≥ '0'.val && c.val ≤ '9'.val) || c = '_' || c = '-') := rfl
  rw [bounds] at letter
  simp only [Bool.or_eq_true,Bool.and_eq_true,decide_eq_true_eq,ge_iff_le,UInt32.le_iff_toNat_le,Char.reduceVal,
    UInt32.reduceToNat] at letter
  rcases letter with (letter | rfl) | rfl
  · simp only [isBlank,blankRanges,List.any_cons,List.any_nil,Bool.or_false,Bool.or_eq_false_iff,
      Bool.and_eq_false_iff,decide_eq_false_iff_not]
    omega
  · decide
  · decide

namespace ClassId.Generated

variable {id : ClassId}

theorem exists_last (generated : id.Generated classPrefix) :
    ∃ front c, id.text = front ++ [c] ∧ isHexDigit c = true := by
  obtain ⟨digits,named,long,hexadecimal⟩ := generated
  have some : digits ≠ [] := by
    rintro rfl
    simp [digestLength] at long
  obtain ⟨front,c,rfl⟩ := (List.eq_nil_or_concat' digits).resolve_left some
  refine ⟨classPrefix ++ front,c,by rw [named,List.append_assoc],?_⟩
  exact List.all_eq_true.mp hexadecimal c (by simp)

theorem isClassChar_of_mem (generated : id.Generated classPrefix)
    (valid : Config.isValidPrefix classPrefix = true) {c : Char} (member : c ∈ id.text) :
    Config.isClassChar c = true := by
  obtain ⟨digits,named,-,hexadecimal⟩ := generated
  rw [named] at member
  rcases List.mem_append.mp member with marking | digit
  · cases classPrefix with
    | nil => contradiction
    | cons first rest =>
      simp only [Config.isValidPrefix,Bool.and_eq_true,List.all_eq_true] at valid
      rcases List.mem_cons.mp marking with rfl | later
      · have start := valid.1
        simp only [Config.isClassStart,Bool.or_eq_true] at start
        simp only [Config.isClassChar,Char.isAlphanum,Bool.or_eq_true]
        tauto
      · exact valid.2 c later
  · have all : Digest.hexDigits.all Config.isClassChar = true := by decide
    have hex := List.all_eq_true.mp hexadecimal c digit
    exact List.all_eq_true.mp all c (List.elem_iff.mp hex)

theorem isWord (generated : id.Generated classPrefix) (valid : Config.isValidPrefix classPrefix = true) :
    Text.IsWord id.text := by
  refine ⟨?_,fun c member => isBlank_of_isClassChar (generated.isClassChar_of_mem valid member)⟩
  obtain ⟨front,c,named,-⟩ := generated.exists_last
  rw [named]
  exact List.concat_ne_nil c front

end ClassId.Generated

end StyleHoist
