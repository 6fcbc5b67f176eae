import StyleHoist.Proofs.Text.Place

/-! The bytes of a text. A test that only characters of one byte pass says the same of the
bytes as of the characters: no byte of a longer character passes it. -/
namespace StyleHoist.Text

/-- The bytes of a character, each as the character of that code. -/
def encode (c : Char) : List Char := (String.utf8EncodeChar c).map Char.ofUInt8

/-- The bytes of a text, each as the character of that code. -/
def bytes (text : Text) : List Char := text.flatMap encode

/-- A test that only characters of one byte pass. -/
def Narrow (p : Char → Bool) : Prop := ∀ c, p c = true → c.toNat < 128

@[simp] theorem bytes_nil : bytes [] = [] := rfl

@[simp] theorem bytes_cons (c : Char) (text : Text) : bytes (c :: text) = encode c ++ bytes text := rfl

@[simp] theorem bytes_append (front back : Text) : bytes (front ++ back) = bytes front ++ bytes back :=
  List.flatMap_append

@[simp] theorem length_encode (c : Char) : (encode c).length = c.utf8Size := by
  rw [encode,List.length_map,String.length_utf8EncodeChar]

@[simp] theorem length_bytes (text : Text) : (bytes text).length = byteSize text := by
  induction text with
  | nil => rfl
  | cons c text ih => rw [bytes_cons,List.length_append,length_encode,ih,byteSize_cons]

theorem toNat_ofUInt8 (b : UInt8) : (Char.ofUInt8 b).toNat = b.toNat := rfl

theorem utf8Size_of_lt {c : Char} (narrow : c.toNat < 128) : c.utf8Size = 1 :=
  Char.utf8Size_eq_one_iff.mpr (UInt32.le_iff_toNat_le.mpr (Nat.le_of_lt_succ narrow))

theorem encode_of_lt {c : Char} (narrow : c.toNat < 128) : encode c = [c] := by
  have same : Char.ofUInt8 c.val.toUInt8 = c := by
    apply Char.toNat_inj.mp
    rw [toNat_ofUInt8,UInt32.toNat_toUInt8]
    exact Nat.mod_eq_of_lt (Nat.lt_trans narrow (by decide))
  rw [encode,String.utf8EncodeChar_eq_singleton (utf8Size_of_lt narrow),List.map_singleton,same]

/-- The first byte of a longer character and those that continue it have the highest bit. -/
theorem le_toNat_of_mem_encode {c b : Char} (wide : 128 ≤ c.toNat) (member : b ∈ encode c) : 128 ≤ b.toNat := by
  obtain ⟨code,among,rfl⟩ := List.mem_map.mp member
  rw [toNat_ofUInt8]
  have long : ¬ c.val.toNat ≤ 127 := Nat.not_le_of_lt wide
  simp only [String.utf8EncodeChar,if_neg long] at among
  split at among
  · simp only [List.mem_cons,List.not_mem_nil,or_false] at among
    rcases among with rfl | rfl <;> simp only [UInt8.toNat_ofNat'] <;> omega
  · split at among
    · simp only [List.mem_cons,List.not_mem_nil,or_false] at among
      rcases among with rfl | rfl | rfl <;> simp only [UInt8.toNat_ofNat'] <;> omega
    · simp only [List.mem_cons,List.not_mem_nil,or_false] at among
      rcases among with rfl | rfl | rfl | rfl <;> simp only [UInt8.toNat_ofNat'] <;> omega

namespace Narrow

variable {p : Char → Bool}

theorem same {q : Char} (small : q.toNat < 128) : Narrow (· = q) := fun c same => by
  rw [of_decide_eq_true same]
  exact small

theorem eq_false (narrow : Narrow p) {c : Char} (wide : 128 ≤ c.toNat) : p c = false := by
  cases holds : p c with
  | false => rfl
  | true => exact absurd (narrow c holds) (Nat.not_lt_of_le wide)

theorem encode_eq (narrow : Narrow p) {c : Char} (holds : p c = true) : encode c = [c] ∧ c.utf8Size = 1 :=
  ⟨encode_of_lt (narrow c holds),utf8Size_of_lt (narrow c holds)⟩

theorem encode_fails (narrow : Narrow p) {c : Char} (fails : p c = false) : ∀ b ∈ encode c, p b = false := by
  intro b member
  rcases Nat.lt_or_ge c.toNat 128 with short | long
  · rw [encode_of_lt short,List.mem_singleton] at member
    rw [member,fails]
  · exact narrow.eq_false (le_toNat_of_mem_encode long member)

theorem of_mem_encode (narrow : Narrow p) {b c : Char} (member : b ∈ encode c) : p b = p c := by
  cases holds : p c with
  | false => exact narrow.encode_fails holds b member
  | true =>
    rw [(narrow.encode_eq holds).1,List.mem_singleton] at member
    rw [member,holds]

theorem getElem?_bytes (narrow : Narrow p) {text : Text} {i : Nat} : ((bytes text)[i]?).any p = true ↔
    ∃ front c rest, text = front ++ c :: rest ∧ byteSize front = i ∧ p c = true := by
  constructor
  · intro passes
    induction text generalizing i with
    | nil => simp at passes
    | cons c text ih =>
      rw [bytes_cons] at passes
      rcases Nat.lt_or_ge i (encode c).length with within | beyond
      · rw [List.getElem?_append_left within,List.getElem?_eq_getElem within,Option.any_some] at passes
        cases holds : p c with
        | false =>
          rw [narrow.encode_fails holds _ (List.getElem_mem within)] at passes
          contradiction
        | true =>
          rw [length_encode,(narrow.encode_eq holds).2] at within
          exact ⟨[],c,text,rfl,by rw [byteSize_nil]; omega,holds⟩
      · rw [List.getElem?_append_right beyond] at passes
        obtain ⟨front,d,rest,rfl,size,holds⟩ := ih passes
        rw [length_encode] at size beyond
        exact ⟨c :: front,d,rest,rfl,by rw [byteSize_cons]; omega,holds⟩
  · rintro ⟨front,c,rest,rfl,rfl,holds⟩
    rw [bytes_append,bytes_cons,(narrow.encode_eq holds).1,← length_bytes front]
    simpa using holds

theorem behind_iff (narrow : Narrow p) {text : Text} {i : Nat} :
    Behind text i p ↔ 0 < i ∧ ((bytes text)[i - 1]?).any p = true := by
  rw [narrow.getElem?_bytes]
  constructor
  · rintro ⟨front,c,rest,whole,rfl,holds⟩
    rw [(narrow.encode_eq holds).2]
    exact ⟨Nat.succ_pos _,front,c,rest,whole,rfl,holds⟩
  · rintro ⟨positive,front,c,rest,whole,size,holds⟩
    exact ⟨front,c,rest,whole,by rw [(narrow.encode_eq holds).2]; omega,holds⟩

end Narrow

theorem exists_getElem?_bytes (front : Text) (c : Char) (rest : Text) {i : Nat} (reached : byteSize front ≤ i)
    (within : i < byteSize front + c.utf8Size) : ∃ b ∈ encode c, (bytes (front ++ c :: rest))[i]? = some b := by
  have short : i - (bytes front).length < (encode c).length := by
    rw [length_bytes,length_encode]
    omega
  refine ⟨_,List.getElem_mem short,?_⟩
  rw [bytes_append,bytes_cons,List.getElem?_append_right (by rwa [length_bytes]),List.getElem?_append_left short,
    List.getElem?_eq_getElem short]

theorem stands_iff_getElem?_bytes {q : Char} (narrow : q.toNat < 128) {text : Text} {i : Nat} :
    Stands text i [q] ↔ (bytes text)[i]? = some q := by
  have found : ((bytes text)[i]?).any (· = q) = true ↔ (bytes text)[i]? = some q := by
    simp [Option.any_eq_true]
  rw [← found,(Narrow.same narrow).getElem?_bytes]
  constructor
  · rintro ⟨front,rest,whole,size⟩
    exact ⟨front,q,rest,by simp [whole],size,by simp⟩
  · rintro ⟨front,c,rest,whole,size,same⟩
    rw [of_decide_eq_true same] at whole
    exact ⟨front,rest,by simp [whole],size⟩

/-- The offset at which a lead first occurs. -/
def find? (lead : Text) : Text → Option Nat
  | [] => if lead = [] then some 0 else none
  | c :: rest => if (after? lead (c :: rest)).isSome then some 0 else (find? lead rest).map (c.utf8Size + ·)

theorem find?_of_after? {lead text rest : Text} (some : lead ≠ []) (opened : after? lead text = .some rest) :
    find? lead text = .some 0 := by
  cases text with
  | nil => exact absurd (List.append_eq_nil_iff.mp (after?_eq_some.mp opened).symm).1 some
  | cons c text => rw [find?,opened,Option.isSome_some,if_pos rfl]

theorem find?_singleton (q : Char) (text : Text) : find? [q] text =
    if (text.takeWhile (· ≠ q)).length = text.length then none else some (byteSize (text.takeWhile (· ≠ q))) := by
  induction text with
  | nil => rfl
  | cons c text ih =>
    rw [find?,ih,List.takeWhile_cons]
    by_cases same : q = c
    · simp [after?,same]
    · simp only [after?,same,if_false,Option.isSome_none,Bool.false_eq_true,ne_eq,Ne.symm same,not_false_eq_true,
        decide_true,if_true,List.length_cons,Nat.add_right_cancel_iff,byteSize_cons]
      split <;> rfl

/-- The offset of the last character that passes, where each character counts for its size. -/
def lastWith? (size : Char → Nat) (p : Char → Bool) : Text → Option Nat
  | [] => none
  | c :: rest =>
    match lastWith? size p rest with
    | some offset => some (size c + offset)
    | none => if p c then some 0 else none

section

variable {p : Char → Bool}

theorem lastWith?_cons_eq_none {size : Char → Nat} {c : Char} {rest : Text} :
    lastWith? size p (c :: rest) = none ↔ p c = false ∧ lastWith? size p rest = none := by
  rw [lastWith?]
  cases lastWith? size p rest with
  | some offset => simp
  | none => cases p c <;> simp

theorem lastWith?_eq_none {size : Char → Nat} {text : Text} :
    lastWith? size p text = none ↔ ∀ c ∈ text, p c = false := by
  induction text with
  | nil => simp [lastWith?]
  | cons c rest ih => rw [lastWith?_cons_eq_none,ih,List.forall_mem_cons]

theorem exists_of_lastWith? {text : Text} {offset : Nat} (found : lastWith? Char.utf8Size p text = some offset) :
    ∃ front c back, text = front ++ c :: back ∧ p c = true ∧ (∀ d ∈ back, p d = false) ∧
      offset = byteSize front := by
  induction text generalizing offset with
  | nil => cases found
  | cons c rest ih =>
    rw [lastWith?] at found
    cases later : lastWith? Char.utf8Size p rest with
    | some behind =>
      rw [later] at found
      cases found
      obtain ⟨front,d,back,rfl,holds,fails,rfl⟩ := ih later
      exact ⟨c :: front,d,back,rfl,holds,fails,(byteSize_cons c front).symm⟩
    | none =>
      simp only [later,Option.ite_none_right_eq_some,Option.some.injEq] at found
      obtain ⟨holds,rfl⟩ := found
      exact ⟨[],c,rest,rfl,holds,lastWith?_eq_none.mp later,rfl⟩

theorem lastWith?_append {front : List Char} (fails : ∀ b ∈ front, p b = false) (back : List Char) :
    lastWith? (fun _ => 1) p (front ++ back) = (lastWith? (fun _ => 1) p back).map (front.length + ·) := by
  induction front with
  | nil => simp
  | cons b front ih =>
    rw [List.forall_mem_cons] at fails
    rw [List.cons_append,lastWith?,ih fails.2]
    cases lastWith? (fun _ => 1) p back with
    | some offset => simp [Nat.add_assoc,Nat.add_comm]
    | none => simp [fails.1]

theorem Narrow.lastWith?_bytes (narrow : Narrow p) (text : Text) :
    lastWith? (fun _ => 1) p (bytes text) = lastWith? Char.utf8Size p text := by
  induction text with
  | nil => rfl
  | cons c rest ih =>
    rw [bytes_cons,lastWith?]
    cases holds : p c with
    | true =>
      obtain ⟨single,wide⟩ := narrow.encode_eq holds
      rw [single,List.singleton_append,lastWith?,ih,holds,wide]
    | false =>
      rw [lastWith?_append (narrow.encode_fails holds),length_encode,ih]
      cases lastWith? Char.utf8Size p rest <;> rfl

theorem findIdx?_bytes (narrow : Narrow p) (text : Text) : (((bytes text).findIdx? p).getD (byteSize text)) =
    byteSize (text.takeWhile (!p ·)) := by
  induction text with
  | nil => rfl
  | cons c text ih =>
    rw [bytes_cons,List.findIdx?_append,List.takeWhile_cons]
    cases holds : p c with
    | true => simp [(narrow.encode_eq holds).1,holds]
    | false =>
      have fails : (encode c).findIdx? p = none := List.findIdx?_eq_none_iff.mpr (narrow.encode_fails holds)
      rw [fails,Option.none_or,length_encode,byteSize_cons,Bool.not_false,if_pos rfl,byteSize_cons,← ih]
      cases (bytes text).findIdx? p <;> simp [Nat.add_comm]

end

end StyleHoist.Text
