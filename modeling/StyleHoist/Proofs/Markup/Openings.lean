import StyleHoist.Proofs.Markup.Located
import StyleHoist.Proofs.Markup.Scanning
import StyleHoist.Proofs.Text.Place

/-! What a scan finds, said place by place. An opening that stands behind white space
or a quote is found, unless its own quote closes the value of one found before. What
is found there depends on the text around that place only. -/
namespace StyleHoist.Markup

open Text

def Item.offset : Item → Nat
  | .style attr => attr.attr.start
  | .warning found => found.position.offset

/-- A double quote that can close a value, which begins at `start`. -/
def Closer (document : Text) (start place : Nat) : Prop :=
  start ≤ place ∧ Stands document place ['"'] ∧ (place = start ∨ ¬ Behind document place (· = '\\'))

/-- The first such quote. -/
def Closes (document : Text) (start place : Nat) : Prop :=
  Closer document start place ∧ ∀ other, Closer document start other → place ≤ other

/-- The span of the tag around an attribute. -/
def enclosingTag? (document : Text) (attr : Span) : Option Span := do
  let (front,_) ← cut? document attr.start
  let (_,rest) ← cut? document attr.stop
  let (before,_) ← openTag? front.reverse
  let tail ← closeTag? none [] rest
  some ⟨byteSize before,attr.stop + byteSize tail⟩

/-- What is found at an opening. -/
inductive Judged (document : Text) (offset : Nat) : Item → Prop
  | unseparated {position : Position} (here : Position.locate? document offset = some position)
      (behind : Behind document offset isQuote) : Judged document offset (.warning ⟨.unseparated,position⟩)
  | malformed {position : Position} (here : Position.locate? document offset = some position)
      (behind : Behind document offset isSpace) (unclosed : ∀ place, ¬ Closer document (offset + 7) place) :
      Judged document offset (.warning ⟨.malformed,position⟩)
  | unbounded {position : Position} {stop : Nat} (here : Position.locate? document offset = some position)
      (behind : Behind document offset isSpace) (closes : Closes document (offset + 7) stop)
      (tagless : enclosingTag? document ⟨offset,stop + 1⟩ = none) :
      Judged document offset (.warning ⟨.unbounded,position⟩)
  | style {stop : Nat} {tag : Span} {text : Text}
      (behind : Behind document offset isSpace) (closes : Closes document (offset + 7) stop)
      (encloses : enclosingTag? document ⟨offset,stop + 1⟩ = some tag) (inside : slice? document tag = some text) :
      Judged document offset (.style ⟨⟨offset,stop + 1⟩,⟨offset + 7,stop⟩,tag,classOf? tag.start text⟩)

/-- An opening behind white space or a quote, whose own quote does not close the value of
an item that stands behind white space. -/
def Opened (document : Text) (items : List Item) (offset : Nat) : Prop :=
  Stands document offset styleOpen ∧ (Behind document offset isSpace ∨ Behind document offset isQuote) ∧
    ∀ earlier ∈ items, Behind document earlier.offset isSpace →
      ¬ Closes document (earlier.offset + 7) (offset + 6)

variable {document : Text} {offset start place stop : Nat} {item other : Item} {items : List Item}

theorem Closes.unique (one : Closes document start place) (two : Closes document start stop) : place = stop :=
  Nat.le_antisymm (one.2 stop two.1) (two.2 place one.1)

namespace Judged

theorem offset_eq (judged : Judged document offset item) : item.offset = offset := by
  cases judged with
  | unseparated found | malformed found | unbounded found => exact offset_of_locate? found
  | style => rfl

theorem behind (judged : Judged document offset item) :
    Behind document offset isSpace ∨ Behind document offset isQuote := by
  cases judged with
  | unseparated _ behind => exact .inr behind
  | malformed _ behind | unbounded _ behind | style behind => exact .inl behind

end Judged

theorem not_isSpace_and_isQuote (spaced : Behind document offset isSpace) (quoted : Behind document offset isQuote) : False := by
  obtain ⟨c,space,quote⟩ := spaced.and quoted
  simp only [isQuote,Bool.or_eq_true,decide_eq_true_eq] at quote
  rcases quote with rfl | rfl <;> contradiction

theorem Judged.unique (one : Judged document offset item) (two : Judged document offset other) : other = item := by
  have different := @not_isSpace_and_isQuote document offset
  have closed {stop : Nat} (closes : Closes document (offset + 7) stop)
      (unclosed : ∀ place, ¬ Closer document (offset + 7) place) : False := unclosed stop closes.1
  cases one with
  | unseparated here behind =>
    cases two with
    | unseparated there _ => rw [Option.some.inj (here.symm.trans there)]
    | malformed _ spaced | unbounded _ spaced | style spaced => exact (different spaced behind).elim
  | malformed here behind unclosed =>
    cases two with
    | unseparated _ quoted => exact (different behind quoted).elim
    | malformed there => rw [Option.some.inj (here.symm.trans there)]
    | unbounded _ _ closes | style _ closes => exact (closed closes unclosed).elim
  | unbounded here behind closes tagless =>
    cases two with
    | unseparated _ quoted => exact (different behind quoted).elim
    | malformed _ _ unclosed => exact (closed closes unclosed).elim
    | unbounded there => rw [Option.some.inj (here.symm.trans there)]
    | style _ again encloses =>
      rw [closes.unique again,encloses] at tagless
      contradiction
  | style behind closes encloses inside =>
    cases two with
    | unseparated _ quoted => exact (different behind quoted).elim
    | malformed _ _ unclosed => exact (closed closes unclosed).elim
    | unbounded _ _ again tagless =>
      rw [closes.unique again,tagless] at encloses
      contradiction
    | style _ again surrounds within =>
      obtain rfl := closes.unique again
      obtain rfl := Option.some.inj (encloses.symm.trans surrounds)
      rw [Option.some.inj (inside.symm.trans within)]

theorem byteSize_styleOpen : byteSize styleOpen = 7 := rfl

theorem styleOpen_append_quote : styleOpen = "style=".toList ++ ['"'] := rfl

/-- A quote behind the beginning of an opening is not before the opening's own. -/
theorem quote_le_of_stands (opened : Stands document offset styleOpen) (quote : Stands document place ['"'])
    (reached : offset ≤ place) : offset + 6 ≤ place := by
  obtain ⟨front,rest,rfl,rfl⟩ := opened
  have split : front ++ styleOpen ++ rest = front ++ "style=".toList ++ ('"' :: rest) := by
    rw [styleOpen_append_quote,← List.append_assoc,List.append_assoc _ ['"'],List.singleton_append]
  rw [split] at quote
  exact quote.clear (by decide) reached

theorem quote_of_stands (opened : Stands document offset styleOpen) :
    Stands document (offset + 6) ['"'] ∧ Behind document (offset + 6) (· = '=') := by
  obtain ⟨front,rest,rfl,rfl⟩ := opened
  refine ⟨⟨front ++ "style=".toList,rest,?_,byteSize_append _ _⟩,
    ⟨front ++ "style".toList,'=','"' :: rest,?_,(congrArg (· + 1) (byteSize_append front "style".toList)).symm,rfl⟩⟩
  · rw [styleOpen_append_quote,← List.append_assoc]
  · rw [show styleOpen = "style".toList ++ ['=','"'] from rfl,← List.append_assoc,List.append_assoc _ ['=','"']]
    rfl

theorem le_of_stands (first : Stands document start styleOpen) (second : Stands document offset styleOpen)
    (later : start < offset) : start + 7 ≤ offset := by
  refine Nat.le_of_not_lt fun near => ?_
  have quote := quote_le_of_stands second (quote_of_stands first).1 (by omega)
  omega

/-- The quote of an opening closes what was begun before. -/
theorem closer_of_stands (opened : Stands document offset styleOpen) (later : start < offset) :
    Closer document (start + 7) (offset + 6) := by
  obtain ⟨quote,equals⟩ := quote_of_stands opened
  refine ⟨by omega,quote,.inr fun escaped => ?_⟩
  obtain ⟨c,same,other⟩ := equals.and escaped
  simp only [decide_eq_true_eq] at same other
  exact absurd (same.symm.trans other) (by decide)

theorem closer_iff_head {front value text : Text} {c : Char} :
    Closer (front ++ value.reverse ++ c :: text) (byteSize front) (byteSize (front ++ value.reverse)) ↔
      c = '"' ∧ value.head? ≠ some '\\' := by
  have quote : Stands (front ++ value.reverse ++ c :: text) (byteSize (front ++ value.reverse)) ['"'] ↔ c = '"' := by
    rw [stands_here]
    simp
  have reached : byteSize front ≤ byteSize (front ++ value.reverse) := by simp
  rw [Closer,quote,behind_here]
  simp only [reached,true_and,and_congr_right_iff]
  rintro -
  cases value with
  | nil => simp
  | cons d value =>
    have := Nat.ne_of_gt d.utf8Size_pos
    simp [this]

theorem closeValue?_spec (front value text : Text) : match closeValue? value text with
    | none => ∀ place, byteSize (front ++ value.reverse) ≤ place →
      ¬ Closer (front ++ value.reverse ++ text) (byteSize front) place
    | some (read,_) =>
      Closer (front ++ value.reverse ++ text) (byteSize front) (byteSize (front ++ read.reverse)) ∧
        ∀ place, byteSize (front ++ value.reverse) ≤ place →
          Closer (front ++ value.reverse ++ text) (byteSize front) place → byteSize (front ++ read.reverse) ≤ place := by
  fun_induction closeValue? value text with
  | case1 value =>
    rintro place far ⟨-,⟨lead,rest,whole,rfl⟩,-⟩
    have size := congrArg byteSize whole
    simp only [byteSize_append,byteSize_cons,byteSize_nil,utf8Size_quote] at size far
    omega
  | case2 value c text closes =>
    simp only [Bool.and_eq_true,decide_eq_true_eq] at closes
    exact ⟨closer_iff_head.mpr closes,fun place far _ => far⟩
  | case3 value c text goes ih =>
    have here : ¬ Closer (front ++ value.reverse ++ c :: text) (byteSize front) (byteSize (front ++ value.reverse)) := by
      rw [closer_iff_head]
      simpa using goes
    have whole : front ++ (c :: value).reverse ++ text = front ++ value.reverse ++ c :: text := by simp
    have moved : front ++ (c :: value).reverse = front ++ value.reverse ++ [c] := by simp
    -- the character read is no closer, so every one lies behind it
    have beyond {place : Nat} (far : byteSize (front ++ value.reverse) ≤ place)
        (closer : Closer (front ++ value.reverse ++ c :: text) (byteSize front) place) :
        byteSize (front ++ (c :: value).reverse) ≤ place := by
      rw [moved]
      rcases closer.2.1.next far with rfl | past
      · exact absurd closer here
      · exact past
    rw [whole] at ih
    split at ih
    next => exact fun place far closer => ih place (beyond far closer) closer
    next => exact ⟨ih.1,fun place far closer => ih.2 place (beyond far closer) closer⟩

theorem closes_of_closeValue? (front : Text) {text read rest : Text} (found : closeValue? [] text = some (read,rest)) :
    Closes (front ++ text) (byteSize front) (byteSize front + byteSize read) := by
  have spec := closeValue?_spec front [] text
  simp only [found,List.reverse_nil,List.append_nil,byteSize_append,byteSize_reverse] at spec
  exact ⟨spec.1,fun other closer => spec.2 other closer.1 closer⟩

theorem not_closer_of_closeValue? (front : Text) {text : Text} (unclosed : closeValue? [] text = none) (place : Nat) :
    ¬ Closer (front ++ text) (byteSize front) place := by
  have spec := closeValue?_spec front [] text
  simp only [unclosed,List.reverse_nil,List.append_nil] at spec
  exact fun closer => spec place closer.1 closer

/-- The items found from a place on. -/
structure ReadFrom (document : Text) (place : Nat) (items : List Item) : Prop where
  later : ∀ item ∈ items, place ≤ item.offset
  increasing : items.Pairwise fun first second => first.offset < second.offset
  judged : ∀ item ∈ items, Judged document item.offset item
  complete : ∀ offset, place ≤ offset → ((∃ item ∈ items, item.offset = offset) ↔ Opened document items offset)

namespace ReadFrom

variable {next : Nat}

theorem none (unopened : ∀ offset, place ≤ offset → ¬ Stands document offset styleOpen) : ReadFrom document place [] := by
  refine ⟨fun _ member => absurd member List.not_mem_nil,.nil,fun _ member => absurd member List.not_mem_nil,
    fun offset reached => ⟨fun found => ?_,fun opened => absurd opened.1 (unopened offset reached)⟩⟩
  obtain ⟨item,member,-⟩ := found
  contradiction

theorem skip (read : ReadFrom document next items) (ahead : place ≤ next)
    (unopened : ∀ offset, place ≤ offset → offset < next → Stands document offset styleOpen →
      ¬ (Behind document offset isSpace ∨ Behind document offset isQuote)) : ReadFrom document place items := by
  refine ⟨fun item member => Nat.le_trans ahead (read.later item member),read.increasing,read.judged,fun offset reached => ?_⟩
  rcases Nat.lt_or_ge offset next with before | beyond
  · constructor
    · rintro ⟨item,member,rfl⟩
      exact absurd (read.later item member) (Nat.not_le_of_lt before)
    · intro opened
      exact absurd opened.2.1 (unopened offset reached before opened.1)
  · exact read.complete offset beyond

/-- Before the items read later comes one whose value, if it has one, hides the openings between. -/
theorem cons (read : ReadFrom document next items) (judged : Judged document place item)
    (opened : Stands document place styleOpen) (ahead : place < next)
    (hides : ∀ offset, place < offset → Stands document offset styleOpen →
      (offset < next ↔ Behind document place isSpace ∧ Closes document (place + 7) (offset + 6))) :
    ReadFrom document place (item :: items) := by
  obtain rfl := judged.offset_eq
  have behind (other : Item) (member : other ∈ item :: items) : item.offset ≤ other.offset := by
    rcases List.mem_cons.mp member with rfl | later
    · exact Nat.le_refl _
    · exact Nat.le_trans (Nat.le_of_lt ahead) (read.later other later)
  refine ⟨behind,List.pairwise_cons.mpr ⟨fun other member => Nat.lt_of_lt_of_le ahead (read.later other member),
    read.increasing⟩,fun other member => ?_,fun offset reached => ?_⟩
  · rcases List.mem_cons.mp member with rfl | later
    · exact judged
    · exact read.judged other later
  · rcases Nat.eq_or_lt_of_le reached with rfl | beyond
    · refine ⟨fun _ => ⟨opened,judged.behind,fun earlier member _ closes => ?_⟩,fun _ => ⟨item,List.mem_cons_self,rfl⟩⟩
      have := behind earlier member
      have := closes.1.1
      omega
    · have found : (∃ other ∈ item :: items, other.offset = offset) ↔ ∃ other ∈ items, other.offset = offset := by
        simp [Nat.ne_of_lt beyond]
      rw [found]
      constructor
      · rintro ⟨other,member,rfl⟩
        have far := read.later other member
        obtain ⟨stands,before,clear⟩ := (read.complete other.offset far).mp ⟨other,member,rfl⟩
        refine ⟨stands,before,fun earlier among spaced closes => ?_⟩
        rcases List.mem_cons.mp among with rfl | later
        · exact absurd ((hides _ beyond stands).mpr ⟨spaced,closes⟩) (Nat.not_lt_of_le far)
        · exact clear earlier later spaced closes
      · rintro ⟨stands,before,clear⟩
        have far : next ≤ offset := Nat.le_of_not_lt fun near =>
          clear item List.mem_cons_self ((hides offset beyond stands).mp near).1 ((hides offset beyond stands).mp near).2
        exact (read.complete offset far).mpr ⟨stands,before,fun earlier among => clear earlier (List.mem_cons_of_mem _ among)⟩

end ReadFrom

theorem closes_value {value rest : Text} (behind : Text)
    (closed : closeValue? [] (value ++ '"' :: rest) = some (value.reverse,rest)) :
    Closes (behind.reverse ++ (styleOpen ++ (value ++ '"' :: rest))) (byteSize behind + 7)
      (byteSize behind + 7 + byteSize value) := by
  have closes := closes_of_closeValue? (behind.reverse ++ styleOpen) closed
  rwa [List.append_assoc,byteSize_append,byteSize_reverse,byteSize_reverse,byteSize_styleOpen] at closes

theorem judged_of_closes {behind value rest : Text} (spaced : behind.head?.any isSpace = true)
    (closed : closeValue? [] (value ++ '"' :: rest) = some (value.reverse,rest)) :
    Judged (behind.reverse ++ (styleOpen ++ (value ++ '"' :: rest))) (byteSize behind) (itemAt behind value rest) := by
  have here := locate?_append behind (styleOpen ++ (value ++ '"' :: rest))
  have blank := (behind_reverse behind (styleOpen ++ (value ++ '"' :: rest)) isSpace).mpr spaced
  have closes := closes_value behind closed
  have before : cut? (behind.reverse ++ (styleOpen ++ (value ++ '"' :: rest))) (byteSize behind) =
      some (behind.reverse,styleOpen ++ (value ++ '"' :: rest)) := cut?_eq_some.mpr ⟨rfl,byteSize_reverse behind⟩
  have after : cut? (behind.reverse ++ (styleOpen ++ (value ++ '"' :: rest))) (byteSize behind + 7 + byteSize value + 1) =
      some (behind.reverse ++ styleOpen ++ value ++ ['"'],rest) :=
    cut?_eq_some.mpr ⟨by simp,by simp [byteSize_styleOpen,utf8Size_quote,Nat.add_assoc]⟩
  -- the tag is looked for from both ends of the attribute
  have tag : enclosingTag? (behind.reverse ++ (styleOpen ++ (value ++ '"' :: rest)))
      ⟨byteSize behind,byteSize behind + 7 + byteSize value + 1⟩ =
      (openTag? behind).bind fun opened => (closeTag? none [] rest).bind fun tail =>
        some ⟨byteSize opened.1,byteSize behind + 7 + byteSize value + 1 + byteSize tail⟩ := by
    simp only [enclosingTag?,before,after,List.reverse_reverse,Option.bind_eq_bind,Option.bind_some]
  unfold itemAt styleAttr?
  cases opened : openTag? behind with
  | none =>
    rw [opened] at tag
    exact .unbounded here blank closes tag
  | some pair =>
    obtain ⟨lead,head⟩ := pair
    cases ended : closeTag? none [] rest with
    | none =>
      rw [opened,ended] at tag
      exact .unbounded here blank closes tag
    | some tail =>
      rw [opened,ended] at tag
      obtain ⟨content,last,rfl,rfl⟩ := closeTag?_eq_some ended
      obtain ⟨-,-,-,-,-,split⟩ := openTag?_eq_some opened
      have size := congrArg byteSize split
      simp only [byteSize_reverse,byteSize_append] at size
      have same : byteSize lead + byteSize (head ++ styleOpen ++ value ++ '"' :: ('>' :: content.reverse ++ []).reverse) =
          byteSize behind + 7 + byteSize value + 1 + byteSize ('>' :: content.reverse ++ []) := by
        simp only [byteSize_append,byteSize_cons,byteSize_reverse,byteSize_nil,byteSize_styleOpen,utf8Size_quote]
        omega
      simp only [Option.bind_eq_bind,Option.bind_some,byteSize_styleOpen,same]
      refine .style blank closes tag (slice?_eq_some.mpr ⟨lead.reverse,last,?_,byteSize_reverse lead,?_⟩)
      · rw [split]
        simp
      · rw [byteSize_reverse,same]

theorem stands_styleOpen (behind rest : Text) :
    Stands (behind.reverse ++ (styleOpen ++ rest)) (byteSize behind) styleOpen := by
  rw [← byteSize_reverse behind,stands_here]
  exact ⟨rest,rfl⟩

theorem passed_styleOpen (behind rest : Text) :
    (styleOpen.reverse ++ behind).reverse ++ rest = behind.reverse ++ (styleOpen ++ rest) ∧
      byteSize (styleOpen.reverse ++ behind) = byteSize behind + 7 := by
  constructor
  · simp
  · rw [byteSize_append,byteSize_reverse,byteSize_styleOpen,Nat.add_comm]

theorem not_stands_of_after? {behind ahead : Text} (unopened : after? styleOpen ahead = none) :
    ¬ Stands (behind.reverse ++ ahead) (byteSize behind) styleOpen := by
  rw [← byteSize_reverse behind,stands_here]
  rintro ⟨rest,split⟩
  rw [after?_eq_some.mpr split] at unopened
  contradiction

section Step

variable {behind value rest : Text}

theorem readFrom_nil : ReadFrom (behind.reverse ++ []) (byteSize behind) [] := by
  refine .none fun offset reached stands => ?_
  obtain ⟨front,rest,whole,size⟩ := stands
  have sizes := congrArg byteSize whole
  simp only [byteSize_append,byteSize_reverse,byteSize_nil,byteSize_styleOpen] at sizes
  omega

theorem readFrom_cons {c : Char} (unopened : after? styleOpen (c :: rest) = none)
    (read : ReadFrom ((c :: behind).reverse ++ rest) (byteSize (c :: behind)) items) :
    ReadFrom (behind.reverse ++ c :: rest) (byteSize behind) items := by
  have whole : (c :: behind).reverse ++ rest = behind.reverse ++ c :: rest := by simp
  rw [whole] at read
  refine read.skip (by simp) fun offset reached before stands => ?_
  rw [← byteSize_reverse behind] at reached
  rcases stands.next reached with rfl | past
  · rw [byteSize_reverse] at stands
    exact absurd stands (not_stands_of_after? unopened)
  · simp only [byteSize_append,byteSize_reverse,byteSize_cons,byteSize_nil] at past before
    omega

theorem readFrom_unclosed (spaced : behind.head?.any isSpace = true) (unclosed : closeValue? [] rest = none) :
    ReadFrom (behind.reverse ++ (styleOpen ++ rest)) (byteSize behind)
      [.warning ⟨.malformed,Position.ofBehind behind⟩] := by
  have blank := (behind_reverse behind (styleOpen ++ rest) isSpace).mpr spaced
  have unending := not_closer_of_closeValue? (behind.reverse ++ styleOpen) unclosed
  rw [List.append_assoc,byteSize_append,byteSize_reverse,byteSize_styleOpen] at unending
  -- the quote of a later opening would close the value
  have last (offset : Nat) (later : byteSize behind < offset) :
      ¬ Stands (behind.reverse ++ (styleOpen ++ rest)) offset styleOpen :=
    fun another => unending _ (closer_of_stands another later)
  have empty : ReadFrom (behind.reverse ++ (styleOpen ++ rest)) (byteSize behind + 1) [] := .none last
  exact empty.cons (.malformed (locate?_append behind _) blank unending) (stands_styleOpen behind rest)
    (Nat.lt_succ_self _) fun offset later another => absurd another (last offset later)

theorem passed_value (behind value rest : Text) : ('"' :: value.reverse ++ (styleOpen.reverse ++ behind)).reverse ++ rest =
      behind.reverse ++ (styleOpen ++ (value ++ '"' :: rest)) ∧
    byteSize ('"' :: value.reverse ++ (styleOpen.reverse ++ behind)) = byteSize behind + 7 + byteSize value + 1 := by
  constructor
  · simp
  · simp only [byteSize_append,byteSize_cons,byteSize_reverse,byteSize_styleOpen,utf8Size_quote]
    omega

theorem readFrom_value (spaced : behind.head?.any isSpace = true)
    (closed : closeValue? [] (value ++ '"' :: rest) = some (value.reverse,rest))
    (read : ReadFrom (('"' :: value.reverse ++ (styleOpen.reverse ++ behind)).reverse ++ rest)
      (byteSize ('"' :: value.reverse ++ (styleOpen.reverse ++ behind))) items) :
    ReadFrom (behind.reverse ++ (styleOpen ++ (value ++ '"' :: rest))) (byteSize behind)
      (itemAt behind value rest :: items) := by
  have blank := (behind_reverse behind (styleOpen ++ (value ++ '"' :: rest)) isSpace).mpr spaced
  have closes := closes_value behind closed
  obtain ⟨whole,size⟩ := passed_value behind value rest
  rw [whole,size] at read
  refine read.cons (judged_of_closes spaced closed) (stands_styleOpen behind _) (by omega) fun offset later another => ?_
  constructor
  · -- an opening within the value ends in the quote that closes the value
    intro near
    have closer := closer_of_stands another later
    have quote := quote_le_of_stands another closes.1.2.1 (by omega)
    have same : offset + 6 = byteSize behind + 7 + byteSize value := Nat.le_antisymm quote (closes.2 _ closer)
    rw [same]
    exact ⟨blank,closes⟩
  · rintro ⟨-,again⟩
    have := closes.unique again
    omega

theorem readFrom_unseparated (quoted : behind.head?.any isQuote = true)
    (read : ReadFrom ((styleOpen.reverse ++ behind).reverse ++ rest) (byteSize (styleOpen.reverse ++ behind)) items) :
    ReadFrom (behind.reverse ++ (styleOpen ++ rest)) (byteSize behind)
      (.warning ⟨.unseparated,Position.ofBehind behind⟩ :: items) := by
  obtain ⟨whole,size⟩ := passed_styleOpen behind rest
  have stands := stands_styleOpen behind rest
  have quote := (behind_reverse behind (styleOpen ++ rest) isQuote).mpr quoted
  rw [whole,size] at read
  refine read.cons (.unseparated (locate?_append behind _) quote) stands (by omega) fun offset later another => ?_
  have apart := le_of_stands stands another later
  constructor
  · omega
  · rintro ⟨spaced,-⟩
    exact (not_isSpace_and_isQuote spaced quote).elim

theorem readFrom_within (unspaced : behind.head?.any isSpace = false) (unquoted : behind.head?.any isQuote = false)
    (read : ReadFrom ((styleOpen.reverse ++ behind).reverse ++ rest) (byteSize (styleOpen.reverse ++ behind)) items) :
    ReadFrom (behind.reverse ++ (styleOpen ++ rest)) (byteSize behind) items := by
  obtain ⟨whole,size⟩ := passed_styleOpen behind rest
  rw [whole,size] at read
  refine read.skip (by omega) fun offset reached before another => ?_
  rcases Nat.eq_or_lt_of_le reached with rfl | later
  · rw [behind_reverse,behind_reverse]
    simp [unspaced,unquoted]
  · have apart := le_of_stands (stands_styleOpen behind rest) another later
    omega

end Step

theorem Scans.readFrom {behind ahead : Text} (scans : Scans behind ahead items) :
    ReadFrom (behind.reverse ++ ahead) (byteSize behind) items := by
  induction scans with
  | nil => exact readFrom_nil
  | cons unopened _ ih => exact readFrom_cons unopened ih
  | unclosed spaced unclosed => exact readFrom_unclosed spaced unclosed
  | value spaced closed _ ih => exact readFrom_value spaced closed ih
  | unseparated _ quoted _ ih => exact readFrom_unseparated quoted ih
  | within unspaced unquoted _ ih => exact readFrom_within unspaced unquoted ih

/-- A list of the items of a document: in order, one for each opening, each as it is judged there,
and none behind an attribute that is not closed. -/
structure Exact (document : Text) (items : List Item) : Prop where
  increasing : items.Pairwise fun first second => first.offset < second.offset
  complete : ∀ offset, (∃ item ∈ items, item.offset = offset) ↔ Opened document items offset
  judged : ∀ item ∈ items, ∀ other, Judged document item.offset other ↔ other = item
  ends : ∀ position, .warning ⟨.malformed,position⟩ ∈ items →
    items.getLast? = some (.warning ⟨.malformed,position⟩) ∧
      ∀ offset, position.offset < offset → ¬ Stands document offset styleOpen

/-- The scan finds every opening there is, and each for what it is. -/
theorem scan_exact (document : Text) : Exact document (scan document) := by
  obtain ⟨-,increasing,judged,complete⟩ : ReadFrom document 0 (scan document) :=
    (scans_scanFrom [] document).readFrom
  refine ⟨increasing,fun offset => complete offset (Nat.zero_le _),fun item member other => ?_,fun position member => ?_⟩
  · exact ⟨fun again => (judged item member).unique again,fun same => same ▸ judged item member⟩
  · obtain ⟨front,back,split⟩ := List.append_of_mem member
    have unopened (offset : Nat) (later : position.offset < offset) : ¬ Stands document offset styleOpen := by
      intro another
      cases judged _ member with
      | malformed _ _ unclosed => exact unclosed _ (closer_of_stands another later)
    refine ⟨?_,unopened⟩
    cases back with
    | nil => simp [split]
    | cons next back =>
      rw [split] at increasing
      have later := (List.pairwise_cons.mp (List.pairwise_append.mp increasing).2.1).1 next List.mem_cons_self
      have found : next ∈ scan document := by simp [split]
      have opened := (complete next.offset (Nat.zero_le _)).mp ⟨next,found,rfl⟩
      exact absurd opened.1 (unopened _ later)

end StyleHoist.Markup
