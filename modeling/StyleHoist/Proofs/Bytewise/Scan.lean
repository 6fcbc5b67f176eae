import StyleHoist.Proofs.Markup.Located
import StyleHoist.Proofs.Text.Bytes

/-! The scan as it is carried out on the bytes of a document. Places are offsets that are
computed, and the result is missing where a byte or a slice is asked for that is not there:
out of range, or cut within a character. -/
namespace StyleHoist.Markup.Bytewise

open Text

/-- The first double quote from an offset on that no backslash precedes. -/
def closeValue? (bytes : List Char) (start : Nat) : Option Nat :=
  (List.range' start (bytes.length - start)).find? fun i =>
    bytes[i]? = some '"' && (i = start || bytes[i - 1]? ≠ some '\\')

/-- The offset behind the first closing angle bracket outside quotes. -/
def closeTag? (quote : Option Char) (offset : Nat) : List Char → Option Nat
  | [] => none
  | b :: rest =>
    match quote with
    | some q => closeTag? (if b = q then none else some q) (offset + 1) rest
    | none =>
      if isQuote b then closeTag? (some b) (offset + 1) rest
      else if b = '>' then some (offset + 1)
      else if b = '<' then none
      else closeTag? none (offset + 1) rest

/-- The span of the tag around an attribute, if there is one. -/
def enclosingTag? (bytes : List Char) (attr : Span) : Option (Option Span) :=
  if bytes.length < attr.start then none
  else
    match lastWith? (fun _ => 1) isBracket (bytes.take attr.start) with
    | none => some none
    | some start =>
      match bytes[start]? with
      | none => none
      | some bracket =>
        if bracket = '<' && (bytes[start + 1]?).any Char.isAlpha then
          some ((closeTag? none attr.stop (bytes.drop attr.stop)).map fun stop => ⟨start,stop⟩)
        else some none

/-- The class attribute at an offset of a tag, which begins at `base`. -/
def classValue? (tag : Text) (base offset : Nat) : Option (Option ClassAttr) :=
  let start := offset + 6
  let bare :=
    let length := ((bytes tag).drop start).findIdx? fun b => isSpace b || b = '>'
    let stop := (length.map (start + ·)).getD (bytes tag).length
    some (some ⟨⟨base + offset,base + stop⟩,⟨base + start,base + stop⟩,false⟩)
  match (bytes tag)[start]? with
  | none => bare
  | some q =>
    if isQuote q then do
      let (_,rest) ← cut? tag (start + 1)
      some ((find? [q] rest).map fun length =>
        ⟨⟨base + offset,base + (start + 1 + length) + 1⟩,⟨base + (start + 1),base + (start + 1 + length)⟩,true⟩)
    else bare

/-- The first class attribute of a tag at one of the offsets, outside quotes. -/
def classIn? (tag : Text) (base : Nat) (quote : Option Char) : List Nat → Option (Option ClassAttr)
  | [] => some none
  | i :: later => do
    let b ← (bytes tag)[i]?
    match quote with
    | some q => classIn? tag base (if b = q then none else some q) later
    | none =>
      let before ← (bytes tag)[i - 1]?
      let opened ←
        if isSpace before then (cut? tag i).map fun parts => (after? classOpen parts.2).isSome else some false
      if opened then classValue? tag base i
      else classIn? tag base (if isQuote b then some b else none) later

def classOf? (document : Text) (tag : Span) : Option (Option ClassAttr) := do
  let text ← slice? document tag
  classIn? text tag.start none (List.range' 1 ((bytes text).length - 1))

def position? (text : Text) (offset : Nat) : Option Position := do
  let (before,_) ← cut? text offset
  let lineStart := ((lastWith? Char.utf8Size (· = '\n') before).map (· + 1)).getD 0
  let (_,line) ← cut? before lineStart
  some ⟨offset,before.count '\n' + 1,line.length + 1⟩

/-- What is found at an opening, and the offset to go on from. -/
structure Turn where
  item : Option Item
  next : Option Nat

def Turn.warn? (document : Text) (offset : Nat) (trouble : Trouble) (next : Option Nat) : Option Turn :=
  (position? document offset).map fun position => ⟨some (.warning ⟨trouble,position⟩),next⟩

/-- What is found at the opening at an offset. -/
def judge? (document : Text) (start : Nat) : Option Turn :=
  let first := start + 7
  if start = 0 then some ⟨none,some first⟩
  else do
    let before ← (bytes document)[start - 1]?
    if isSpace before then
      match closeValue? (bytes document) first with
      | none => Turn.warn? document start .malformed none
      | some stop =>
        match ← enclosingTag? (bytes document) ⟨start,stop + 1⟩ with
        | none => Turn.warn? document start .unbounded (some (stop + 1))
        | some tag =>
          let named ← classOf? document tag
          some ⟨some (.style ⟨⟨start,stop + 1⟩,⟨first,stop⟩,tag,named⟩),some (stop + 1)⟩
    else if isQuote before then Turn.warn? document start .unseparated (some first)
    else some ⟨none,some first⟩

/-- What is found at the next opening. -/
def turn? (document : Text) (cursor : Nat) : Option Turn := do
  let (_,ahead) ← cut? document cursor
  match find? styleOpen ahead with
  | none => some ⟨none,none⟩
  | some found => judge? document (cursor + found)

theorem le_of_closeValue? {bytes : List Char} {start stop : Nat} (found : closeValue? bytes start = some stop) :
    start ≤ stop :=
  (List.mem_range'_1.mp (List.mem_of_find?_eq_some found)).1

theorem next_of_warn? {document : Text} {start : Nat} {trouble : Trouble} {next : Option Nat} {turn : Turn}
    (warned : Turn.warn? document start trouble next = some turn) : turn.next = next := by
  obtain ⟨position,-,rfl⟩ := Option.map_eq_some_iff.mp warned
  rfl

theorem judge?_next {document : Text} {start : Nat} {turn : Turn} (judged : judge? document start = some turn) :
    ∀ next ∈ turn.next, start < next := by
  have past {place : Nat} (goes : turn.next = some place) (beyond : start < place) :
      ∀ next ∈ turn.next, start < next := by
    intro next member
    cases goes.symm.trans member
    exact beyond
  simp only [judge?,Option.bind_eq_bind] at judged
  split at judged
  next =>
    cases judged
    exact past rfl (by omega)
  next =>
    obtain ⟨before,-,judged⟩ := Option.bind_eq_some_iff.mp judged
    split at judged
    next =>
      split at judged
      next =>
        rw [next_of_warn? judged]
        exact fun _ member => absurd member (Option.not_mem_none _)
      next stop closed =>
        have behind := le_of_closeValue? closed
        obtain ⟨tag,-,judged⟩ := Option.bind_eq_some_iff.mp judged
        split at judged
        next => exact past (next_of_warn? judged) (by omega)
        next =>
          obtain ⟨named,-,judged⟩ := Option.bind_eq_some_iff.mp judged
          cases judged
          exact past rfl (by omega)
    next =>
      split at judged
      next => exact past (next_of_warn? judged) (by omega)
      next =>
        cases judged
        exact past rfl (by omega)

theorem turn?_next {document : Text} {cursor : Nat} {turn : Turn} (taken : turn? document cursor = some turn) :
    cursor ≤ byteSize document ∧ ∀ next ∈ turn.next, cursor < next := by
  simp only [turn?,Option.bind_eq_bind] at taken
  obtain ⟨⟨behind,ahead⟩,cut,taken⟩ := Option.bind_eq_some_iff.mp taken
  obtain ⟨rfl,rfl⟩ := cut?_eq_some.mp cut
  refine ⟨by rw [byteSize_append]; omega,fun next goes => ?_⟩
  split at taken
  next =>
    cases taken
    contradiction
  next found _ =>
    have := judge?_next taken next goes
    omega

/-- The items from an offset on, if every slice is there. -/
def itemsFrom? (document : Text) (cursor : Nat) : Option (List Item) :=
  match _taken : turn? document cursor with
  | none => none
  | some turn =>
    match _goes : turn.next with
    | none => some turn.item.toList
    | some next => (itemsFrom? document next).map (turn.item.toList ++ ·)
termination_by byteSize document + 1 - cursor
decreasing_by
  obtain ⟨within,later⟩ := turn?_next _taken
  have := later next _goes
  omega

end StyleHoist.Markup.Bytewise
