import StyleHoist.Proofs.Markup.Scanning

/-! Where the scan finds attributes. Each stands inside its tag, and one ends
before the next begins. -/
namespace StyleHoist.Markup

open Text

def isBracket (c : Char) : Bool := c = '<' || c = '>'

theorem utf8Size_open : '<'.utf8Size = 1 := rfl

theorem utf8Size_close : '>'.utf8Size = 1 := rfl

theorem utf8Size_equals : '='.utf8Size = 1 := rfl

theorem utf8Size_quote : '"'.utf8Size = 1 := rfl

theorem isSpace_of_isQuote {c : Char} (quote : isQuote c = true) : isSpace c = false := by
  simp only [isQuote,Bool.or_eq_true,decide_eq_true_eq] at quote
  rcases quote with rfl | rfl <;> rfl

theorem openTag?_eq (behind : Text) : openTag? behind =
    match behind.dropWhile (!isBracket ·), (behind.takeWhile (!isBracket ·)).getLast? with
    | '<' :: before, some letter =>
      if letter.isAlpha then some (before,'<' :: (behind.takeWhile (!isBracket ·)).reverse) else none
    | _, _ => none := rfl

theorem openTag?_eq_some {behind before head : Text} (found : openTag? behind = some (before,head)) :
    ∃ letter inside, head = '<' :: letter :: inside ∧ letter.isAlpha = true ∧
      (∀ c ∈ letter :: inside, isBracket c = false) ∧ behind.reverse = before.reverse ++ head := by
  have whole := List.takeWhile_append_dropWhile (p := (!isBracket ·)) (l := behind)
  have clear := List.all_takeWhile (p := (!isBracket ·)) (l := behind)
  rw [openTag?_eq] at found
  split at found
  next before letter dropped last =>
    split at found
    next alphabetic =>
      simp only [Option.some.injEq,Prod.mk.injEq] at found
      obtain ⟨rfl,rfl⟩ := found
      rw [dropped] at whole
      generalize behind.takeWhile (!isBracket ·) = inside at *
      obtain ⟨front,rfl⟩ := List.getLast?_eq_some_iff.mp last
      refine ⟨letter,front.reverse,by simp,alphabetic,?_,by simp [← whole]⟩
      intro c member
      have inside : c ∈ front ++ [letter] := by simpa [or_comm] using member
      simpa using List.all_eq_true.mp clear c inside
    next => contradiction
  next => contradiction

theorem closeTag?_eq_some {quote : Option Char} {read text result : Text}
    (found : closeTag? quote read text = some result) :
    ∃ inside rest, text = inside ++ '>' :: rest ∧ result = '>' :: inside.reverse ++ read := by
  induction text generalizing quote read with
  | nil => simp [closeTag?] at found
  | cons c text ih =>
    have go {next : Option Char} (later : closeTag? next (c :: read) text = some result) :
        ∃ inside rest, c :: text = inside ++ '>' :: rest ∧ result = '>' :: inside.reverse ++ read := by
      obtain ⟨inside,rest,rfl,rfl⟩ := ih later
      exact ⟨c :: inside,rest,rfl,by simp⟩
    unfold closeTag? at found
    split at found
    · exact go found
    · split at found
      · exact go found
      · split at found
        next closing =>
          cases found
          exact ⟨[],text,by rw [closing]; rfl,by rw [closing]; rfl⟩
        next =>
          split at found
          · contradiction
          · exact go found

/-- An attribute of a document: a text without the quote that would end it stands behind white
space and an opening, in front of the closing quote, and a tag surrounds it. -/
def Located (document : Text) (attr : StyleAttr) : Prop :=
  ∃ behind value rest, document = behind.reverse ++ styleOpen ++ value ++ '"' :: rest ∧
    behind.head?.any isSpace = true ∧
    closeValue? [] (value ++ '"' :: rest) = some (value.reverse,rest) ∧
    styleAttr? behind value rest = some attr

theorem attr_of_styleAttr? {behind value rest : Text} {attr : StyleAttr}
    (found : styleAttr? behind value rest = some attr) :
    attr.attr = ⟨byteSize behind,byteSize behind + byteSize styleOpen + byteSize value + 1⟩ ∧
      attr.value = ⟨byteSize behind + byteSize styleOpen,
        byteSize behind + byteSize styleOpen + byteSize value⟩ := by
  simp only [styleAttr?,Option.bind_eq_bind,Option.bind_eq_some_iff] at found
  obtain ⟨⟨before,head⟩,-,tail,-,same⟩ := found
  cases same
  exact ⟨rfl,rfl⟩

namespace Located

variable {document : Text} {attr : StyleAttr}

theorem inside (located : Located document attr) :
    attr.tag.start < attr.attr.start ∧ attr.attr.start < attr.attr.stop ∧
      attr.attr.stop < attr.tag.stop := by
  obtain ⟨behind,value,rest,-,-,-,found⟩ := located
  simp only [styleAttr?,Option.bind_eq_bind,Option.bind_eq_some_iff] at found
  obtain ⟨⟨before,head⟩,opened,tail,closed,same⟩ := found
  obtain ⟨letter,inside,rfl,-,-,whole⟩ := openTag?_eq_some opened
  obtain ⟨content,after,-,rfl⟩ := closeTag?_eq_some closed
  have size := congrArg byteSize whole
  simp only [byteSize_reverse,byteSize_append,byteSize_cons,utf8Size_open] at size
  cases same
  simp only [byteSize_append,byteSize_cons,byteSize_reverse,utf8Size_open,utf8Size_close,utf8Size_quote]
  omega

theorem value (located : Located document attr) :
    ∃ value, Text.slice? document attr.value = some value := by
  obtain ⟨behind,value,rest,rfl,-,-,found⟩ := located
  refine ⟨value,slice?_eq_some.mpr ⟨behind.reverse ++ styleOpen,'"' :: rest,by simp,?_,?_⟩⟩
  · simp [(attr_of_styleAttr? found).2]
  · simp [(attr_of_styleAttr? found).2]

end Located

/-- The attributes of a scan, in the order of their finding. -/
def styleAttrs (document : Text) : List StyleAttr := (scan document).filterMap Item.style?

/-- The warnings of a scan. -/
def warningsOf (document : Text) : List Warning := (scan document).filterMap Item.warning?

/-- What is located from a place on: nothing starts before it, and nothing overlaps. -/
private def FoundFrom (behind ahead : Text) (attrs : List StyleAttr) : Prop :=
  (∀ attr ∈ attrs, Located (behind.reverse ++ ahead) attr ∧ byteSize behind ≤ attr.attr.start) ∧
    attrs.Pairwise fun first second => first.attr.stop ≤ second.attr.start

private theorem FoundFrom.earlier (read : Text) {behind ahead : Text} {attrs : List StyleAttr}
    (found : FoundFrom (read.reverse ++ behind) ahead attrs) : FoundFrom behind (read ++ ahead) attrs := by
  refine ⟨fun attr member => ?_,found.2⟩
  obtain ⟨located,later⟩ := found.1 attr member
  rw [byteSize_append] at later
  exact ⟨by simpa using located,by omega⟩

private theorem FoundFrom.none (behind ahead : Text) : FoundFrom behind ahead [] :=
  ⟨fun _ member => absurd member List.not_mem_nil,List.Pairwise.nil⟩

private theorem FoundFrom.value {behind value rest : Text} {attrs : List StyleAttr}
    (spaced : behind.head?.any isSpace = true)
    (closed : closeValue? [] (value ++ '"' :: rest) = some (value.reverse,rest))
    (found : FoundFrom ('"' :: value.reverse ++ (styleOpen.reverse ++ behind)) rest attrs) :
    FoundFrom behind (styleOpen ++ (value ++ '"' :: rest)) ((itemAt behind value rest).style?.toList ++ attrs) := by
  have read : '"' :: value.reverse ++ (styleOpen.reverse ++ behind) = (styleOpen ++ value ++ ['"']).reverse ++ behind := by
    simp
  have later := FoundFrom.earlier (styleOpen ++ value ++ ['"']) (read ▸ found)
  rw [List.append_assoc,List.append_assoc,List.singleton_append] at later
  cases made : styleAttr? behind value rest with
  | none =>
    simp only [itemAt,made]
    exact later
  | some attr =>
    have spans := attr_of_styleAttr? made
    have whole : Located (behind.reverse ++ (styleOpen ++ (value ++ '"' :: rest))) attr :=
      ⟨behind,value,rest,by simp,spaced,closed,made⟩
    simp only [itemAt,made]
    refine ⟨fun other member => ?_,List.pairwise_cons.mpr ⟨fun other member => ?_,later.2⟩⟩
    · rcases List.mem_cons.mp member with rfl | member
      · exact ⟨whole,by simp [spans.1]⟩
      · exact later.1 other member
    · have start := (found.1 other member).2
      rw [spans.1]
      simp only [byteSize_append,byteSize_cons,byteSize_reverse,utf8Size_quote] at start ⊢
      omega

private theorem Scans.found {behind ahead : Text} {items : List Item} (scans : Scans behind ahead items) :
    FoundFrom behind ahead (items.filterMap Item.style?) := by
  induction scans with
  | nil | unclosed => exact FoundFrom.none _ _
  | cons _ _ ih => exact FoundFrom.earlier [_] ih
  | value spaced closed _ ih =>
    rw [filterMap_style?_cons]
    exact FoundFrom.value spaced closed ih
  | unseparated _ _ _ ih | within _ _ _ ih => exact FoundFrom.earlier styleOpen ih

theorem located_of_mem_styleAttrs {document : Text} {attr : StyleAttr}
    (member : attr ∈ styleAttrs document) : Located document attr :=
  ((scans_scanFrom [] document).found.1 attr member).1

theorem pairwise_styleAttrs (document : Text) :
    (styleAttrs document).Pairwise fun first second => first.attr.stop ≤ second.attr.start :=
  (scans_scanFrom [] document).found.2

theorem ordered_styleAttrs (document : Text) :
    (styleAttrs document).Pairwise fun first second => first.attr.start ≤ second.attr.start := by
  refine (pairwise_styleAttrs document).imp_of_mem fun {first second} member _ apart => ?_
  have wide := (located_of_mem_styleAttrs member).inside
  omega

end StyleHoist.Markup
