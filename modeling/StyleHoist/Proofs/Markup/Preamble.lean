import StyleHoist.Proofs.Markup.Escaping
import StyleHoist.Proofs.Markup.Moving
import StyleHoist.Proofs.Markup.Soundness

/-! Text outside tags, in front of a document that begins with a tag. What the scan finds
in such text is only warned of, and the document behind it is hoisted as it is alone.
But where the text leaves a value open, the first quote of the document closes it, and
the style attribute whose opening that quote completes is lost. -/
namespace StyleHoist.Markup

open Text

def Item.isMalformed : Item → Bool
  | .warning found => found.trouble = .malformed
  | .style _ => false

/-- Whether a style attribute is begun in the text and no quote of the text closes its value. -/
def leavesOpen (text : Text) : Bool := (scan text).any Item.isMalformed

/-- The first quote of a document that no backslash precedes is that of a style attribute. -/
structure StyleFirst (document front rest : Text) : Prop where
  whole : document = front ++ (styleOpen ++ rest)
  spaced : front.getLast?.any isSpace = true
  escaped : Escaped front

/-- The items behind the first quote that closes a value begun before the text. -/
def resumed (behind text : Text) : List Item :=
  match closeValue? [] text with
  | none => []
  | some (read,rest) => scanFrom ('"' :: read ++ behind) rest

variable {behind lead document front rest : Text}

theorem resumed_of_none (unclosed : closeValue? [] document = none) (behind : Text) : resumed behind document = [] := by
  rw [resumed,unclosed]

theorem resumed_of_some {read : Text} (closed : closeValue? [] document = some (read,rest)) (behind : Text) :
    resumed behind document = scanFrom ('"' :: read ++ behind) rest := by
  rw [resumed,closed]

theorem openTag?_clear (clear : ∀ c ∈ behind, isBracket c = false) : openTag? behind = none := by
  have gone : behind.dropWhile (!isBracket ·) = [] := by
    have open_ : ∀ c ∈ behind, (!isBracket c) = true := by
      intro c member
      rw [clear c member]
      rfl
    have all : (behind ++ []).dropWhile (!isBracket ·) = [].dropWhile (!isBracket ·) := List.dropWhile_append_of_pos open_
    simpa using all
  rw [openTag?_eq,gone]

theorem itemAt_clear (clear : ∀ c ∈ behind, isBracket c = false) (value rest : Text) :
    itemAt behind value rest = .warning ⟨.unbounded,Position.ofBehind behind⟩ := by
  rw [itemAt,styleAttr?,openTag?_clear clear]
  rfl

theorem clear_append {front back : Text} (one : ∀ c ∈ front, isBracket c = false) (two : ∀ c ∈ back, isBracket c = false) :
    ∀ c ∈ front.reverse ++ back, isBracket c = false := by
  intro c member
  rcases List.mem_append.mp member with first | second
  · exact one c (List.mem_reverse.mp first)
  · exact two c second

/-- Where the text leaves a value open, the scan goes on behind the quote that closes it. -/
theorem styles_scanFrom_unclosed {rest more : Text} (outside : ∀ c ∈ behind, isBracket c = false)
    (spaced : behind.head?.any isSpace = true) (unclosed : closeValue? [] rest = none) :
    (scanFrom behind (styleOpen ++ (rest ++ '<' :: more))).filterMap Item.style? =
      (resumed ((styleOpen ++ rest).reverse ++ behind) ('<' :: more)).filterMap Item.style? := by
  have goes := closeValue?_append_of_none unclosed ('<' :: more)
  rw [closeValue?_behind (by decide),List.append_nil] at goes
  cases closed : closeValue? [] ('<' :: more) with
  | none =>
    rw [closed] at goes
    rw [scanFrom_unclosed spaced goes,resumed_of_none closed]
    rfl
  | some found =>
    rw [closed,Option.map_some] at goes
    rw [scanFrom_read spaced goes,itemAt_clear outside,resumed_of_some closed,filterMap_style?_cons]
    simp [Item.style?]

theorem Scans.styles_append {items : List Item} {more : Text} (scans : Scans behind lead items)
    (outside : ∀ c ∈ behind, isBracket c = false) (clear : ∀ c ∈ lead, isBracket c = false) :
    (scanFrom behind (lead ++ '<' :: more)).filterMap Item.style? =
      if items.any Item.isMalformed then (resumed (lead.reverse ++ behind) ('<' :: more)).filterMap Item.style?
      else (scanFrom (lead.reverse ++ behind) ('<' :: more)).filterMap Item.style? := by
  induction scans with
  | nil => rfl
  | @cons behind rest c _ unopened _ ih =>
    have goes : after? styleOpen (c :: (rest ++ '<' :: more)) = none := by
      rw [← List.cons_append,after?_append_cons (by decide),unopened]
      rfl
    have single : ∀ d ∈ [c], isBracket d = false := by simpa using clear c List.mem_cons_self
    have later := ih (clear_append single outside) fun d member => clear d (List.mem_cons_of_mem _ member)
    rw [List.cons_append,scanFrom_cons goes,later]
    simp
  | unclosed spaced unclosed =>
    rw [List.append_assoc,if_pos (by rfl)]
    exact styles_scanFrom_unclosed outside spaced unclosed
  | @value behind value rest _ spaced closed _ ih =>
    have goes := closeValue?_append_of_some closed ('<' :: more)
    have whole : styleOpen ++ (value ++ '"' :: rest) = styleOpen ++ value ++ ['"'] ++ rest := by simp
    rw [whole] at clear
    have read := clear_append (fun c member => clear c (List.mem_append_left _ member)) outside
    have later := ih (by simpa using read) fun c member => clear c (List.mem_append_right _ member)
    rw [List.append_assoc,scanFrom_read spaced goes,itemAt_clear outside,itemAt_clear outside,filterMap_style?_cons,later]
    simp [Item.isMalformed,Item.style?]
  | unseparated unspaced quoted _ ih =>
    have read := clear_append (fun c member => clear c (List.mem_append_left _ member)) outside
    have later := ih read fun c member => clear c (List.mem_append_right _ member)
    rw [List.append_assoc,scanFrom_unseparated unspaced quoted,filterMap_style?_cons,later]
    simp [Item.isMalformed,Item.style?]
  | within unspaced unquoted _ ih =>
    have read := clear_append (fun c member => clear c (List.mem_append_left _ member)) outside
    have later := ih read fun c member => clear c (List.mem_append_right _ member)
    rw [List.append_assoc,scanFrom_within unspaced unquoted,later]
    simp

/-- What the scan finds behind text outside tags. It goes on where the document begins, or behind
the quote that closes what the text leaves open. -/
theorem styles_scanFrom_append (outside : ∀ c ∈ behind, isBracket c = false) (clear : ∀ c ∈ lead, isBracket c = false)
    (begins : ∃ more, document = '<' :: more) :
    (scanFrom behind (lead ++ document)).filterMap Item.style? =
      if (scanFrom behind lead).any Item.isMalformed then
        (resumed (lead.reverse ++ behind) document).filterMap Item.style?
      else (scanFrom (lead.reverse ++ behind) document).filterMap Item.style? := by
  obtain ⟨more,rfl⟩ := begins
  exact (scans_scanFrom behind lead).styles_append outside clear

theorem styles_scanFrom_lead (lead : Text) (begins : ∃ more, document = '<' :: more) :
    (scanFrom lead.reverse document).filterMap Item.style? =
      ((scan document).filterMap Item.style?).map (·.moved (byteSize lead)) := by
  obtain ⟨more,rfl⟩ := begins
  have passed (behind : Text) : scanFrom behind (['<'] ++ more) = scanFrom (['<'] ++ behind) more :=
    scanFrom_ne (by simp) behind more
  have bracket : ∃ c ∈ ['<'], isBracket c = true := ⟨'<',by simp,rfl⟩
  have moved := styles_scanFrom_moved bracket more lead.reverse
  rw [byteSize_reverse] at moved
  rw [scan,← List.singleton_append,passed,passed,moved]
  rfl

theorem styles_resumed_lead (lead : Text) (begins : ∃ more, document = '<' :: more) :
    (resumed lead.reverse document).filterMap Item.style? =
      ((resumed [] document).filterMap Item.style?).map (·.moved (byteSize lead)) := by
  obtain ⟨more,rfl⟩ := begins
  cases closed : closeValue? [] ('<' :: more) with
  | none => rw [resumed_of_none closed,resumed_of_none closed]; rfl
  | some found =>
    obtain ⟨read,rest⟩ := found
    have bracket : ∃ c ∈ '"' :: read, isBracket c = true := by
      refine ⟨'<',List.mem_cons_of_mem _ ?_,rfl⟩
      obtain ⟨value,split,rfl⟩ := closeValue?_eq_some closed
      cases value with
      | nil => simp at split
      | cons c value =>
        cases split
        simp
    have moved := styles_scanFrom_moved bracket rest lead.reverse
    rw [byteSize_reverse] at moved
    rw [resumed_of_some closed,resumed_of_some closed,moved,List.append_nil]

theorem StyleFirst.closed (first : StyleFirst document front rest) :
    closeValue? [] document = some ((front ++ "style=".toList).reverse,rest) := by
  have split : document = front ++ "style=".toList ++ '"' :: rest := by
    rw [first.whole,styleOpen_append_quote]
    simp
  rw [split]
  refine closeValue?_escaped (first.escaped.append (by decide)) ?_ rest
  rw [List.getLast?_append_of_ne_nil _ (by decide)]
  decide

/-- A quote that opens no style attribute hides none. -/
theorem styles_resumed (other : ∀ front rest, ¬ StyleFirst document front rest) :
    (resumed [] document).filterMap Item.style? = (scan document).filterMap Item.style? := by
  cases closed : closeValue? [] document with
  | none =>
    rw [resumed_of_none closed,scan,scanFrom_escaped (escaped_of_unclosed closed)]
  | some found =>
    obtain ⟨read,rest⟩ := found
    rw [resumed_of_some closed,List.append_nil]
    obtain ⟨text,rfl,same⟩ := closeValue?_eq_some closed
    rw [List.append_nil] at same
    subst same
    have escaped : Escaped text := fun _ _ split => escaped_of_closeValue? closed split
    by_cases opening : "style=".toList <:+ text
    · obtain ⟨front,rfl⟩ := opening
      have split : front ++ "style=".toList ++ '"' :: rest = front ++ (styleOpen ++ rest) := by
        rw [styleOpen_append_quote]
        simp
      have unspaced : front.getLast?.any isSpace = false := by
        by_contra spaced
        exact other front rest ⟨split,by simpa using spaced,escaped.left⟩
      have through : '"' :: (front ++ "style=".toList).reverse = styleOpen.reverse ++ front.reverse := by
        rw [styleOpen_append_quote]
        simp
      rw [split,scan,scanFrom_opening escaped.left,List.append_nil,through]
      rw [← List.head?_reverse] at unspaced
      cases quoted : front.reverse.head?.any isQuote with
      | true => rw [scanFrom_unseparated unspaced quoted]; rfl
      | false => rw [scanFrom_within unspaced quoted]
    · rw [scan,scanFrom_past escaped opening,List.append_nil]

/-- The quote of the opening of a style attribute hides this one, and no more. -/
theorem StyleFirst.resumed_eq (first : StyleFirst document front rest)
    (ends : ∀ value after, closeValue? [] rest = some (value.reverse,after) → ¬ "style=".toList <:+ value) :
    resumed [] document = (scan document).tail := by
  have spaced : (front.reverse ++ []).head?.any isSpace = true := by
    rw [List.append_nil,List.head?_reverse]
    exact first.spaced
  have through : '"' :: (front ++ "style=".toList).reverse ++ [] = styleOpen.reverse ++ (front.reverse ++ []) := by
    rw [styleOpen_append_quote]
    simp
  rw [resumed_of_some first.closed,through,first.whole,scan,scanFrom_opening first.escaped]
  cases closed : closeValue? [] rest with
  | none =>
    rw [scanFrom_unclosed spaced closed,scanFrom_escaped (escaped_of_unclosed closed)]
    rfl
  | some found =>
    obtain ⟨read,after⟩ := found
    rw [scanFrom_read spaced closed,List.tail_cons]
    obtain ⟨value,rfl,same⟩ := closeValue?_eq_some closed
    rw [List.append_nil] at same
    subst same
    exact scanFrom_past (fun _ _ split => escaped_of_closeValue? closed split) (ends value after closed) _ _

/-- A document behind text outside tags is hoisted as it is alone, and the text stays, unless the text
leaves a value open and the first quote of the document is that of a style attribute. That
attribute is then missed, and the others are hoisted as they are without it. -/
theorem hoist_behind (lead document : Text) (registry : Registry) (clear : ∀ c ∈ lead, isBracket c = false)
    (begins : document.head? = some '<') :
    ((leavesOpen lead = true → ∀ front rest, ¬ StyleFirst document front rest) →
      HoistedAlike lead (hoist document registry) (hoist (lead ++ document) registry)) ∧
    ∀ front rest, leavesOpen lead = true → StyleFirst document front rest →
      (∀ value after, closeValue? [] rest = some (value.reverse,after) → ¬ "style=".toList <:+ value) →
      HoistedAlike lead (hoistItems document (scan document).tail registry) (hoist (lead ++ document) registry) := by
  have begins : ∃ more, document = '<' :: more := List.head?_eq_some_iff.mp begins
  have nothing : ∀ c ∈ ([] : Text), isBracket c = false := fun _ member => absurd member List.not_mem_nil
  have found := styles_scanFrom_append nothing clear begins
  rw [List.append_nil,styles_scanFrom_lead lead begins,styles_resumed_lead lead begins] at found
  refine ⟨fun other => hoistItems_led registry ?_,fun front rest open_ first ends => hoistItems_led registry ?_⟩
  · rw [scan,found]
    split
    next open_ => rw [styles_resumed (other open_)]
    next => rfl
  · rw [scan,found,← first.resumed_eq ends]
    exact if_pos open_

/-- The beginning of a style attribute, outside tags. -/
def openText : Text := " style=\"abc".toList

theorem leavesOpen_openText : leavesOpen openText = true := by
  have split : openText = [' '] ++ (styleOpen ++ "abc".toList) := rfl
  rw [leavesOpen,scan,split,scanFrom_ne (by simp),scanFrom_unclosed (by rfl) (by rfl)]
  rfl

/-- The first quote of the document is that of another attribute. -/
theorem hoist_behind_titled :
    let document := "<p title=\"x\" style=\"a:1\">".toList
    let registry := Registry.empty "inl-".toList
    (∀ c ∈ openText, isBracket c = false) ∧ document.head? = some '<' ∧ leavesOpen openText = true ∧
      (∀ front rest, ¬ StyleFirst document front rest) ∧
      HoistedAlike openText (hoist document registry) (hoist (openText ++ document) registry) := by
  intro document registry
  have all : openText.all (!isBracket ·) = true := by decide
  have clear : ∀ c ∈ openText, isBracket c = false := by simpa using all
  have other (front rest : Text) : ¬ StyleFirst document front rest := by
    intro first
    have closed : closeValue? [] document = some ("<p title=".toList.reverse,"x\" style=\"a:1\">".toList) := by rfl
    rw [first.closed,List.reverse_append] at closed
    cases closed
  exact ⟨clear,rfl,leavesOpen_openText,other,(hoist_behind openText document registry clear rfl).1 fun _ => other⟩

/-- A style attribute whose opening has the first quote of the document. It is removed there, but not
behind text that leaves a value open. -/
theorem hoist_missed :
    let document := "<p style=\"\">".toList
    let registry := Registry.empty "inl-".toList
    (∃ outcome, hoist document registry = (.ok outcome,registry) ∧ outcome.text = "<p>".toList) ∧
    ∃ outcome, hoist (openText ++ document) registry = (.ok outcome,registry) ∧ outcome.text = openText ++ document := by
  intro document registry
  let attr : StyleAttr := ⟨⟨3,11⟩,⟨10,10⟩,⟨0,12⟩,none⟩
  let edit : TagEdit := TagEdit.ofStyle attr
  have found : scan document = [attr].map .style := by
    have split : document = "<p ".toList ++ (styleOpen ++ ([] ++ '"' :: (">".toList ++ []))) := rfl
    rw [scan,split,scanFrom_ne (show ∀ c ∈ "<p ".toList, c ≠ 's' by simp),scanFrom_value (by rfl) (by rfl),
      scanFrom_ne (show ∀ c ∈ ">".toList, c ≠ 's' by simp),scanFrom_nil]
    rfl
  have planned : (Plan.start registry).addAll document [attr] = (⟨[edit],registry,[],0,1,[]⟩,none) := by decide
  have behind : styleAttrs (openText ++ document) = [] := by
    have split : openText ++ document = [' '] ++ (styleOpen ++ ("abc<p style=".toList ++ '"' :: ("\">".toList ++ []))) := rfl
    rw [styleAttrs,scan,split,scanFrom_ne (by simp),scanFrom_value (by rfl) (by rfl),
      scanFrom_ne (show ∀ c ∈ "\">".toList, c ≠ 's' by simp),scanFrom_nil]
    rfl
  constructor
  · have changes : edit.changes? document = some [⟨⟨2,11⟩,[]⟩] := by decide
    have rendered : edit.render? document = some "<p>".toList :=
      (TagEdit.render?_of_singleton (by rfl) changes).trans (by decide)
    exact ⟨_,hoist_of_lone found planned rfl rfl rendered,rfl⟩
  · refine ⟨⟨openText ++ document,[],[],0,0,(scan (openText ++ document)).filterMap Item.warning? ++ []⟩,?_,rfl⟩
    rw [hoist_eq,behind]
    rfl

end StyleHoist.Markup
