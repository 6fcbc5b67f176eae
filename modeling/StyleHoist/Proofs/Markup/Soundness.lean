import StyleHoist.Proofs.Bytewise.Items
import StyleHoist.Proofs.Markup.Rendering

/-! What the spans of a scan are spans of. An attribute stands behind white space, between
the beginning of a tag and an end that its quotes are skipped to reach, and a class
attribute stands behind white space in that tag. -/
namespace StyleHoist.Markup

open Text

/-- A text in which every quote is closed, with no angle bracket outside quotes. -/
inductive Balanced : Text → Prop
  | nil : Balanced []
  | plain {c : Char} {rest : Text} (unquoted : isQuote c = false) (unbracketed : isBracket c = false)
      (later : Balanced rest) : Balanced (c :: rest)
  | quoted {q : Char} {inside rest : Text} (quote : isQuote q = true) (within : q ∉ inside)
      (later : Balanced rest) : Balanced (q :: inside ++ q :: rest)

/-- A class attribute and its value, between two equal quotes or bare. -/
inductive ClassAttr.Written (document : Text) (named : ClassAttr) : Prop
  | quoted {q : Char} {value : Text} (quoted : named.quoted = true) (quote : isQuote q = true) (absent : q ∉ value)
      (attr : slice? document named.attr = some (classOpen ++ q :: value ++ [q]))
      (place : named.value = ⟨named.attr.start + 7,named.attr.stop - 1⟩)
      (inside : slice? document named.value = some value)
  | bare {value : Text} (bare : named.quoted = false) (unquoted : value.head?.any isQuote = false)
      (solid : ∀ c ∈ value, isSpace c = false ∧ c ≠ '>')
      (attr : slice? document named.attr = some (classOpen ++ value))
      (place : named.value = ⟨named.attr.start + 6,named.attr.stop⟩)
      (inside : slice? document named.value = some value)

structure ClassAttr.Sound (document : Text) (tag : Span) (named : ClassAttr) : Prop where
  within : tag.start < named.attr.start ∧ named.attr.start < named.attr.stop ∧ named.attr.stop ≤ tag.stop
  spaced : Behind document named.attr.start isSpace
  written : named.Written document

/-- An attribute with what lies around it in its tag. A span that has a slice is in the bounds of
the document and falls on its characters. -/
structure StyleAttr.Sound (document : Text) (attr : StyleAttr) : Prop where
  nested : attr.tag.start < attr.attr.start ∧ attr.attr.start < attr.attr.stop ∧ attr.attr.stop < attr.tag.stop
  spaced : Behind document attr.attr.start isSpace
  place : attr.value = ⟨attr.attr.start + 7,attr.attr.stop - 1⟩
  value : ∃ value, slice? document attr.value = some value ∧
    slice? document attr.attr = some (styleOpen ++ value ++ ['"']) ∧ value.head? ≠ some '"' ∧
    ∀ front rest, value = front ++ '"' :: rest → front.getLast? = some '\\'
  head : ∃ letter inside, slice? document ⟨attr.tag.start,attr.attr.start⟩ = some ('<' :: letter :: inside) ∧
    letter.isAlpha = true ∧ ∀ c ∈ letter :: inside, isBracket c = false
  tail : ∃ inside, slice? document ⟨attr.attr.stop,attr.tag.stop⟩ = some (inside ++ ['>']) ∧ Balanced inside
  tag : ∃ text, slice? document attr.tag = some text
  named : ∀ named ∈ attr.classAttr, named.Sound document attr.tag

/-- A text that is balanced once the quote that is open, if one is, has been closed. -/
def BalancedFrom : Option Char → Text → Prop
  | none, text => Balanced text
  | some q, text => ∃ inside rest, text = inside ++ q :: rest ∧ q ∉ inside ∧ Balanced rest

theorem balanced_of_closeTag? {quote : Option Char} {read text result : Text}
    (found : closeTag? quote read text = some result) :
    ∃ inside rest, text = inside ++ '>' :: rest ∧ result = '>' :: inside.reverse ++ read ∧
      BalancedFrom quote inside := by
  induction text generalizing quote read with
  | nil => simp [closeTag?] at found
  | cons c text ih =>
    have go {next : Option Char} (later : closeTag? next (c :: read) text = some result)
        (goes : ∀ inside, BalancedFrom next inside → BalancedFrom quote (c :: inside)) :
        ∃ inside rest, c :: text = inside ++ '>' :: rest ∧ result = '>' :: inside.reverse ++ read ∧
          BalancedFrom quote inside := by
      obtain ⟨inside,rest,rfl,rfl,balanced⟩ := ih later
      exact ⟨c :: inside,rest,rfl,by simp,goes inside balanced⟩
    cases quote with
    | some q =>
      rw [closeTag?] at found
      by_cases same : c = q
      · subst same
        rw [if_pos rfl] at found
        exact go found fun inside balanced => ⟨[],inside,rfl,List.not_mem_nil,balanced⟩
      · rw [if_neg same] at found
        refine go found fun inside later => ?_
        obtain ⟨front,rest,split,absent,balanced⟩ := later
        exact ⟨c :: front,rest,by simp [split],List.not_mem_cons_of_ne_of_not_mem (Ne.symm same) absent,balanced⟩
    | none =>
      rw [closeTag?] at found
      split at found
      next quote =>
        refine go found fun inside later => ?_
        obtain ⟨front,rest,split,absent,balanced⟩ := later
        exact split ▸ .quoted quote absent balanced
      next unquoted =>
        split at found
        next closing =>
          cases found
          exact ⟨[],text,by rw [closing]; rfl,by rw [closing]; rfl,.nil⟩
        next unclosed =>
          split at found
          next => contradiction
          next unopened =>
            exact go found fun inside balanced =>
              .plain (by simpa using unquoted) (by simp [isBracket,unclosed,unopened]) balanced

theorem escaped_of_closeValue? {value rest : Text}
    (closed : closeValue? [] (value ++ '"' :: rest) = some (value.reverse,rest)) {front back : Text}
    (split : value = front ++ '"' :: back) : front.getLast? = some '\\' := by
  have first := (closes_of_closeValue? [] closed).2 (byteSize front)
  have here : Closer ([] ++ front.reverse.reverse ++ '"' :: (back ++ '"' :: rest)) (byteSize [])
      (byteSize ([] ++ front.reverse.reverse)) ↔ '"' = '"' ∧ front.reverse.head? ≠ some '\\' := closer_iff_head
  simp only [List.nil_append,List.reverse_reverse,List.head?_reverse,ne_eq,true_and] at here first
  rw [split,List.append_assoc,List.cons_append] at first
  by_contra escaped
  have before := first (here.mpr escaped)
  have := '"'.utf8Size_pos
  simp only [byteSize_nil,byteSize_reverse,byteSize_append,byteSize_cons] at before
  omega

theorem byteSize_classOpen : byteSize classOpen = 6 := rfl

theorem classOf?_sound {front text : Text} {named : ClassAttr} (rest : Text)
    (found : classOf? (byteSize front) text = some named) :
    named.Sound (front ++ text ++ rest) ⟨byteSize front,byteSize (front ++ text)⟩ := by
  obtain ⟨lead,behind,rfl,blank,valued⟩ := classOf?_cases found
  have spaced : Behind (front ++ (lead ++ (classOpen ++ behind)) ++ rest) (byteSize front + byteSize lead) isSpace := by
    obtain ⟨c,last,space⟩ := Option.any_eq_true _ _ |>.mp blank
    rw [← byteSize_append,← List.append_assoc,List.append_assoc,behind_here,List.getLast?_append,last]
    exact ⟨c,rfl,space⟩
  have filled : 0 < byteSize lead := by
    cases lead with
    | nil => contradiction
    | cons c lead =>
      rw [byteSize_cons]
      exact Nat.add_pos_left c.utf8Size_pos _
  rw [byteSize_classOpen] at valued
  rcases classValue?_cases valued with ⟨q,value,after,rfl,quote,absent,rfl⟩ | ⟨value,after,rfl,first,solid,rfl⟩
  · have wide := utf8Size_of_isQuote quote
    refine ⟨?_,spaced,.quoted rfl quote absent (slice?_eq_some.mpr ⟨front ++ lead,after ++ rest,?_⟩) ?_
      (slice?_eq_some.mpr ⟨front ++ lead ++ classOpen ++ [q],q :: after ++ rest,?_⟩)⟩
    all_goals simp [byteSize_classOpen,wide]; try omega
  · refine ⟨?_,spaced,.bare rfl first solid (slice?_eq_some.mpr ⟨front ++ lead,after ++ rest,?_⟩) ?_
      (slice?_eq_some.mpr ⟨front ++ lead ++ classOpen,after ++ rest,?_⟩)⟩
    all_goals simp [byteSize_classOpen]; try omega

/-- A document cut around an attribute: what is before its tag, the tag up to the attribute, the
attribute, the rest of the tag, and what is behind it. -/
structure StyleAttr.Cut (attr : StyleAttr) (document front head value tail back : Text) : Prop where
  whole : document = front ++ head ++ (styleOpen ++ value ++ ['"']) ++ tail ++ back
  place : attr.attr = ⟨byteSize (front ++ head),byteSize (front ++ head ++ (styleOpen ++ value ++ ['"']))⟩
  inner : attr.value = ⟨byteSize (front ++ head ++ styleOpen),byteSize (front ++ head ++ styleOpen ++ value)⟩
  outer : attr.tag = ⟨byteSize front,byteSize (front ++ (head ++ (styleOpen ++ value ++ ['"']) ++ tail))⟩
  named : attr.classAttr = classOf? (byteSize front) (head ++ (styleOpen ++ value ++ ['"']) ++ tail)
  begins : ∃ letter inside, head = '<' :: letter :: inside ∧ letter.isAlpha = true ∧
    ∀ c ∈ letter :: inside, isBracket c = false
  spaced : ∃ c ∈ head.getLast?, isSpace c = true
  escaped : ∀ before rest, value = before ++ '"' :: rest → before.getLast? = some '\\'
  ends : ∃ inside, tail = inside ++ ['>'] ∧ Balanced inside

theorem Located.exists_cut {document : Text} {attr : StyleAttr} (located : Located document attr) :
    ∃ front head value tail back, attr.Cut document front head value tail back := by
  obtain ⟨behind,value,rest,rfl,spaced,closed,found⟩ := located
  simp only [styleAttr?,Option.bind_eq_bind,Option.bind_eq_some_iff] at found
  obtain ⟨⟨before,head⟩,opened,tail,ended,same⟩ := found
  obtain ⟨letter,inside,first,alphabetic,clear,whole⟩ := openTag?_eq_some opened
  obtain ⟨content,after,rfl,rfl,balanced⟩ := balanced_of_closeTag? ended
  have size := congrArg byteSize whole
  rw [byteSize_reverse] at size
  have last : ∃ c ∈ head.getLast?, isSpace c = true := by
    have same := congrArg List.getLast? whole
    rw [List.getLast?_reverse,List.getLast?_append_of_ne_nil _ (by simp [first])] at same
    rw [Option.any_eq_true] at spaced
    exact same ▸ spaced
  cases same
  refine ⟨before.reverse,head,value,content ++ ['>'],after,?_,?_,?_,?_,?_,⟨letter,inside,first,alphabetic,clear⟩,last,
    fun _ _ => escaped_of_closeValue? closed,content,rfl,balanced⟩
  · simp [whole]
  · simp [size,Nat.add_assoc,utf8Size_quote]
  · simp [size,Nat.add_assoc]
  · simp
  · simp

theorem slice?_middle (front part back : Text) :
    slice? (front ++ part ++ back) ⟨byteSize front,byteSize (front ++ part)⟩ = some part :=
  slice?_eq_some.mpr ⟨front,back,rfl,rfl,(byteSize_append _ _).symm⟩

theorem StyleAttr.Cut.sound {attr : StyleAttr} {document front head value tail back : Text}
    (cut : attr.Cut document front head value tail back) : attr.Sound document := by
  obtain ⟨rfl,place,inner,outer,named,⟨letter,inside,rfl,alphabetic,clear⟩,spaced,escaped,content,rfl,balanced⟩ := cut
  generalize opening : '<' :: letter :: inside = head at *
  have wide : 0 < byteSize head := by
    have := '<'.utf8Size_pos
    rw [← opening,byteSize_cons]
    omega
  have valued := slice?_middle (front ++ head ++ styleOpen) value (['"'] ++ (content ++ ['>']) ++ back)
  have styled := slice?_middle (front ++ head) (styleOpen ++ value ++ ['"']) ((content ++ ['>']) ++ back)
  have begun := slice?_middle front head ((styleOpen ++ value ++ ['"']) ++ (content ++ ['>']) ++ back)
  have ended := slice?_middle (front ++ head ++ (styleOpen ++ value ++ ['"'])) (content ++ ['>']) back
  have tagged := slice?_middle front (head ++ (styleOpen ++ value ++ ['"']) ++ (content ++ ['>'])) back
  have space : Behind (front ++ head ++ (styleOpen ++ value ++ ['"'] ++ (content ++ ['>']) ++ back))
      (byteSize (front ++ head)) isSpace ↔ ∃ c ∈ (front ++ head).getLast?, isSpace c = true := behind_here
  simp only [← List.append_assoc] at valued styled begun ended tagged space place inner outer named ⊢
  refine ⟨?_,?_,?_,⟨value,?_,?_,?_,escaped⟩,⟨letter,inside,?_,alphabetic,clear⟩,⟨content,?_,balanced⟩,?_,?_⟩
  · rw [place,outer]
    simp only [byteSize_append,byteSize_cons,byteSize_nil,byteSize_styleOpen,utf8Size_quote,utf8Size_close]
    omega
  · rw [place]
    obtain ⟨c,last,blank⟩ := spaced
    exact space.mpr ⟨c,by rw [List.getLast?_append,Option.mem_def.mp last]; rfl,blank⟩
  · rw [place,inner]
    simp only [byteSize_append,byteSize_cons,byteSize_nil,byteSize_styleOpen,utf8Size_quote,Nat.add_zero,
      Nat.add_sub_cancel]
  · rw [inner]
    exact valued
  · rw [place]
    exact styled
  · cases value with
    | nil => exact fun quote => by contradiction
    | cons c value =>
      intro quote
      have escaped := escaped [] value (by rw [Option.some.inj quote]; rfl)
      contradiction
  · rw [outer,place,opening]
    exact begun
  · rw [outer,place]
    exact ended
  · rw [outer]
    exact ⟨_,tagged⟩
  · intro own found
    rw [named] at found
    rw [outer]
    have sound := classOf?_sound back found
    simpa only [← List.append_assoc] using sound

theorem Located.sound {document : Text} {attr : StyleAttr} (located : Located document attr) : attr.Sound document := by
  obtain ⟨front,head,value,tail,back,cut⟩ := located.exists_cut
  exact cut.sound

/-- The spans of a scan are what they are taken for, one attribute ends before the next begins, and
on the bytes of the document the same is found, with every slice there. -/
theorem scan_sound (document : Text) : (∀ attr ∈ styleAttrs document, attr.Sound document) ∧
    (styleAttrs document).Pairwise (fun first second => first.attr.stop ≤ second.attr.start) ∧
    Bytewise.itemsFrom? document 0 = some (scan document) :=
  ⟨fun _ member => (located_of_mem_styleAttrs member).sound,pairwise_styleAttrs document,
    Bytewise.itemsFrom?_eq_some (scans_scanFrom [] document)⟩

end StyleHoist.Markup
