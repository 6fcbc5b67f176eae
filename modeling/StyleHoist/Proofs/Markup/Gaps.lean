import StyleHoist.Proofs.Markup.Simultaneous
import StyleHoist.Proofs.Markup.Soundness
import StyleHoist.Proofs.Plain.Shape

/-! What comes to stand behind a style that is removed. The gaps of styles that follow one
another are one gap, and behind it stands what stood behind the last of them. So no gap
joins its neighbours if a character that ends a name stands behind every style. -/
namespace StyleHoist.Markup

open Text

/-- A character that ends a name stands at an offset. -/
def EndsAt (text : Text) (offset : Nat) : Prop :=
  ∃ front rest, text = front ++ rest ∧ byteSize front = offset ∧ Ends rest

theorem ends_iff_head? {text : Text} : Ends text ↔ ∃ c ∈ text.head?, endsName c = true := by
  constructor
  · rintro ⟨c,rest,rfl,ends⟩
    exact ⟨c,rfl,ends⟩
  · rintro ⟨c,head,ends⟩
    obtain ⟨rest,rfl⟩ := List.head?_eq_some_iff.mp head
    exact ⟨c,rest,rfl,ends⟩

theorem endsAt_here (front rest : Text) : EndsAt (front ++ rest) (byteSize front) ↔ Ends rest := by
  constructor
  · rintro ⟨lead,tail,whole,size,ends⟩
    rwa [(eq_of_byteSize_eq whole size.symm).2]
  · exact fun ends => ⟨front,rest,rfl,rfl,ends⟩

theorem endsAt_slice {document text : Text} {span : Span} {offset : Nat} (part : slice? document span = some text)
    (low : span.start ≤ offset) (high : offset < span.stop) : EndsAt document offset ↔ EndsAt text (offset - span.start) := by
  obtain ⟨before,after,rfl,start,stop⟩ := slice?_eq_some.mp part
  constructor
  · rintro ⟨front,rest,whole,size,ends⟩
    rw [List.append_assoc] at whole
    obtain ⟨mid,rfl,split⟩ := eq_append_of_byteSize_le whole (by omega)
    rw [byteSize_append] at size
    obtain ⟨tail,rfl,rfl⟩ := eq_append_of_byteSize_le split.symm (by omega)
    rw [byteSize_append] at stop
    refine ⟨mid,tail,rfl,by omega,?_⟩
    obtain ⟨c,head,ended⟩ := ends_iff_head?.mp ends
    cases tail with
    | nil => simp at stop; omega
    | cons d tail => exact ⟨d,tail,rfl,by cases head; exact ended⟩
  · rintro ⟨front,rest,rfl,size,ends⟩
    exact ⟨before ++ front,rest ++ after,by simp,by rw [byteSize_append]; omega,ends.append after⟩

namespace Segment

/-- The shown text begins with what the text begins with, or a change is made at its beginning. -/
theorem first_cases (offset : Nat) (segments : List Segment) :
    ((∀ change ∈ changesFrom offset segments, offset < change.span.start) ∧
        (shownOf segments).head? = (textOf segments).head?) ∨
      ∃ change gap rest, changesFrom offset segments = change :: changesFrom (offset + byteSize gap) rest ∧
        change.span = ⟨offset,offset + byteSize gap⟩ ∧ textOf segments = gap ++ textOf rest ∧
        shownOf segments = change.replacement ++ shownOf rest ∧ rest.length < segments.length := by
  induction segments generalizing offset with
  | nil => exact .inl ⟨fun _ member => absurd member List.not_mem_nil,rfl⟩
  | cons segment rest ih =>
    obtain ⟨text,replacement⟩ := segment
    cases replacement with
    | some replacement => exact .inr ⟨_,text,rest,rfl,rfl,rfl,rfl,Nat.lt_succ_self _⟩
    | none =>
      cases text with
      | nil =>
        rcases ih offset with ⟨later,head⟩ | ⟨change,gap,rest,changes,span,text,shown,shorter⟩
        · exact .inl ⟨later,head⟩
        · exact .inr ⟨change,gap,rest,changes,span,text,shown,Nat.lt_succ_of_lt shorter⟩
      | cons c text =>
        refine .inl ⟨fun change member => ?_,rfl⟩
        have := (bounds_of_mem_changesFrom (show change ∈ changesFrom (offset + byteSize (c :: text)) rest from member)).1
        have := c.utf8Size_pos
        rw [byteSize_cons] at *
        omega

/-- Removals at the beginning of a text, one behind the other. What stands behind the last of them is shown first. -/
theorem ends_shownOf {text lead : Text} {segments : List Segment} (removal : Change → Prop)
    (removed : ∀ change, removal change → change.replacement = [] ∧ EndsAt text change.span.stop)
    (chained : ∀ change ∈ changesFrom (byteSize lead) segments, removal change →
      ∀ next ∈ changesFrom (byteSize lead) segments, next.span.start = change.span.stop → removal next)
    (first : ∀ change ∈ changesFrom (byteSize lead) segments, change.span.start = byteSize lead → removal change)
    (whole : text = lead ++ textOf segments) (begins : Ends (textOf segments)) : Ends (shownOf segments) := by
  induction size : segments.length using Nat.strongRecOn generalizing lead segments with
  | ind length ih =>
    rcases first_cases (byteSize lead) segments with ⟨-,head⟩ | ⟨change,gap,rest,changes,span,split,shown,shorter⟩
    · rwa [ends_iff_head?,head,← ends_iff_head?]
    · have member : change ∈ changesFrom (byteSize lead) segments := changes ▸ List.mem_cons_self
      have own := first change member (by rw [span])
      obtain ⟨empty,ends⟩ := removed change own
      have within {other : Change} (among : other ∈ changesFrom (byteSize (lead ++ gap)) rest) :
          other ∈ changesFrom (byteSize lead) segments := by
        rw [changes,List.mem_cons,← byteSize_append]
        exact .inr among
      have through : text = lead ++ gap ++ textOf rest := by rw [whole,split,List.append_assoc]
      have stop : change.span.stop = byteSize (lead ++ gap) := by rw [span,byteSize_append]
      rw [shown,empty]
      refine ih rest.length (size ▸ shorter) (fun other among removes next follows => chained other (within among) removes next
        (within follows)) (fun next follows start => chained change member own next (within follows) (start.trans stop.symm))
        through ?_ rfl
      rw [through,stop] at ends
      exact (endsAt_here _ _).mp ends

theorem exists_behind (offset : Nat) {segments : List Segment} {lead tail : Text} (whole : textOf segments = lead ++ tail)
    (later : ∀ change ∈ changesFrom offset segments, offset + byteSize lead ≤ change.span.start) :
    ∃ back, textOf back = tail ∧ shownOf segments = lead ++ shownOf back ∧
      changesFrom (offset + byteSize lead) back = changesFrom offset segments := by
  induction segments generalizing offset lead with
  | nil =>
    obtain ⟨rfl,rfl⟩ := List.append_eq_nil_iff.mp whole.symm
    exact ⟨[],rfl,rfl,rfl⟩
  | cons segment rest ih =>
    obtain ⟨text,replacement⟩ := segment
    cases replacement with
    | some replacement =>
      have none := later ⟨⟨offset,offset + byteSize text⟩,replacement⟩ List.mem_cons_self
      cases lead with
      | nil => exact ⟨_,whole,rfl,rfl⟩
      | cons c lead =>
        have := c.utf8Size_pos
        simp only [byteSize_cons] at none
        omega
    | none =>
      have split : text ++ textOf rest = lead ++ tail := whole
      rcases List.append_eq_append_iff.mp split with ⟨mid,rfl,behind⟩ | ⟨mid,rfl,rfl⟩
      · obtain ⟨back,same,shown,changes⟩ := ih (offset + byteSize text) behind fun change member => by
          have := later change member
          rw [byteSize_append] at this
          omega
        refine ⟨back,same,?_,?_⟩
        · rw [List.append_assoc,← shown]
          rfl
        · rw [byteSize_append,← Nat.add_assoc]
          exact changes
      · refine ⟨⟨mid,none⟩ :: rest,rfl,by simp [shownOf,shown],?_⟩
        rw [changesFrom,changesFrom,byteSize_append,Nat.add_assoc]

theorem exists_of_mem_changesFrom {offset : Nat} {segments : List Segment} {change : Change}
    (member : change ∈ changesFrom offset segments) : ∃ front gap back, segments = front ++ ⟨gap,some change.replacement⟩ :: back ∧
      change.span = ⟨offset + byteSize (textOf front),offset + byteSize (textOf front) + byteSize gap⟩ := by
  induction segments generalizing offset with
  | nil => contradiction
  | cons segment rest ih =>
    obtain ⟨text,replacement⟩ := segment
    have later (inside : change ∈ changesFrom (offset + byteSize text) rest) :
        ∃ front gap back, ⟨text,replacement⟩ :: rest = front ++ ⟨gap,some change.replacement⟩ :: back ∧
          change.span = ⟨offset + byteSize (textOf front),offset + byteSize (textOf front) + byteSize gap⟩ := by
      obtain ⟨front,gap,back,rfl,span⟩ := ih inside
      refine ⟨⟨text,replacement⟩ :: front,gap,back,rfl,?_⟩
      rw [span,textOf,textOf,List.flatMap_cons,byteSize_append,Nat.add_assoc]
    cases replacement with
    | none => exact later member
    | some replacement =>
      rcases List.mem_cons.mp member with rfl | inside
      · exact ⟨[],text,rest,rfl,rfl⟩
      · exact later inside

end Segment

/-- The text through the tag name. -/
def nameOf (text : Text) : Option Text := slice? text ⟨0,tagNameEnd text⟩

theorem tagNameEnd_cons (c : Char) (rest : Text) :
    tagNameEnd (c :: rest) = c.utf8Size + byteSize (rest.takeWhile (!endsName ·)) := rfl

theorem tagNameEnd_le {inside : Text} {offset : Nat} (ends : EndsAt ('<' :: inside) offset) :
    tagNameEnd ('<' :: inside) ≤ offset := by
  obtain ⟨front,rest,whole,rfl,c,tail,rfl,ends⟩ := ends
  cases front with
  | nil =>
    cases whole
    contradiction
  | cons d front =>
    rw [List.cons_append,List.cons.injEq] at whole
    obtain ⟨rfl,rfl⟩ := whole
    have stop : (!endsName c) = false := by rw [ends]; rfl
    have short := congrArg byteSize (List.takeWhile_append_dropWhile (p := (!endsName ·)) (l := front))
    rw [byteSize_append] at short
    rw [tagNameEnd_cons,takeWhile_append_cons stop,byteSize_cons]
    omega

theorem exists_nameOf {inside : Text} {offset : Nat} (ends : EndsAt ('<' :: inside) offset) :
    ∃ name tail, '<' :: inside = name ++ tail ∧ byteSize name = tagNameEnd ('<' :: inside) ∧ Ends tail ∧
      ∀ more, Ends more → nameOf (name ++ more) = some name := by
  have whole := List.takeWhile_append_dropWhile (p := (!endsName ·)) (l := inside)
  have clear := List.all_eq_true.mp (List.all_takeWhile (p := (!endsName ·)) (l := inside))
  have stop := List.head?_dropWhile_not (!endsName ·) inside
  generalize taken : inside.takeWhile (!endsName ·) = name at *
  generalize inside.dropWhile (!endsName ·) = tail at *
  refine ⟨'<' :: name,tail,by rw [← whole]; rfl,by rw [tagNameEnd_cons,taken,byteSize_cons],?_,?_⟩
  · cases tail with
    | cons c rest => exact ⟨c,rest,rfl,by simpa using stop⟩
    | nil =>
      obtain ⟨front,rest,split,-,c,back,rfl,ends⟩ := ends
      have member : c ∈ '<' :: inside := by simp [split]
      rcases List.mem_cons.mp member with rfl | within
      · contradiction
      · rw [← whole,List.append_nil] at within
        have letter := clear c within
        rw [ends] at letter
        contradiction
  · rintro _ ⟨c,rest,rfl,ends⟩
    have stop : (!endsName c) = false := by rw [ends]; rfl
    have same : tagNameEnd ('<' :: name ++ c :: rest) = byteSize ('<' :: name) := by
      rw [List.cons_append,tagNameEnd_cons,takeWhile_of_stop clear stop,byteSize_cons]
    rw [nameOf,same]
    exact slice?_eq_some.mpr ⟨[],c :: rest,rfl,rfl,Nat.zero_add _⟩

/-- The class attribute, if there is one, overlaps no style. -/
def TagEdit.Beside (edit : TagEdit) : Prop := ∀ named, edit.classAttr = some named →
  ∀ style ∈ edit.styles, named.attr.stop ≤ style.attr.start ∨ style.attr.stop ≤ named.attr.start

/-- The segments of a tag, in which the place of a style, with the white space before it, is empty
and `rest` is shown behind it. -/
def TagEdit.Leaves (edit : TagEdit) (document : Text) (segments : List Segment) (style : StyleAttr) (rest : Text) : Prop :=
  ∃ front gap back, segments = front ++ ⟨gap,some []⟩ :: back ∧ rest = Segment.shownOf back ∧
    Widens document style.attr ⟨edit.tag.start + byteSize (Segment.textOf front),
      edit.tag.start + byteSize (Segment.textOf front) + byteSize gap⟩

theorem TagEdit.Leaves.exists_lead {document text : Text} {edit : TagEdit} {existing : List Text} {removals : List Change}
    {style : StyleAttr} {segments : List Segment} {rest : Text} (whole : Segment.textOf segments = text)
    (same : (removals ++ edit.naming text existing).Perm (Segment.changesFrom 0 segments))
    (leaves : edit.Leaves document segments style rest) :
    ∃ lead back, text = lead ++ Segment.textOf back ∧ rest = Segment.shownOf back ∧
      byteSize lead = style.attr.stop - edit.tag.start ∧
      ∀ change ∈ Segment.changesFrom (byteSize lead) back, change ∈ removals ++ edit.naming text existing := by
  obtain ⟨front,gap,back,rfl,rfl,widens⟩ := leaves
  have stop := widens.stop
  dsimp only at stop
  refine ⟨Segment.textOf front ++ gap,back,?_,rfl,?_,fun change member => same.mem_iff.mpr ?_⟩
  · rw [← whole]
    simp [Segment.textOf]
  · rw [byteSize_append]
    omega
  · rw [Segment.changesFrom_append,Nat.zero_add,List.mem_append]
    rw [byteSize_append] at member
    exact .inr (List.mem_cons_of_mem _ member)

/-- A rendered tag, in segments, with what stands behind the gaps and what becomes of the tag name. -/
structure TagEdit.Gapped (edit : TagEdit) (document : Text) (segments : List Segment) : Prop where
  whole : slice? document edit.tag = some (Segment.textOf segments)
  rendered : edit.render? document = some (Segment.shownOf segments)
  gaps : ∀ style ∈ edit.styles, ∃ rest, edit.Leaves document segments style rest
  ends : (∀ style ∈ edit.styles, ∀ rest, edit.Leaves document segments style rest → Ends rest) ↔
    ∀ style ∈ edit.styles, EndsAt document style.attr.stop
  name : (edit.add ≠ [] ∧ edit.classAttr = none ∨ ∀ style ∈ edit.styles, EndsAt document style.attr.stop) →
    nameOf (Segment.shownOf segments) = nameOf (Segment.textOf segments)

/-- An edit with its pieces in the text of its tag, where styles and class attribute are found. -/
structure TagEdit.Laid (edit : TagEdit) (document text : Text) (existing : List Text) (removals : List Change) : Prop where
  prepared : edit.Prepared document text existing removals
  styled : ∀ style ∈ edit.styles, Located document style ∧ style.tag = edit.tag
  filled : ∃ style, style ∈ edit.styles
  named : ∀ named, edit.classAttr = some named → named.Sound document edit.tag
  beside : edit.Beside

theorem TagEdit.Removes.begins {document text : Text} {style : StyleAttr} {change : Change} (located : Located document style)
    (whole : slice? document style.tag = some text) (removes : Removes text style.tag.start style change) :
    change.replacement = [] ∧ change.span.start < change.span.stop ∧ EndsAt text change.span.start ∧
      ∃ inside, text = '<' :: inside := by
  obtain ⟨again,name,space,body,rest,found,-,lies⟩ := located.exists_lies
  obtain rfl : text = again := Option.some.inj (whole.symm.trans found)
  obtain rfl := Option.some.inj (removes.made.symm.trans (removes_of_lies lies).made)
  obtain ⟨rfl,-,⟨spaced,spaces⟩,-⟩ := lies
  obtain ⟨c,blank,rfl⟩ := List.exists_cons_of_ne_nil spaced
  refine ⟨rfl,?_,?_,_,rfl⟩
  · have := c.utf8Size_pos
    simp only [byteSize_append,byteSize_cons]
    omega
  · rw [List.append_assoc,List.append_assoc,endsAt_here]
    exact ⟨c,_,rfl,endsName_eq_false_of_isSpace (spaces c List.mem_cons_self)⟩

namespace TagEdit.Laid

variable {document text : Text} {edit : TagEdit} {existing : List Text} {removals : List Change} {change : Change}
  {style : StyleAttr}

theorem removes (laid : edit.Laid document text existing removals) (own : style ∈ edit.styles) :
    ∃ change ∈ removals, Removes text edit.tag.start style change :=
  exists_of_forall₂ laid.prepared.removes style own

theorem begins (laid : edit.Laid document text existing removals) (own : style ∈ edit.styles)
    (removes : Removes text edit.tag.start style change) :
    change.replacement = [] ∧ change.span.start < change.span.stop ∧ EndsAt text change.span.start ∧
      ∃ inside, text = '<' :: inside := by
  obtain ⟨located,tag⟩ := laid.styled style own
  rw [← tag] at removes
  exact removes.begins located (tag ▸ laid.prepared.whole)

theorem endsAt_iff (laid : edit.Laid document text existing removals) (own : style ∈ edit.styles) :
    EndsAt document style.attr.stop ↔ EndsAt text (style.attr.stop - edit.tag.start) := by
  obtain ⟨located,tag⟩ := laid.styled style own
  have inside := located.inside
  rw [tag] at inside
  exact endsAt_slice laid.prepared.whole (by omega) inside.2.2

theorem named_start (laid : edit.Laid document text existing removals) {named : ClassAttr}
    (classed : edit.classAttr = some named) : tagNameEnd text < named.attr.start - edit.tag.start := by
  obtain ⟨style,own⟩ := laid.filled
  obtain ⟨change,-,removes⟩ := laid.removes own
  obtain ⟨-,-,-,inside,rfl⟩ := laid.begins own removes
  have sound := laid.named named classed
  obtain ⟨front,c,rest,rfl,size,space⟩ := sound.spaced
  have within := sound.within
  have wide : c.utf8Size = 1 := by
    rcases isSpace_cases space with rfl | rfl | rfl | rfl | rfl <;> rfl
  have ends : EndsAt (front ++ c :: rest) (byteSize front) :=
    (endsAt_here front _).mpr ⟨c,rest,rfl,endsName_eq_false_of_isSpace space⟩
  rw [endsAt_slice laid.prepared.whole (by omega) (by omega)] at ends
  have := tagNameEnd_le ends
  omega

theorem start_ne (laid : edit.Laid document text existing removals) (member : change ∈ edit.naming text existing)
    (own : style ∈ edit.styles) : change.span.start ≠ style.attr.stop - edit.tag.start := by
  intro meet
  obtain ⟨removal,-,removes⟩ := laid.removes own
  obtain ⟨-,wide,-⟩ := laid.begins own removes
  obtain ⟨located,tag⟩ := laid.styled style own
  rcases span_of_mem_naming member with ⟨-,place⟩ | ⟨named,classed,place⟩
  · have := removes.named
    have := removes.stop
    rw [place] at meet
    dsimp only at meet
    omega
  · have sound := laid.named named classed
    have bounds := (laid.prepared.lies named classed).inside
    have forward := located.inside
    rw [tag] at forward
    have apart := laid.beside named classed style own
    have start : named.attr.start = style.attr.stop := by
      rcases place with place | place <;> rw [place] at meet <;> simp only [Span.within] at meet <;> omega
    -- the class attribute would stand right behind the closing quote, but it stands behind white
    -- space
    have quote : Behind document style.attr.stop (· = '"') := by
      obtain ⟨value,-,found,-⟩ := located.sound.value
      obtain ⟨before,after,rfl,-,stop⟩ := slice?_eq_some.mp found
      exact ⟨before ++ styleOpen ++ value,'"',after,by simp,by rw [← stop]; simp [Nat.add_assoc],rfl⟩
    obtain ⟨c,space,same⟩ := (start ▸ sound.spaced).and quote
    rw [decide_eq_true_eq] at same
    subst same
    contradiction

/-- Behind styles that stand before ends of names, an end of a name is shown. -/
theorem ends_behind (laid : edit.Laid document text existing removals)
    (ends : ∀ style ∈ edit.styles, EndsAt document style.attr.stop) {lead : Text} {back : List Segment}
    (whole : text = lead ++ Segment.textOf back)
    (among : ∀ change ∈ Segment.changesFrom (byteSize lead) back, change ∈ removals ++ edit.naming text existing)
    (own : style ∈ edit.styles) (behind : byteSize lead = style.attr.stop - edit.tag.start) :
    Ends (Segment.shownOf back) := by
  -- Whatever begins where a style ends is the removal of another style.
  have follows {style : StyleAttr} {next : Change} (own : style ∈ edit.styles)
      (member : next ∈ Segment.changesFrom (byteSize lead) back) (start : next.span.start = style.attr.stop - edit.tag.start) :
      ∃ style ∈ edit.styles, Removes text edit.tag.start style next := by
    rcases List.mem_append.mp (among next member) with removal | naming
    · exact laid.prepared.exists_style removal
    · exact absurd start (laid.start_ne naming own)
  refine Segment.ends_shownOf (fun change => ∃ style ∈ edit.styles, Removes text edit.tag.start style change)
    ?_ ?_ (fun next member start => follows own member (start.trans behind)) whole ?_
  · rintro change ⟨style,own,removes⟩
    rw [removes.stop]
    exact ⟨(laid.begins own removes).1,(laid.endsAt_iff own).mp (ends style own)⟩
  · rintro change - ⟨style,own,removes⟩ next member start
    exact follows own member (start.trans removes.stop)
  · have here := (laid.endsAt_iff own).mp (ends style own)
    rwa [← behind,whole,endsAt_here] at here

/-- The tag in segments, of which each is a removal, a class that is named, or left as it is. -/
theorem exists_segments (laid : edit.Laid document text existing removals) :
    ∃ segments, Segment.textOf segments = text ∧ edit.render? document = some (Segment.shownOf segments) ∧
      (removals ++ edit.naming text existing).Perm (Segment.changesFrom 0 segments) :=
  laid.prepared.exists_render? (laid.prepared.pairwise_apart (.inr laid.beside))

variable {segments : List Segment} {rest : Text}

theorem exists_leaves (laid : edit.Laid document text existing removals)
    (same : (removals ++ edit.naming text existing).Perm (Segment.changesFrom 0 segments)) (own : style ∈ edit.styles) :
    ∃ rest, edit.Leaves document segments style rest := by
  obtain ⟨change,removal,removes⟩ := laid.removes own
  obtain ⟨located,tag⟩ := laid.styled style own
  obtain ⟨front,gap,back,split,span⟩ :=
    Segment.exists_of_mem_changesFrom (same.mem_iff.mp (List.mem_append_left _ removal))
  rw [← tag] at removes
  obtain ⟨empty,widens⟩ := Deletes.of_removes located (tag ▸ laid.prepared.whole) removes
  rw [(laid.begins own (tag ▸ removes)).1] at split
  refine ⟨_,front,gap,back,split,rfl,?_⟩
  simp only [Change.moved,span,Nat.zero_add] at widens
  rw [← tag,Nat.add_assoc]
  exact widens

/-- What is shown behind the gap of a style may be an end of a name only if one stands behind the style. -/
theorem ends_of_leaves (laid : edit.Laid document text existing removals) (whole : Segment.textOf segments = text)
    (same : (removals ++ edit.naming text existing).Perm (Segment.changesFrom 0 segments)) (own : style ∈ edit.styles)
    (leaves : edit.Leaves document segments style rest) (ends : Ends rest) : EndsAt document style.attr.stop := by
  obtain ⟨lead,back,rfl,rfl,stop,among⟩ := leaves.exists_lead whole same
  rw [laid.endsAt_iff own,← stop,endsAt_here]
  rcases Segment.first_cases (byteSize lead) back with ⟨-,head⟩ | ⟨change,gap,rest,changes,span,split,-⟩
  · rwa [ends_iff_head?,← head,← ends_iff_head?]
  · have member := among change (changes ▸ List.mem_cons_self)
    rcases List.mem_append.mp member with removal | naming
    · obtain ⟨other,also,removes⟩ := laid.prepared.exists_style removal
      have begins := (laid.begins also removes).2.2.1
      rwa [span,endsAt_here] at begins
    · exact absurd (span ▸ stop) (laid.start_ne naming own)

/-- A new class attribute is put right behind the tag name, with a space before it. -/
theorem inserted_of_classless (classless : edit.classAttr = none) (member : change ∈ edit.naming text existing) :
    change.span = ⟨tagNameEnd text,tagNameEnd text⟩ ∧ Ends change.replacement := by
  unfold naming at member
  split at member
  next => contradiction
  next =>
    simp only [classless,List.mem_singleton] at member
    subst member
    exact ⟨rfl,' ',_,rfl,rfl⟩

theorem exists_inserted (filled : edit.add ≠ []) (classless : edit.classAttr = none) (text : Text) (existing : List Text) :
    ∃ change, change ∈ edit.naming text existing := by
  unfold naming
  rw [if_neg filled]
  simp only [classless]
  exact ⟨_,List.mem_singleton_self _⟩

theorem tagNameEnd_le_start (laid : edit.Laid document text existing removals)
    (member : change ∈ removals ++ edit.naming text existing) : tagNameEnd text ≤ change.span.start := by
  rcases List.mem_append.mp member with removal | naming
  · obtain ⟨style,-,removes⟩ := laid.prepared.exists_style removal
    exact removes.named
  · rcases span_of_mem_naming naming with ⟨-,place⟩ | ⟨named,classed,place⟩
    · exact Nat.le_of_eq (congrArg Span.start place).symm
    · have behind := laid.named_start classed
      have bounds := (laid.prepared.lies named classed).inside
      rcases place with place | place <;> rw [place] <;> simp only [Span.within] <;> omega

/-- The name stays where a class is named behind it, or styles stand before ends of names. -/
theorem nameOf_eq (laid : edit.Laid document text existing removals) (whole : Segment.textOf segments = text)
    (same : (removals ++ edit.naming text existing).Perm (Segment.changesFrom 0 segments))
    (kept : edit.add ≠ [] ∧ edit.classAttr = none ∨ ∀ style ∈ edit.styles, EndsAt document style.attr.stop) :
    nameOf (Segment.shownOf segments) = nameOf text := by
  obtain ⟨style,own⟩ := laid.filled
  obtain ⟨removal,-,removes⟩ := laid.removes own
  obtain ⟨-,-,begins,inside,tagged⟩ := laid.begins own removes
  rw [tagged] at begins
  obtain ⟨name,tail,cut,size,ends,names⟩ := exists_nameOf begins
  rw [← tagged] at cut size
  obtain ⟨back,behind,shown,changes⟩ := Segment.exists_behind 0 (whole.trans cut) fun change member => by
    rw [Nat.zero_add,size]
    exact laid.tagNameEnd_le_start (same.mem_iff.mpr member)
  rw [Nat.zero_add] at changes
  rw [← changes] at same
  suffices follows : Ends (Segment.shownOf back) by rw [shown,cut,names _ follows,names _ ends]
  rcases Segment.first_cases (byteSize name) back with ⟨-,head⟩ | ⟨change,gap,rest,first,span,split,exchanged,-⟩
  · rwa [ends_iff_head?,head,behind,← ends_iff_head?]
  · have member : change ∈ removals ++ edit.naming text existing := same.mem_iff.mpr (first ▸ List.mem_cons_self)
    rw [exchanged]
    rcases List.mem_append.mp member with removal | naming
    · obtain ⟨other,also,removed⟩ := laid.prepared.exists_style removal
      obtain ⟨empty,wide,-⟩ := laid.begins also removed
      rw [span] at wide
      dsimp only at wide
      rcases kept with ⟨filled,classless⟩ | sep
      · -- An insertion stands before the removals that begin where it does.
        obtain ⟨inserted,named⟩ := exists_inserted filled classless text existing
        obtain ⟨place,-⟩ := inserted_of_classless classless named
        have among := same.mem_iff.mp (List.mem_append_right _ named)
        rw [first,List.mem_cons] at among
        rcases among with rfl | later
        · rw [place,Span.mk.injEq] at span
          omega
        · have := (Segment.bounds_of_mem_changesFrom later).1
          rw [place] at this
          dsimp only at this
          omega
      · rw [empty,List.nil_append]
        have behind : text = name ++ gap ++ Segment.textOf rest := by rw [cut,← behind,split,List.append_assoc]
        refine laid.ends_behind sep behind (fun next member => same.mem_iff.mpr ?_) also ?_
        · rw [first,← byteSize_append]
          exact List.mem_cons_of_mem _ member
        · rw [← removed.stop,span,byteSize_append]
    · rcases span_of_mem_naming naming with ⟨classless,-⟩ | ⟨named,classed,place⟩
      · exact (inserted_of_classless classless naming).2.append _
      · have far := laid.named_start classed
        have bounds := (laid.prepared.lies named classed).inside
        rcases place with place | place <;> rw [place,Span.within,Span.mk.injEq] at span <;> omega

theorem gapped (laid : edit.Laid document text existing removals) : ∃ segments, edit.Gapped document segments := by
  obtain ⟨segments,whole,rendered,same⟩ := laid.exists_segments
  have found := laid.prepared.whole
  rw [← whole] at found
  refine ⟨segments,found,rendered,fun style own => laid.exists_leaves same own,⟨fun good style own => ?_,
    fun good style own rest leaves => ?_⟩,fun kept => ?_⟩
  · obtain ⟨rest,leaves⟩ := laid.exists_leaves same own
    exact laid.ends_of_leaves whole same own leaves (good style own rest leaves)
  · obtain ⟨lead,back,split,rfl,stop,among⟩ := leaves.exists_lead whole same
    exact laid.ends_behind good split among own stop
  · rw [whole]
    exact laid.nameOf_eq whole same kept

end TagEdit.Laid

theorem Reported.laid {document : Text} {plan : Plan} {edit : TagEdit}
    (known : Reported document (styleAttrs document) plan) (member : edit ∈ plan.edits) (beside : edit.Beside) :
    ∃ text existing removals, edit.Laid document text existing removals := by
  have located (attr : StyleAttr) (found : attr ∈ styleAttrs document) : Located document attr :=
    located_of_mem_styleAttrs found
  obtain ⟨text,existing,removals,prepared⟩ := known.exists_prepared located (pairwise_styleAttrs document) member
  have styles := (known.grouped.filled edit member).2
  refine ⟨text,existing,removals,prepared,fun style own => ?_,?_,fun named classed => ?_,beside⟩
  · rw [styles,List.mem_filter,decide_eq_true_eq] at own
    exact ⟨located style own.1,own.2⟩
  · obtain ⟨style,found,tag,-⟩ := known.exists_style member
    exact ⟨style,by rw [styles,List.mem_filter,decide_eq_true_eq]; exact ⟨found,tag⟩⟩
  · obtain ⟨style,found,tag,same⟩ := known.exists_style member
    rw [← tag]
    exact (located style found).sound.named named (same ▸ classed)

/-- Every edit that is applied to a document, with its gaps. They join nothing exactly if behind every
style of the edit stands white space, a slash or the end of the tag; and then the tag name stays. -/
theorem gapped_of_hoist {document : Text} {registry last : Registry} {outcome : Outcome}
    (hoisted : hoist document registry = (.ok outcome,last)) :
    ∃ plan, (Plan.start registry).addAll document (styleAttrs document) = (plan,none) ∧
      List.Forall₂ (Applies document outcome.text) plan.edits.reverse outcome.edits ∧
      ∀ edit ∈ plan.edits, edit.Beside → ∃ segments, edit.Gapped document segments := by
  obtain ⟨plan,planned,assembled,-,-⟩ := hoist_eq_ok hoisted
  have known := Reported.of_addAll (fun _ => located_of_mem_styleAttrs) (ordered_styleAttrs document) planned
  have carried := carried_of_assemble? [] [] assembled (fun edit member => ?_)
    (List.pairwise_reverse.mpr known.grouped.ordered)
  · refine ⟨plan,planned,carried.rendered,fun edit member beside => ?_⟩
    obtain ⟨text,existing,removals,laid⟩ := known.laid member beside
    exact laid.gapped
  · obtain ⟨style,found,tag,-⟩ := known.exists_style (List.mem_reverse.mp member)
    have inside := (located_of_mem_styleAttrs found).inside
    rw [tag] at inside
    exact ⟨Nat.zero_le _,by omega⟩

/-- A style with white space behind it. -/
theorem gapped_of_hoist_spaced :
    let document := "<p style=\"\" id>".toList
    let registry := Registry.empty "inl-".toList
    let outcome : Outcome := ⟨"<p id>".toList,[⟨⟨0,15⟩,⟨0,6⟩,[]⟩],[],0,1,[]⟩
    hoist document registry = (.ok outcome,registry) ∧
      ∃ plan, (Plan.start registry).addAll document (styleAttrs document) = (plan,none) ∧
        List.Forall₂ (Applies document outcome.text) plan.edits.reverse outcome.edits ∧
        ∀ edit ∈ plan.edits, edit.Beside → ∃ segments, edit.Gapped document segments := by
  intro document registry outcome
  let attr : StyleAttr := ⟨⟨3,11⟩,⟨10,10⟩,⟨0,15⟩,none⟩
  have found : scan document = [attr].map .style := by
    have split : document = "<p ".toList ++ (styleOpen ++ ([] ++ '"' :: (" id>".toList ++ []))) := rfl
    rw [scan,split,scanFrom_ne (show ∀ c ∈ "<p ".toList, c ≠ 's' by simp),scanFrom_value (by rfl) (by rfl),
      scanFrom_ne (show ∀ c ∈ " id>".toList, c ≠ 's' by simp),scanFrom_nil]
    rfl
  have planned : (Plan.start registry).addAll document [attr] = (⟨[TagEdit.ofStyle attr],registry,[],0,1,[]⟩,none) := by
    decide
  have changes : (TagEdit.ofStyle attr).changes? document = some [⟨⟨2,11⟩,[]⟩] := by decide
  have rendered : (TagEdit.ofStyle attr).render? document = some "<p id>".toList :=
    (TagEdit.render?_of_singleton (by rfl) changes).trans (by decide)
  have hoisted : hoist document registry = (.ok outcome,registry) := hoist_of_lone found planned rfl rfl rendered
  exact ⟨hoisted,gapped_of_hoist hoisted⟩

/-- A style with the name of an attribute behind it, which is joined to that of the tag. -/
theorem hoist_joined :
    let document := "<p style=\"\"title=\"x\">".toList
    let registry := Registry.empty "inl-".toList
    let outcome : Outcome := ⟨"<ptitle=\"x\">".toList,[⟨⟨0,21⟩,⟨0,12⟩,[]⟩],[],0,1,[]⟩
    hoist document registry = (.ok outcome,registry) ∧ nameOf document = some "<p".toList ∧
      nameOf outcome.text = some "<ptitle=\"x\"".toList := by
  intro document registry outcome
  let attr : StyleAttr := ⟨⟨3,11⟩,⟨10,10⟩,⟨0,21⟩,none⟩
  have found : scan document = [attr].map .style := by
    have split : document = "<p ".toList ++ (styleOpen ++ ([] ++ '"' :: ("title=\"x\">".toList ++ []))) := rfl
    rw [scan,split,scanFrom_ne (show ∀ c ∈ "<p ".toList, c ≠ 's' by simp),scanFrom_value (by rfl) (by rfl),
      scanFrom_ne (show ∀ c ∈ "title=\"x\">".toList, c ≠ 's' by simp),scanFrom_nil]
    rfl
  have planned : (Plan.start registry).addAll document [attr] = (⟨[TagEdit.ofStyle attr],registry,[],0,1,[]⟩,none) := by
    decide
  have changes : (TagEdit.ofStyle attr).changes? document = some [⟨⟨2,11⟩,[]⟩] := by decide
  have rendered : (TagEdit.ofStyle attr).render? document = some "<ptitle=\"x\">".toList :=
    (TagEdit.render?_of_singleton (by rfl) changes).trans (by decide)
  exact ⟨hoist_of_lone found planned rfl rfl rendered,by decide,by decide⟩

end StyleHoist.Markup
