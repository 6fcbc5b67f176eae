import StyleHoist.Proofs.Markup.Hoisting
import StyleHoist.Proofs.Markup.Scanning
import StyleHoist.Proofs.Text.Place
import StyleHoist.Proofs.Text.Run

/-! A document behind a lead. Nothing that is read there depends on the lead: spans are
moved by its length, tags are rendered to the same text, and the plan takes the same
attributes into the same edits with the same classes. -/
namespace StyleHoist

/-- A span of a text as a span of that text behind a lead of some length. -/
def Span.moved (base : Nat) (span : Span) : Span := ⟨base + span.start,base + span.stop⟩

theorem Span.within_moved (span : Span) (base offset : Nat) :
    (span.moved base).within (base + offset) = span.within offset := by
  simp only [within,moved,Nat.add_sub_add_left]

theorem Span.moved_injective (base : Nat) : Function.Injective (moved base) := by
  rintro ⟨start,stop⟩ ⟨first,last⟩ same
  simp only [moved,Span.mk.injEq] at same ⊢
  omega

namespace Text

variable {lead text : Text}

theorem cut?_lead (lead text : Text) (offset : Nat) : cut? (lead ++ text) (byteSize lead + offset) =
    (cut? text offset).map fun parts => (lead ++ parts.1,parts.2) := by
  cases found : cut? text offset with
  | some parts =>
    obtain ⟨rfl,rfl⟩ := cut?_eq_some.mp found
    exact cut?_eq_some.mpr ⟨(List.append_assoc _ _ _).symm,byteSize_append _ _⟩
  | none =>
    refine Option.eq_none_iff_forall_not_mem.mpr fun ⟨left,right⟩ cut => ?_
    obtain ⟨whole,size⟩ := cut?_eq_some.mp cut
    obtain ⟨mid,rfl,rfl⟩ := eq_append_of_byteSize_le whole (by omega)
    rw [byteSize_append] at size
    have inside : cut? (mid ++ right) offset = some (mid,right) := cut?_eq_some.mpr ⟨rfl,by omega⟩
    rw [found] at inside
    contradiction

theorem slice?_lead (lead text : Text) (span : Span) :
    slice? (lead ++ text) (span.moved (byteSize lead)) = slice? text span := by
  simp only [slice?,Span.moved,cut?_lead,Nat.add_le_add_iff_left,Nat.add_sub_add_left]
  cases cut? text span.start <;> rfl

theorem isSome_locate?_lead (lead text : Text) (offset : Nat) :
    (Position.locate? (lead ++ text) (byteSize lead + offset)).isSome = (Position.locate? text offset).isSome := by
  simp only [Position.locate?,cut?_lead,Option.isSome_map]

end Text

namespace Markup

open Text

def ClassAttr.moved (base : Nat) (named : ClassAttr) : ClassAttr :=
  ⟨named.attr.moved base,named.value.moved base,named.quoted⟩

def StyleAttr.moved (base : Nat) (attr : StyleAttr) : StyleAttr :=
  ⟨attr.attr.moved base,attr.value.moved base,attr.tag.moved base,attr.classAttr.map (·.moved base)⟩

def TagEdit.moved (base : Nat) (edit : TagEdit) : TagEdit :=
  ⟨edit.tag.moved base,edit.styles.map (·.moved base),edit.classAttr.map (·.moved base),edit.add⟩

def AppliedEdit.moved (base : Nat) (edit : AppliedEdit) : AppliedEdit :=
  ⟨edit.source.moved base,edit.target.moved base,edit.classes⟩

section Scan

variable {behind before value rest : Text}

theorem classValue?_moved (base start offset : Nat) (text : Text) :
    classValue? (base + start) (base + offset) text = (classValue? start offset text).map (·.moved base) := by
  unfold classValue?
  split
  next => rfl
  next c rest =>
    split
    next =>
      dsimp only
      split
      next => rfl
      next => simp only [Option.map_some,ClassAttr.moved,Span.moved,Nat.add_assoc]
    next => simp only [Option.map_some,ClassAttr.moved,Span.moved,Nat.add_assoc]

theorem classIn?_moved (base : Nat) (quote : Option Char) (before : Char) (offset : Nat) (text : Text) :
    classIn? quote before (base + offset) text = (classIn? quote before offset text).map (·.moved base) := by
  induction text generalizing quote before offset with
  | nil => rfl
  | cons c rest ih =>
    unfold classIn?
    split
    next => rw [Nat.add_assoc,ih]
    next =>
      split
      next => rw [Nat.add_assoc,classValue?_moved]
      next => rw [Nat.add_assoc,ih]

theorem classOf?_moved (base start : Nat) (text : Text) :
    classOf? (base + start) text = (classOf? start text).map (·.moved base) := by
  cases text with
  | nil => rfl
  | cons c rest => rw [classOf?,classOf?,Nat.add_assoc,classIn?_moved]

theorem openTag?_lead (bracket : ∃ c ∈ behind, isBracket c = true) (before : Text) :
    openTag? (behind ++ before) = (openTag? behind).map fun parts => (parts.1 ++ before,parts.2) := by
  have whole := List.takeWhile_append_dropWhile (p := (!isBracket ·)) (l := behind)
  have inside := List.all_takeWhile (p := (!isBracket ·)) (l := behind)
  have stop := List.head?_dropWhile_not (!isBracket ·) behind
  generalize taken : behind.takeWhile (!isBracket ·) = front at *
  generalize dropped : behind.dropWhile (!isBracket ·) = back at *
  cases back with
  | nil =>
    obtain ⟨c,member,bracket⟩ := bracket
    rw [List.append_nil] at whole
    have clear := List.all_eq_true.mp inside c (whole ▸ member)
    rw [bracket] at clear
    contradiction
  | cons c after =>
    have short : (behind ++ before).takeWhile (!isBracket ·) = front ∧
        (behind ++ before).dropWhile (!isBracket ·) = c :: after ++ before := by
      rw [← whole,List.append_assoc]
      exact ⟨takeWhile_of_stop (List.all_eq_true.mp inside) stop,dropWhile_of_stop (List.all_eq_true.mp inside) stop⟩
    rw [openTag?_eq,openTag?_eq,short.1,short.2,taken,dropped]
    simp only [List.head?_cons,isBracket,Bool.not_eq_false',Bool.or_eq_true,decide_eq_true_eq] at stop
    rcases stop with rfl | rfl
    · cases front.getLast? with
      | none => rfl
      | some letter => by_cases alphabetic : letter.isAlpha = true <;> simp [alphabetic]
    · rfl

theorem styleAttr?_moved (bracket : ∃ c ∈ behind, isBracket c = true) (lead value rest : Text) :
    styleAttr? (behind ++ lead) value rest = (styleAttr? behind value rest).map (·.moved (byteSize lead)) := by
  have size (part : Text) : byteSize (part ++ lead) = byteSize lead + byteSize part := by
    rw [byteSize_append,Nat.add_comm]
  unfold styleAttr?
  rw [openTag?_lead bracket lead]
  cases openTag? behind with
  | none => rfl
  | some parts =>
    cases closeTag? none [] rest with
    | none => rfl
    | some tail =>
      simp only [Option.map_some,Option.bind_eq_bind,Option.bind_some,size,classOf?_moved,StyleAttr.moved,Span.moved,
        Nat.add_assoc]

theorem style?_itemAt_moved (bracket : ∃ c ∈ behind, isBracket c = true) (lead value rest : Text) :
    (itemAt (behind ++ lead) value rest).style? = (itemAt behind value rest).style?.map (·.moved (byteSize lead)) := by
  unfold itemAt
  rw [styleAttr?_moved bracket]
  cases styleAttr? behind value rest <;> rfl

theorem Scans.styles_moved {ahead : Text} {items : List Item} (scans : Scans behind ahead items)
    (bracket : ∃ c ∈ behind, isBracket c = true) (lead : Text) :
    (scanFrom (behind ++ lead) ahead).filterMap Item.style? =
      (items.filterMap Item.style?).map (·.moved (byteSize lead)) := by
  -- what the scan reads behind a place stays on this side of the bracket
  have head {behind : Text} (bracket : ∃ c ∈ behind, isBracket c = true) : (behind ++ lead).head? = behind.head? := by
    obtain ⟨c,member,-⟩ := bracket
    exact List.head?_append_of_ne_nil behind (List.ne_nil_of_mem member)
  have further {behind : Text} (read : Text) (bracket : ∃ c ∈ behind, isBracket c = true) :
      ∃ c ∈ read ++ behind, isBracket c = true := by
    obtain ⟨c,member,same⟩ := bracket
    exact ⟨c,List.mem_append_right _ member,same⟩
  induction scans with
  | nil => rw [scanFrom_nil]; rfl
  | @cons _ _ c _ unopened _ ih =>
    rw [scanFrom_cons unopened]
    exact ih (further [c] bracket)
  | unclosed spaced unclosed =>
    rw [scanFrom_unclosed (by rwa [head bracket]) unclosed]
    rfl
  | @value behind value rest _ spaced closed _ ih =>
    have later := ih (further ('"' :: value.reverse) (further styleOpen.reverse bracket))
    rw [List.append_assoc,List.append_assoc] at later
    rw [scanFrom_value (by rwa [head bracket]) closed,filterMap_style?_cons,filterMap_style?_cons,
      style?_itemAt_moved bracket,later]
    cases (itemAt behind value rest).style? <;> rfl
  | unseparated unspaced quoted _ ih =>
    have later := ih (further styleOpen.reverse bracket)
    rw [List.append_assoc] at later
    rw [scanFrom_unseparated (by rwa [head bracket]) (by rwa [head bracket])]
    exact later
  | within unspaced unquoted _ ih =>
    have later := ih (further styleOpen.reverse bracket)
    rw [List.append_assoc] at later
    rw [scanFrom_within (by rwa [head bracket]) (by rwa [head bracket])]
    exact later

/-- The attributes that are found behind an angle bracket, in a document behind a lead. -/
theorem styles_scanFrom_moved (bracket : ∃ c ∈ behind, isBracket c = true) (ahead lead : Text) :
    (scanFrom (behind ++ lead) ahead).filterMap Item.style? =
      ((scanFrom behind ahead).filterMap Item.style?).map (·.moved (byteSize lead)) :=
  (scans_scanFrom behind ahead).styles_moved bracket lead

end Scan

namespace TagEdit

variable {base : Nat} {edit : TagEdit}

theorem removal?_moved (text : Text) (start : Nat) (style : StyleAttr) :
    removal? text (base + start) (style.moved base) = removal? text start style := by
  simp only [removal?,StyleAttr.moved,Span.within_moved]

theorem existing?_moved (lead document : Text) (edit : TagEdit) :
    (edit.moved (byteSize lead)).existing? (lead ++ document) = edit.existing? document := by
  unfold existing? moved
  cases edit.classAttr with
  | none => rfl
  | some named => simp only [Option.map_some,ClassAttr.moved,slice?_lead]

theorem naming_moved (base : Nat) (edit : TagEdit) (text : Text) (existing : List Text) :
    (edit.moved base).naming text existing = edit.naming text existing := by
  unfold naming moved
  cases edit.classAttr with
  | none => rfl
  | some named =>
    have start : (edit.tag.moved base).start = base + edit.tag.start := rfl
    simp only [Option.map_some,ClassAttr.moved,start,Span.within_moved]

theorem render?_moved (lead document : Text) (edit : TagEdit) :
    (edit.moved (byteSize lead)).render? (lead ++ document) = edit.render? document := by
  have tag : (edit.moved (byteSize lead)).tag = edit.tag.moved (byteSize lead) := rfl
  have removals (text : Text) : (edit.moved (byteSize lead)).styles.mapM
      (removal? text (edit.tag.moved (byteSize lead)).start) = edit.styles.mapM (removal? text edit.tag.start) := by
    rw [moved,List.mapM_map]
    exact congrArg (List.mapM · edit.styles) (funext fun style => removal?_moved text _ style)
  have changes : (edit.moved (byteSize lead)).changes? (lead ++ document) = edit.changes? document := by
    simp only [changes?,removals,existing?_moved,naming_moved,tag,slice?_lead]
  rw [render?,render?,changes,tag,slice?_lead]

theorem moved_addClass (base : Nat) (edit : TagEdit) (id : ClassId) :
    (edit.addClass id).moved base = (edit.moved base).addClass id := by
  unfold addClass moved
  split <;> rfl

end TagEdit

/-- The outcomes of two runs: alike, or stopped for the same reason. -/
inductive Parallel {ε α β : Type} (R : α → β → Prop) : Except ε α → Except ε β → Prop
  | ok {a : α} {b : β} (both : R a b) : Parallel R (.ok a) (.ok b)
  | error (reason : ε) : Parallel R (.error reason) (.error reason)

theorem Parallel.cases {ε α β : Type} {R : α → β → Prop} {first : Except ε α} {second : Except ε β}
    (alike : Parallel R first second) : (∃ a b, first = .ok a ∧ second = .ok b ∧ R a b) ∨
      ∃ reason, first = .error reason ∧ second = .error reason := by
  cases alike with
  | ok both => exact .inl ⟨_,_,rfl,rfl,both⟩
  | error reason => exact .inr ⟨reason,rfl,rfl⟩

/-- A plan and one for the same document behind a lead. -/
structure Plan.Led (base : Nat) (plan led : Plan) : Prop where
  edits : led.edits = plan.edits.map (·.moved base)
  registry : led.registry = plan.registry
  counts : led.allocated = plan.allocated ∧ led.reused = plan.reused ∧ led.stripped = plan.stripped

namespace Plan

variable {base : Nat} {plan led : Plan}

theorem place?_moved (base : Nat) (edits : List TagEdit) (attr : StyleAttr) :
    place? (edits.map (·.moved base)) (attr.moved base) =
      (place? edits attr).map fun placed => (placed.1.moved base,placed.2.map (·.moved base)) := by
  cases edits with
  | nil => rfl
  | cons last older =>
    have same : (last.moved base).tag = (attr.moved base).tag ↔ last.tag = attr.tag :=
      (Span.moved_injective base).eq_iff
    have before : (attr.moved base).tag.start < (last.moved base).tag.stop ↔ attr.tag.start < last.tag.stop :=
      Nat.add_lt_add_iff_left
    rw [List.map_cons,place?,place?]
    simp only [same,before]
    split
    next => simp [TagEdit.addStyle,TagEdit.moved]
    next => split <;> rfl

theorem Led.assign (both : Led base plan led) (edit : TagEdit) (older : List TagEdit) (declaration : Declaration) :
    Parallel (Led base) (plan.assign edit older declaration)
      (led.assign (edit.moved base) (older.map (·.moved base)) declaration) := by
  obtain ⟨edits,registry,allocated,reused,stripped⟩ := both
  unfold Plan.assign
  rw [registry]
  by_cases empty : declaration.isEmpty = true
  · rw [if_pos empty,if_pos empty]
    exact .ok ⟨rfl,rfl,allocated,reused,congrArg (· + 1) stripped⟩
  · rw [if_neg empty,if_neg empty]
    cases plan.registry.allocate declaration with
    | error collision => exact .error collision
    | ok pair =>
      obtain ⟨allocation,next⟩ := pair
      have named : (edit.moved base).addClass allocation.id :: older.map (·.moved base) =
          (edit.addClass allocation.id :: older).map (·.moved base) := by
        rw [List.map_cons,TagEdit.moved_addClass]
      simp only [bind,Except.bind]
      cases allocation.fresh with
      | true => exact .ok ⟨named,rfl,congrArg (· ++ _) allocated,reused,stripped⟩
      | false => exact .ok ⟨named,rfl,allocated,congrArg (· + 1) reused,stripped⟩

theorem Led.add {lead : Text} (both : Led (byteSize lead) plan led) (document : Text) (attr : StyleAttr) :
    Parallel (Led (byteSize lead)) (plan.add document attr) (led.add (lead ++ document) (attr.moved (byteSize lead))) := by
  have value : slice? (lead ++ document) (attr.moved (byteSize lead)).value = slice? document attr.value :=
    slice?_lead _ _ _
  obtain ⟨edits,registry,counts⟩ := both
  unfold Plan.add
  rw [value,edits,place?_moved]
  cases slice? document attr.value with
  | none => exact .error Obstacle.outside
  | some value =>
    cases place? plan.edits attr with
    | none =>
      have located := isSome_locate?_lead lead document attr.attr.start
      have start : (attr.moved (byteSize lead)).attr.start = byteSize lead + attr.attr.start := rfl
      simp only [Option.map_none,start]
      cases here : Position.locate? document attr.attr.start with
      | none =>
        rw [here,Option.isSome_none,Option.isSome_eq_false_iff,Option.isNone_iff_eq_none] at located
        rw [located]
        exact .error Obstacle.outside
      | some position =>
        rw [here] at located
        obtain ⟨there,found⟩ := Option.isSome_iff_exists.mp located
        rw [found]
        exact .ok ⟨rfl,registry,counts⟩
    | some placed =>
      have both : Led (byteSize lead) plan led := ⟨edits,registry,counts⟩
      simp only [Option.map_some]
      rcases (both.assign placed.1 placed.2 (Declaration.normalize value)).cases with
        ⟨next,other,first,second,both⟩ | ⟨collision,first,second⟩
      · rw [first,second]
        exact .ok both
      · rw [first,second]
        exact .error (Obstacle.collision collision)

theorem Led.addAll {lead : Text} (both : Led (byteSize lead) plan led) (document : Text) (attrs : List StyleAttr) :
    Led (byteSize lead) (plan.addAll document attrs).1
        (led.addAll (lead ++ document) (attrs.map (·.moved (byteSize lead)))).1 ∧
      (led.addAll (lead ++ document) (attrs.map (·.moved (byteSize lead)))).2 = (plan.addAll document attrs).2 := by
  induction attrs generalizing plan led with
  | nil => exact ⟨both,rfl⟩
  | cons attr rest ih =>
    rw [List.map_cons,Plan.addAll,Plan.addAll]
    rcases (both.add document attr).cases with ⟨next,other,first,second,both⟩ | ⟨obstacle,first,second⟩
    · rw [first,second]
      exact ih both
    · rw [first,second]
      exact ⟨both,rfl⟩

end Plan

theorem assemble?_moved (lead document : Text) (edits : List TagEdit) (rest : Text) (offset written : Nat) :
    assemble? (lead ++ document) rest (byteSize lead + offset) (byteSize lead + written)
        (edits.map (·.moved (byteSize lead))) =
      (assemble? document rest offset written edits).map fun made => (made.1,made.2.map (·.moved (byteSize lead))) := by
  induction edits generalizing rest offset written with
  | nil => rfl
  | cons edit later ih =>
    have start : (edit.moved (byteSize lead)).tag.start - (byteSize lead + offset) = edit.tag.start - offset :=
      Nat.add_sub_add_left _ _ _
    have stop : (edit.moved (byteSize lead)).tag.stop - (byteSize lead + offset) = edit.tag.stop - offset :=
      Nat.add_sub_add_left _ _ _
    simp only [List.map_cons,assemble?,start,stop,TagEdit.render?_moved,Option.bind_eq_bind]
    cases Text.cut? rest (edit.tag.start - offset) with
    | none => rfl
    | some before =>
      cases Text.cut? rest (edit.tag.stop - offset) with
      | none => rfl
      | some through =>
        cases edit.render? document with
        | none => rfl
        | some replacement =>
          have tail := ih through.2 edit.tag.stop (written + byteSize before.1 + byteSize replacement)
          have last : (edit.moved (byteSize lead)).tag.stop = byteSize lead + edit.tag.stop := rfl
          simp only [Option.bind_some,last,Nat.add_assoc] at tail ⊢
          rw [tail]
          cases assemble? document through.2 edit.tag.stop _ later <;> rfl

theorem assemble?_lead (lead document : Text) (edits : List TagEdit) :
    assemble? (lead ++ document) (lead ++ document) 0 0 (edits.map (·.moved (byteSize lead))) =
      (assemble? document document 0 0 edits).map fun made => (lead ++ made.1,made.2.map (·.moved (byteSize lead))) := by
  cases edits with
  | nil => rfl
  | cons edit later =>
    have start : (edit.moved (byteSize lead)).tag.start - 0 = byteSize lead + (edit.tag.start - 0) := rfl
    have stop : (edit.moved (byteSize lead)).tag.stop - 0 = byteSize lead + (edit.tag.stop - 0) := rfl
    simp only [List.map_cons,assemble?,start,stop,cut?_lead,TagEdit.render?_moved,Option.bind_eq_bind]
    cases Text.cut? document (edit.tag.start - 0) with
    | none => rfl
    | some before =>
      cases Text.cut? document (edit.tag.stop - 0) with
      | none => rfl
      | some through =>
        cases edit.render? document with
        | none => rfl
        | some replacement =>
          have tail := assemble?_moved lead document later through.2 edit.tag.stop (byteSize before.1 + byteSize replacement)
          have last : (edit.moved (byteSize lead)).tag.stop = byteSize lead + edit.tag.stop := rfl
          simp only [Option.map_some,Option.bind_some,last,byteSize_append,Nat.zero_add,Nat.add_assoc] at tail ⊢
          rw [tail]
          cases assemble? document through.2 edit.tag.stop _ later with
          | none => rfl
          | some made => simp [AppliedEdit.moved,TagEdit.moved,Span.moved]

/-- An outcome and that of the same document behind a lead, which stays as it is. -/
structure Outcome.Led (lead : Text) (outcome led : Outcome) : Prop where
  text : led.text = lead ++ outcome.text
  edits : led.edits = outcome.edits.map (·.moved (byteSize lead))
  counts : led.allocated = outcome.allocated ∧ led.reused = outcome.reused ∧ led.stripped = outcome.stripped

/-- Hoisting that comes out alike behind a lead, with the same registry in the end. -/
structure HoistedAlike (lead : Text) (own led : Except Obstacle Outcome × Registry) : Prop where
  outcome : Parallel (Outcome.Led lead) own.1 led.1
  registry : led.2 = own.2

theorem attrsInOrder_moved {base : Nat} {items led : List Item}
    (same : led.filterMap Item.style? = (items.filterMap Item.style?).map (·.moved base)) :
    attrsInOrder led = (attrsInOrder items).map (·.moved base) := by
  rw [attrsInOrder,attrsInOrder,same,List.map_mergeSort]
  intro first _ second _
  simp only [StyleAttr.moved,Span.moved,Nat.add_le_add_iff_left]

/-- The same attributes, found in a document behind a lead, are hoisted alike. -/
theorem hoistItems_led {lead document : Text} {items led : List Item} (registry : Registry)
    (same : led.filterMap Item.style? = (items.filterMap Item.style?).map (·.moved (byteSize lead))) :
    HoistedAlike lead (hoistItems document items registry) (hoistItems (lead ++ document) led registry) := by
  have begun : Plan.Led (byteSize lead) (.start registry) (.start registry) := ⟨rfl,rfl,rfl,rfl,rfl⟩
  obtain ⟨both,stopped⟩ := begun.addAll document (attrsInOrder items)
  rw [hoistItems_eq,hoistItems_eq,attrsInOrder_moved same]
  generalize (Plan.start registry).addAll document (attrsInOrder items) = own at *
  generalize (Plan.start registry).addAll (lead ++ document) ((attrsInOrder items).map (·.moved (byteSize lead))) = moved at *
  obtain ⟨plan,obstacle⟩ := own
  obtain ⟨other,again⟩ := moved
  cases stopped
  cases obstacle with
  | some obstacle => exact ⟨.error obstacle,both.registry⟩
  | none =>
    have assembled := assemble?_lead lead document plan.edits.reverse
    rw [List.map_reverse,← both.edits] at assembled
    simp only [assembled]
    cases assemble? document document 0 0 plan.edits.reverse with
    | none => exact ⟨.error Obstacle.outside,both.registry⟩
    | some made => exact ⟨.ok ⟨rfl,rfl,both.counts⟩,both.registry⟩

end Markup

end StyleHoist
