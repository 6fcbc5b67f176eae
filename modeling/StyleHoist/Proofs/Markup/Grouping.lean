import StyleHoist.Markup.Hoist
import StyleHoist.Proofs.Markup.Located
import StyleHoist.Proofs.Registry.Allocation

/-! How attributes are grouped by tag. The edits of a plan stand apart, each has
all attributes of its tag, and an attribute without an edit overlaps one. -/
namespace StyleHoist.Markup

def StyleAttr.declaration (attr : StyleAttr) (document : Text) : Declaration :=
  Declaration.normalize ((Text.slice? document attr.value).getD [])

/-- What attributes declare, without those that declare nothing. -/
def declared (document : Text) (attrs : List StyleAttr) : List Declaration :=
  (attrs.map (·.declaration document)).filter (!·.isEmpty)

theorem declared_append (document : Text) (front back : List StyleAttr) :
    declared document (front ++ back) = declared document front ++ declared document back := by
  rw [declared,List.map_append,List.filter_append]
  rfl

namespace Plan

variable {document : Text} {plan next : Plan} {attr : StyleAttr}

theorem place?_cases {edits older : List TagEdit} {edit : TagEdit}
    (placed : place? edits attr = some (edit,older)) :
    (∃ last, edits = last :: older ∧ last.tag = attr.tag ∧ edit = last.addStyle attr) ∨
      (older = edits ∧ edit = TagEdit.ofStyle attr ∧
        ∀ last ∈ edits.head?, last.tag.stop ≤ attr.tag.start) := by
  unfold place? at placed
  split at placed
  next =>
    cases placed
    exact Or.inr ⟨rfl,rfl,by simp⟩
  next last rest =>
    split at placed
    next same =>
      cases placed
      exact Or.inl ⟨last,rfl,same,rfl⟩
    next =>
      split at placed
      next => contradiction
      next behind =>
        cases placed
        refine Or.inr ⟨rfl,rfl,fun other head => ?_⟩
        cases head
        omega

theorem place?_eq_none {edits : List TagEdit} (unplaced : place? edits attr = none) :
    ∃ last ∈ edits.head?, last.tag ≠ attr.tag ∧ attr.tag.start < last.tag.stop := by
  unfold place? at unplaced
  split at unplaced
  next => contradiction
  next last rest =>
    split at unplaced
    next => contradiction
    next different =>
      split at unplaced
      next overlaps => exact ⟨last,rfl,different,overlaps⟩
      next => contradiction

theorem assign_cases {edit : TagEdit} {older : List TagEdit} {declaration : Declaration}
    (assigned : plan.assign edit older declaration = .ok next) :
    (declaration.isEmpty = true ∧
        next = { plan with edits := edit :: older, stripped := plan.stripped + 1 }) ∨
      (declaration.isEmpty = false ∧ ∃ allocation registry,
        plan.registry.allocate declaration = .ok (allocation,registry) ∧
        next = { plan with
          edits := edit.addClass allocation.id :: older
          registry := registry
          allocated := plan.allocated ++
            if allocation.fresh then [⟨declaration,allocation.id⟩] else []
          reused := if allocation.fresh then plan.reused else plan.reused + 1 }) := by
  unfold assign at assigned
  split at assigned
  next empty =>
    cases assigned
    exact Or.inl ⟨empty,rfl⟩
  next filled =>
    refine Or.inr ⟨by simpa using filled,?_⟩
    obtain ⟨⟨allocation,registry⟩,allocated,placed⟩ := bind_eq_ok_iff.mp assigned
    refine ⟨allocation,registry,allocated,?_⟩
    dsimp only at placed
    split at placed
    next fresh => simpa [fresh] using (Except.ok.inj placed).symm
    next old => simpa [old] using (Except.ok.inj placed).symm

theorem add_cases (added : plan.add document attr = .ok next) :
    (place? plan.edits attr = none ∧ ∃ position,
        Position.locate? document attr.attr.start = some position ∧
        next = { plan with overlaps := plan.overlaps ++ [⟨.unbounded,position⟩] }) ∨
      ∃ edit older, place? plan.edits attr = some (edit,older) ∧
        plan.assign edit older (attr.declaration document) = .ok next := by
  unfold add at added
  cases cut : Text.slice? document attr.value with
  | none => simp [cut] at added
  | some value =>
    have content : attr.declaration document = Declaration.normalize value := by
      rw [StyleAttr.declaration,cut,Option.getD_some]
    simp only [cut] at added
    split at added
    next unplaced =>
      cases located : Position.locate? document attr.attr.start with
      | none => simp [located] at added
      | some position =>
        simp only [located,Except.ok.injEq] at added
        exact Or.inl ⟨unplaced,position,rfl,added.symm⟩
    next edit older placed =>
      refine Or.inr ⟨edit,older,placed,?_⟩
      rw [content]
      split at added
      next assigned => rw [assigned,Except.ok.inj added]
      next => contradiction

theorem addAll_cons_ok {attrs : List StyleAttr} {last : Plan}
    (added : plan.addAll document (attr :: attrs) = (last,none)) :
    ∃ next, plan.add document attr = .ok next ∧ next.addAll document attrs = (last,none) := by
  rw [addAll] at added
  cases step : plan.add document attr with
  | error obstacle => simp [step] at added
  | ok next => exact ⟨next,rfl,by simpa only [step] using added⟩

end Plan

theorem declared_singleton (document : Text) (attr : StyleAttr) : declared document [attr] =
    if (attr.declaration document).isEmpty then [] else [attr.declaration document] := by
  simp only [declared,List.map_singleton,List.filter_singleton]
  cases (attr.declaration document).isEmpty <;> rfl

theorem eq_or_of_pairwise {α : Type} {R : α → α → Prop} {list : List α} {a b : α} (ordered : list.Pairwise R)
    (first : a ∈ list) (second : b ∈ list) : a = b ∨ R a b ∨ R b a := by
  induction ordered with
  | nil => contradiction
  | cons before _ ih =>
    rcases List.mem_cons.mp first with rfl | one <;> rcases List.mem_cons.mp second with rfl | two
    · exact .inl rfl
    · exact .inr (.inl (before _ two))
    · exact .inr (.inr (before _ one))
    · exact ih one two

/-- The edits made for the attributes read so far, the latest one first. -/
structure Grouped (read : List StyleAttr) (edits : List TagEdit) : Prop where
  ordered : edits.Pairwise fun later earlier => earlier.tag.stop ≤ later.tag.start
  filled : ∀ edit ∈ edits, edit.styles ≠ [] ∧ edit.styles = read.filter (·.tag = edit.tag)
  covered : ∀ attr ∈ read, ∃ edit ∈ edits,
    attr.tag.start < edit.tag.stop ∧ edit.tag.start < attr.tag.stop

def applied (tags : List Span) (attrs : List StyleAttr) : List StyleAttr :=
  attrs.filter (·.tag ∈ tags)

/-- An attribute within its tag, behind attributes that lie within theirs. It may be one of them. -/
structure Follows (read : List StyleAttr) (attr : StyleAttr) : Prop where
  inside : ∀ other ∈ attr :: read, other.tag.start < other.attr.start ∧
    other.attr.start < other.attr.stop ∧ other.attr.stop < other.tag.stop
  behind : ∀ other ∈ read, other.attr.start ≤ attr.attr.start

def tagsOf (edits : List TagEdit) : List Span := edits.map (·.tag)

/-- An edit has the class attribute that was found with one of its styles. -/
def TagEdit.Headed (edit : TagEdit) : Prop := ∃ style ∈ edit.styles, edit.classAttr = style.classAttr

theorem Plan.headed_place {edits older : List TagEdit} {edit : TagEdit} {attr : StyleAttr}
    (headed : ∀ edit ∈ edits, edit.Headed) (placed : place? edits attr = some (edit,older)) :
    ∀ other ∈ edit :: older, other.Headed := by
  intro other member
  rcases place?_cases placed with ⟨last,opened,-,rfl⟩ | ⟨rfl,rfl,-⟩
  · rcases List.mem_cons.mp member with rfl | earlier
    · obtain ⟨style,among,same⟩ := headed last (opened ▸ List.mem_cons_self)
      exact ⟨style,List.mem_append_left _ among,same⟩
    · exact headed other (opened ▸ List.mem_cons_of_mem _ earlier)
  · rcases List.mem_cons.mp member with rfl | earlier
    · exact ⟨attr,List.mem_cons_self,rfl⟩
    · exact headed other earlier

theorem applied_concat_of_not_mem {tags : List Span} {attr : StyleAttr} (other : attr.tag ∉ tags)
    (attrs : List StyleAttr) : applied tags (attrs ++ [attr]) = applied tags attrs := by
  rw [applied,List.filter_append,List.filter_singleton,decide_eq_false other]
  exact List.append_nil _

private theorem Plan.holds_of_addAll_behind {document : Text} {holds : List StyleAttr → Plan → Prop} {plan last : Plan}
    (step : ∀ {read attr plan next}, Follows read attr → plan.add document attr = .ok next →
      holds read plan → holds (read ++ [attr]) next)
    {read attrs : List StyleAttr} (start : holds read plan)
    (inside : ∀ attr ∈ read ++ attrs, attr.tag.start < attr.attr.start ∧
      attr.attr.start < attr.attr.stop ∧ attr.attr.stop < attr.tag.stop)
    (ordered : (read ++ attrs).Pairwise fun before after => before.attr.start ≤ after.attr.start)
    (added : plan.addAll document attrs = (last,none)) : holds (read ++ attrs) last := by
  induction attrs generalizing read plan with
  | nil =>
    cases added
    rwa [List.append_nil]
  | cons attr rest ih =>
    obtain ⟨next,first,later⟩ := addAll_cons_ok added
    have follows : Follows read attr := by
      refine ⟨fun other member => inside other ?_,fun other member => ?_⟩
      · rcases List.mem_cons.mp member with rfl | old
        · simp
        · exact List.mem_append_left _ old
      · exact (List.pairwise_append.mp ordered).2.2 other member attr List.mem_cons_self
    simpa using ih (step follows first start) (by simpa using inside) (by simpa using ordered) later

/-- What planning keeps with each attribute that it takes, it keeps to the end. The attributes are
located in the document and taken in order; one may be taken more than once. -/
theorem Plan.holds_of_ordered {document : Text} {holds : List StyleAttr → Plan → Prop} {plan last : Plan}
    (step : ∀ {read attr plan next}, Follows read attr → plan.add document attr = .ok next →
      holds read plan → holds (read ++ [attr]) next)
    {attrs : List StyleAttr} (start : holds [] plan) (located : ∀ attr ∈ attrs, Located document attr)
    (ordered : attrs.Pairwise fun before after => before.attr.start ≤ after.attr.start)
    (added : plan.addAll document attrs = (last,none)) : holds attrs last :=
  holds_of_addAll_behind step start (fun attr member => (located attr member).inside) ordered added

theorem Plan.holds_of_addAll {document : Text} {holds : List StyleAttr → Plan → Prop} {plan last : Plan}
    (step : ∀ {read attr plan next}, Follows read attr → plan.add document attr = .ok next →
      holds read plan → holds (read ++ [attr]) next)
    (start : holds [] plan) (added : plan.addAll document (styleAttrs document) = (last,none)) :
    holds (styleAttrs document) last :=
  holds_of_ordered step start (fun _ => located_of_mem_styleAttrs) (ordered_styleAttrs document) added

namespace Grouped

variable {read : List StyleAttr} {edits older : List TagEdit} {edit last : TagEdit} {attr : StyleAttr}

theorem none : Grouped [] [] :=
  ⟨List.Pairwise.nil,fun _ member => absurd member List.not_mem_nil,
    fun _ member => absurd member List.not_mem_nil⟩

theorem start_lt (grouped : Grouped read edits) (follows : Follows read attr)
    (member : edit ∈ edits) : edit.tag.start < attr.attr.start ∧ edit.tag.start < edit.tag.stop := by
  obtain ⟨some,styles⟩ := grouped.filled edit member
  obtain ⟨style,among⟩ := List.exists_mem_of_ne_nil _ some
  rw [styles,List.mem_filter,decide_eq_true_eq] at among
  have within := follows.inside style (List.mem_cons_of_mem _ among.1)
  have before := follows.behind style among.1
  rw [among.2] at within
  omega

theorem filter_concat (grouped : Grouped read edits) (member : edit ∈ edits)
    (other : edit.tag ≠ attr.tag) : edit.styles = (read ++ [attr]).filter (·.tag = edit.tag) := by
  rw [List.filter_append,List.filter_singleton,decide_eq_false (Ne.symm other),
    (grouped.filled edit member).2]
  exact (List.append_nil _).symm

theorem skip (grouped : Grouped read edits) (follows : Follows read attr)
    (unplaced : Plan.place? edits attr = .none) :
    Grouped (read ++ [attr]) edits ∧ attr.tag ∉ tagsOf edits := by
  obtain ⟨last,head,different,overlaps⟩ := Plan.place?_eq_none unplaced
  obtain ⟨older,rfl⟩ := List.head?_eq_some_iff.mp head
  have ordered := List.pairwise_cons.mp grouped.ordered
  have inside := follows.inside attr List.mem_cons_self
  have begun := (grouped.start_lt follows List.mem_cons_self).1
  have others : ∀ edit ∈ last :: older, edit.tag ≠ attr.tag := by
    intro edit member same
    rcases List.mem_cons.mp member with rfl | earlier
    · exact different same
    · have ended := ordered.1 edit earlier
      rw [same] at ended
      omega
  refine ⟨⟨grouped.ordered,fun edit member => ?_,fun other member => ?_⟩,?_⟩
  · exact ⟨(grouped.filled edit member).1,grouped.filter_concat member (others edit member)⟩
  · rcases List.mem_append.mp member with old | new
    · exact grouped.covered other old
    · rw [List.mem_singleton.mp new]
      exact ⟨last,List.mem_cons_self,overlaps,by omega⟩
  · intro taken
    obtain ⟨edit,member,same⟩ := List.mem_map.mp taken
    exact others edit member same

/-- One more attribute of the tag that was edited last. -/
theorem join (grouped : Grouped read (last :: older)) (follows : Follows read attr) (same : last.tag = attr.tag) :
    Grouped (read ++ [attr]) (last.addStyle attr :: older) ∧
      applied (tagsOf (last.addStyle attr :: older)) (read ++ [attr]) =
        applied (tagsOf (last :: older)) read ++ [attr] := by
  have inside := follows.inside attr List.mem_cons_self
  have ordered := List.pairwise_cons.mp grouped.ordered
  refine ⟨⟨List.pairwise_cons.mpr ordered,fun edit member => ?_,fun other member => ?_⟩,?_⟩
  · rcases List.mem_cons.mp member with rfl | earlier
    · refine ⟨by simp [TagEdit.addStyle],?_⟩
      have styles := (grouped.filled last List.mem_cons_self).2
      rw [TagEdit.addStyle,List.filter_append,List.filter_singleton,decide_eq_true same.symm,← styles]
      rfl
    · have other : edit.tag ≠ attr.tag := by
        intro equal
        have ended := ordered.1 edit earlier
        rw [equal,same] at ended
        omega
      have member := List.mem_cons_of_mem last earlier
      exact ⟨(grouped.filled edit member).1,grouped.filter_concat member other⟩
  · rcases List.mem_append.mp member with old | new
    · obtain ⟨edit,among,overlaps⟩ := grouped.covered other old
      rcases List.mem_cons.mp among with rfl | earlier
      · exact ⟨edit.addStyle attr,List.mem_cons_self,overlaps⟩
      · exact ⟨edit,List.mem_cons_of_mem _ earlier,overlaps⟩
    · rw [List.mem_singleton.mp new]
      refine ⟨last.addStyle attr,List.mem_cons_self,?_⟩
      rw [TagEdit.addStyle,same]
      omega
  · rw [applied,List.filter_append,List.filter_singleton,
      decide_eq_true (by simp [tagsOf,TagEdit.addStyle,same])]
    rfl

theorem ended (grouped : Grouped read edits) (follows : Follows read attr)
    (behind : ∀ last ∈ edits.head?, last.tag.stop ≤ attr.tag.start) :
    ∀ edit ∈ edits, edit.tag.stop ≤ attr.tag.start := by
  intro edit member
  cases edits with
  | nil => contradiction
  | cons last earlier =>
    have start := behind last rfl
    rcases List.mem_cons.mp member with rfl | before
    · exact start
    · have apart := (List.pairwise_cons.mp grouped.ordered).1 edit before
      have wide := (grouped.start_lt follows List.mem_cons_self).2
      omega

/-- The first attribute of a tag behind those edited so far. -/
theorem start (grouped : Grouped read edits) (follows : Follows read attr)
    (ended : ∀ edit ∈ edits, edit.tag.stop ≤ attr.tag.start) :
    Grouped (read ++ [attr]) (TagEdit.ofStyle attr :: edits) ∧
      applied (tagsOf (TagEdit.ofStyle attr :: edits)) (read ++ [attr]) = applied (tagsOf edits) read ++ [attr] := by
  have inside := follows.inside attr List.mem_cons_self
  have fresh : ∀ other ∈ read, other.tag ≠ attr.tag := by
    intro other member same
    obtain ⟨edit,among,overlaps⟩ := grouped.covered other member
    have := ended edit among
    rw [same] at overlaps
    omega
  have unread : read.filter (·.tag = attr.tag) = [] := by simpa using fresh
  refine ⟨⟨List.pairwise_cons.mpr ⟨ended,grouped.ordered⟩,fun edit member => ?_,fun other member => ?_⟩,?_⟩
  · rcases List.mem_cons.mp member with rfl | earlier
    · refine ⟨List.cons_ne_nil _ _,?_⟩
      rw [List.filter_append,TagEdit.ofStyle,unread,List.filter_singleton,decide_eq_true rfl]
      rfl
    · have other : edit.tag ≠ attr.tag := by
        intro equal
        have before := ended edit earlier
        rw [equal] at before
        omega
      exact ⟨(grouped.filled edit earlier).1,grouped.filter_concat earlier other⟩
  · rcases List.mem_append.mp member with old | new
    · obtain ⟨edit,among,overlaps⟩ := grouped.covered other old
      exact ⟨edit,List.mem_cons_of_mem _ among,overlaps⟩
    · rw [List.mem_singleton.mp new]
      exact ⟨TagEdit.ofStyle attr,List.mem_cons_self,by rw [TagEdit.ofStyle]; dsimp only; omega⟩
  · rw [applied,List.filter_append,List.filter_singleton,
      decide_eq_true (by simp [tagsOf,TagEdit.ofStyle])]
    -- the new tag is that of none of the attributes read before
    have old : read.filter (fun other => decide (other.tag ∈ tagsOf (TagEdit.ofStyle attr :: edits))) =
        applied (tagsOf edits) read := by
      apply List.filter_congr
      intro other member
      simp [tagsOf,TagEdit.ofStyle,fresh other member]
    rw [old]
    rfl

theorem place (grouped : Grouped read edits) (follows : Follows read attr)
    (placed : Plan.place? edits attr = some (edit,older)) :
    Grouped (read ++ [attr]) (edit :: older) ∧
      applied (tagsOf (edit :: older)) (read ++ [attr]) = applied (tagsOf edits) read ++ [attr] := by
  rcases Plan.place?_cases placed with ⟨last,rfl,same,rfl⟩ | ⟨rfl,rfl,behind⟩
  · exact grouped.join follows same
  · exact grouped.start follows (grouped.ended follows behind)

theorem rename {other : TagEdit} (grouped : Grouped read (edit :: older)) (tag : other.tag = edit.tag)
    (styles : other.styles = edit.styles) : Grouped read (other :: older) := by
  obtain ⟨ordered,filled,covered⟩ := grouped
  refine ⟨?_,fun one member => ?_,fun attr member => ?_⟩
  · rw [List.pairwise_cons] at ordered ⊢
    rwa [tag]
  · rcases List.mem_cons.mp member with rfl | earlier
    · rw [styles,tag]
      exact filled edit List.mem_cons_self
    · exact filled one (List.mem_cons_of_mem _ earlier)
  · obtain ⟨one,among,overlaps⟩ := covered attr member
    rcases List.mem_cons.mp among with rfl | earlier
    · exact ⟨other,List.mem_cons_self,by rwa [tag]⟩
    · exact ⟨one,List.mem_cons_of_mem _ earlier,overlaps⟩

end Grouped

end StyleHoist.Markup
