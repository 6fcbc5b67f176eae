import StyleHoist.Proofs.Markup.Continuation
import StyleHoist.Proofs.Markup.Simultaneous

/-! Places outside a text. Whatever hoisting takes from a document is within it, and so is
every piece of an unchanged tag. Only the pieces of one tag can get into each other's way:
when one that lies within another goes first, the other may end behind the text that is left. -/
namespace StyleHoist.Markup

open Text

/-- Attributes whose value and place can be read. -/
def Readable (document : Text) (attrs : List StyleAttr) : Prop :=
  ∀ attr ∈ attrs, (∃ value, slice? document attr.value = some value) ∧
    ∃ position, Position.locate? document attr.attr.start = some position

theorem Located.position {document : Text} {attr : StyleAttr} (located : Located document attr) :
    ∃ position, Position.locate? document attr.attr.start = some position := by
  obtain ⟨behind,value,rest,rfl,-,-,found⟩ := located
  refine ⟨Position.ofBehind behind,?_⟩
  rw [(attr_of_styleAttr? found).1,List.append_assoc,List.append_assoc]
  exact locate?_append behind _

namespace Plan

variable {document : Text} {attr : StyleAttr} {attrs : List StyleAttr} {plan stuck : Plan} {obstacle : Obstacle}

theorem obstacle_of_add (readable : Readable document [attr]) (stopped : plan.add document attr = .error obstacle) :
    ∃ found, obstacle = .collision found := by
  obtain ⟨⟨value,cut⟩,position,located⟩ := readable attr (List.mem_singleton_self attr)
  unfold add at stopped
  simp only [cut,located] at stopped
  split at stopped
  next => contradiction
  next =>
    split at stopped
    next => contradiction
    next found _ => exact ⟨found,(Except.error.inj stopped).symm⟩

/-- Planning stops at nothing but a collision. -/
theorem obstacle_of_addAll (readable : Readable document attrs)
    (stopped : plan.addAll document attrs = (stuck,some obstacle)) : ∃ found, obstacle = .collision found := by
  induction attrs generalizing plan with
  | nil => simp [addAll] at stopped
  | cons attr rest ih =>
    rw [addAll] at stopped
    split at stopped
    next next _ => exact ih (fun other member => readable other (List.mem_cons_of_mem _ member)) stopped
    next hindrance failed =>
      simp only [Prod.mk.injEq,Option.some.injEq] at stopped
      rw [← stopped.2]
      refine obstacle_of_add (fun other member => readable other ?_) failed
      rw [List.mem_singleton.mp member]
      exact List.mem_cons_self

end Plan

/-- An edit whose pieces lie within the unchanged tag. It can be rendered if its class attribute is clear. -/
structure TagEdit.InBounds (edit : TagEdit) (document : Text) : Prop where
  pieces : ∃ text changes, slice? document edit.tag = some text ∧ edit.changes? document = some changes ∧
    ∀ change ∈ changes, ∃ inside, slice? text change.span = some inside
  rendered : edit.Clear document → ∃ result, edit.render? document = some result

theorem TagEdit.inBounds_of_addAll {document : Text} {items : List Item} {registry : Registry} {plan : Plan} {edit : TagEdit}
    (found : items.Subperm (scan document))
    (planned : (Plan.start registry).addAll document (attrsInOrder items) = (plan,none))
    (member : edit ∈ plan.edits) : edit.InBounds document := by
  have located := located_attrsInOrder found.subset
  have known := Reported.of_addAll located (pairwise_attrsInOrder items) planned
  obtain ⟨text,existing,removals,prepared⟩ := known.exists_prepared located (apart_attrsInOrder found) member
  refine ⟨⟨text,_,prepared.whole,prepared.changes,fun change => prepared.fits⟩,fun clear => ?_⟩
  obtain ⟨deletions,names,-,-,-,segments,-,rendered,-⟩ := rendered_at_once found planned member clear
  exact ⟨_,rendered⟩

/-- What is taken from a document while it is hoisted lies within it, and what a tag exchanges
within that tag. Nothing else ends outside a text than the rendering of a tag that is planned. -/
structure Bounded (document : Text) (registry : Registry) : Prop where
  readable : Readable document (styleAttrs document)
  planned : ∀ plan, (Plan.start registry).addAll document (styleAttrs document) = (plan,none) →
    ∀ edit ∈ plan.edits, edit.InBounds document
  outside : (hoist document registry).1 = .error .outside ↔
    ∃ plan, (Plan.start registry).addAll document (styleAttrs document) = (plan,none) ∧
      ∃ edit ∈ plan.edits, edit.render? document = none

/-- Only a tag whose class attribute overlaps a style of it can end hoisting outside a text. -/
theorem hoist_bounded (document : Text) (registry : Registry) : Bounded document registry := by
  have readable : Readable document (styleAttrs document) := fun attr member =>
    ⟨(located_of_mem_styleAttrs member).value,(located_of_mem_styleAttrs member).position⟩
  have scanned (plan : Plan) (planned : (Plan.start registry).addAll document (styleAttrs document) = (plan,none)) :
      (Plan.start registry).addAll document (attrsInOrder (scan document)) = (plan,none) := by
    rwa [attrsInOrder_scan]
  refine ⟨readable,fun plan planned edit => TagEdit.inBounds_of_addAll (.refl _) (scanned plan planned),?_⟩
  rw [hoist_eq]
  constructor
  · intro stopped
    split at stopped
    next plan obstacle failed =>
      obtain ⟨collision,rfl⟩ := Plan.obstacle_of_addAll readable failed
      simp at stopped
    next plan planned =>
      refine ⟨plan,planned,Classical.byContradiction fun complete => ?_⟩
      have rendered : ∀ edit ∈ plan.edits.reverse, ∃ result, edit.render? document = some result :=
        fun edit member => Option.ne_none_iff_exists'.mp fun none => complete ⟨edit,List.mem_reverse.mp member,none⟩
      -- tags that could all be rendered would be put in place
      have known := Reported.of_addAll (fun _ => located_of_mem_styleAttrs) (ordered_styleAttrs document) planned
      obtain ⟨⟨text,edits⟩,assembled⟩ := exists_assemble? rendered (List.pairwise_reverse.mpr known.grouped.ordered)
        (List.nil_append document).symm (fun _ _ => Nat.zero_le _) 0
      rw [byteSize_nil] at assembled
      rw [assembled] at stopped
      contradiction
  · rintro ⟨plan,planned,edit,member,failed⟩
    rw [planned]
    dsimp only
    split
    next => rfl
    next text edits assembled =>
      obtain ⟨result,rendered⟩ := rendered_of_assemble? assembled edit (List.mem_reverse.mpr member)
      rw [failed] at rendered
      contradiction

/-- A style that stands in the value of a class attribute. -/
def swallowedText : Text := "<p class='x style=\"a:1\" y' z='>".toList

def swallowedStyle : StyleAttr := ⟨⟨12,23⟩,⟨19,22⟩,⟨0,31⟩,some ⟨⟨3,26⟩,⟨10,25⟩,true⟩⟩

theorem scan_swallowed : scan swallowedText = [.style swallowedStyle] := by
  have opened : swallowedText = "<p cla".toList ++ ('s' :: 's' :: ("='x ".toList ++ (styleOpen ++ ("a:1".toList ++
      '"' :: (" y' z='>".toList ++ []))))) := rfl
  rw [scan,opened,scanFrom_ne (show ∀ c ∈ "<p cla".toList, c ≠ 's' by simp),scanFrom_cons rfl,scanFrom_cons rfl,
    scanFrom_ne (show ∀ c ∈ "='x ".toList, c ≠ 's' by simp),scanFrom_value rfl rfl,
    scanFrom_ne (show ∀ c ∈ " y' z='>".toList, c ≠ 's' by simp),scanFrom_nil]
  rfl

def swallowedEdit (id : ClassId) : TagEdit := ⟨⟨0,31⟩,[swallowedStyle],swallowedStyle.classAttr,[id]⟩

def swallowedValue : Text := "x style=\"a:1\" y".toList

theorem changes?_swallowed {id : ClassId} {lead : Text} (named : id.text = 'i' :: lead) :
    (swallowedEdit id).changes? swallowedText = some [⟨⟨11,23⟩,[]⟩,⟨⟨10,25⟩,completed swallowedValue [id]⟩] := by
  have whole : slice? swallowedText (swallowedEdit id).tag = some swallowedText := show slice? swallowedText ⟨0,31⟩ = _ by decide
  have value : slice? swallowedText ⟨10,25⟩ = some swallowedValue := by decide
  have words : swallowedValue.words = ["x".toList,"style=\"a:1\"".toList,"y".toList] := by decide
  have removal : TagEdit.removal? swallowedText 0 swallowedStyle = some ⟨⟨11,23⟩,[]⟩ := by decide
  have unknown : lacking swallowedValue [id] ≠ [] := by
    rw [lacking,words,List.map_singleton,named]
    simp
  have read : (swallowedEdit id).existing? swallowedText = some swallowedValue.words := by
    change (slice? swallowedText ⟨10,25⟩).map Text.words = _
    rw [value,Option.map_some]
  have naming : (swallowedEdit id).naming swallowedText swallowedValue.words =
      [⟨⟨10,25⟩,completed swallowedValue [id]⟩] := by
    have asked : (swallowedEdit id).add ≠ [] := List.cons_ne_nil _ _
    have classed : (swallowedEdit id).classAttr = some ⟨⟨3,26⟩,⟨10,25⟩,true⟩ := rfl
    have merged : TagEdit.merge swallowedValue.words (swallowedEdit id).add = some (completed swallowedValue [id]) := by
      rw [swallowedEdit,merge_words,if_neg unknown]
    simp only [TagEdit.naming,if_neg asked,classed,merged,if_true]
    rfl
  have removals : (swallowedEdit id).styles.mapM (TagEdit.removal? swallowedText (swallowedEdit id).tag.start) =
      some [⟨⟨11,23⟩,[]⟩] := by
    change [swallowedStyle].mapM (TagEdit.removal? swallowedText 0) = _
    rw [List.mapM_cons,removal]
    rfl
  simp only [TagEdit.changes?,whole,removals,read,naming,Option.bind_eq_bind,Option.bind_some,List.cons_append,
    List.nil_append]

/-- The style goes first, and leaves less than the class value had. -/
theorem render?_swallowed {id : ClassId} {lead : Text} (named : id.text = 'i' :: lead) :
    (swallowedEdit id).render? swallowedText = none := by
  have whole : slice? swallowedText (swallowedEdit id).tag = some swallowedText := show slice? swallowedText ⟨0,31⟩ = _ by decide
  have sorted (value : Text) : [(⟨⟨11,23⟩,[]⟩ : Change),⟨⟨10,25⟩,value⟩].mergeSort Change.precedes =
      [⟨⟨11,23⟩,[]⟩,⟨⟨10,25⟩,value⟩] := List.mergeSort_of_pairwise (by simp [Change.precedes])
  rw [TagEdit.render?,whole,changes?_swallowed named]
  simp only [Option.bind_eq_bind,Option.bind_some,sorted]
  rfl

theorem hoist_swallowed {registry next : Registry} {allocation : Allocation} {lead : Text}
    (allocated : registry.allocate (swallowedStyle.declaration swallowedText) = .ok (allocation,next))
    (named : allocation.id.text = 'i' :: lead) : (hoist swallowedText registry).1 = .error .outside := by
  have listed : styleAttrs swallowedText = [swallowedStyle] := by
    rw [styleAttrs,scan_swallowed]
    rfl
  have filled : (swallowedStyle.declaration swallowedText).isEmpty = false := by decide
  have allocations : Piece.allocateAll registry (declared swallowedText [swallowedStyle]) = .ok ([allocation.id],next) := by
    rw [declared_singleton,filled,if_neg Bool.false_ne_true]
    exact Piece.allocateAll_cons_ok.mpr ⟨allocation,next,[],allocated,rfl,rfl⟩
  have cut : ∀ style ∈ [swallowedStyle], ∃ value, slice? swallowedText style.value = some value := by
    intro style member
    rw [List.mem_singleton.mp member]
    exact ⟨"a:1".toList,by decide⟩
  have unopened : ∀ last ∈ (Plan.start registry).edits.head?,
      last.tag ≠ swallowedStyle.tag ∧ last.tag.stop ≤ swallowedStyle.tag.start := by simp [Plan.start]
  have joined : ∀ style ∈ ([] : List StyleAttr), style.tag = swallowedStyle.tag := fun _ member => absurd member List.not_mem_nil
  obtain ⟨plan,continues,edits,-⟩ := Plan.continues_opened cut joined unopened allocations
  have planned : (Plan.start registry).addAll swallowedText [swallowedStyle] = (plan,none) := continues []
  have member : swallowedEdit allocation.id ∈ plan.edits := by
    rw [edits]
    exact List.mem_cons_self
  exact (hoist_bounded swallowedText registry).outside.mpr
    ⟨plan,listed ▸ planned,_,member,render?_swallowed named⟩

/-- Hoisting does not end for every document. -/
theorem hoist_swallowed_empty : (hoist swallowedText (Registry.empty "inl-".toList)).1 = .error .outside :=
  hoist_swallowed rfl rfl

end StyleHoist.Markup
