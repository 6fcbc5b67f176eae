import Mathlib.Data.List.Perm.Basic
import StyleHoist.Proofs.Markup.Grouping
import StyleHoist.Proofs.Markup.Hoisting
import StyleHoist.Proofs.Markup.Passing

/-! The items of a scan in another order. No two attributes begin at one place, so
sorting brings them back into the order of the document, and all that depends on the
order of the items is the order of the warnings. -/
namespace StyleHoist.Markup

/-- The same obstacle, or outcomes that differ in the order of their warnings at most. -/
inductive Alike : Except Obstacle Outcome → Except Obstacle Outcome → Prop
  | stopped (obstacle : Obstacle) : Alike (.error obstacle) (.error obstacle)
  | done {first second : Outcome} (text : first.text = second.text) (edits : first.edits = second.edits)
      (allocated : first.allocated = second.allocated) (reused : first.reused = second.reused)
      (stripped : first.stripped = second.stripped) (warnings : first.warnings.Perm second.warnings) :
      Alike (.ok first) (.ok second)

theorem eq_of_start_eq {document : Text} {first second : StyleAttr} (one : first ∈ styleAttrs document)
    (two : second ∈ styleAttrs document) (same : first.attr.start = second.attr.start) : first = second := by
  have left := (located_of_mem_styleAttrs one).inside
  have right := (located_of_mem_styleAttrs two).inside
  rcases eq_or_of_pairwise (pairwise_styleAttrs document) one two with equal | before | after
  · exact equal
  · omega
  · omega

theorem attrsInOrder_of_perm {document : Text} {items : List Item} (shuffled : items.Perm (scan document)) :
    attrsInOrder items = styleAttrs document := by
  have same : (attrsInOrder items).Perm (styleAttrs document) :=
    (List.mergeSort_perm _ _).trans (shuffled.filterMap Item.style?)
  refine same.eq_of_pairwise (fun first second one two before after => ?_) (pairwise_attrsInOrder items)
    (ordered_styleAttrs document)
  exact eq_of_start_eq (same.mem_iff.mp one) two (Nat.le_antisymm before after)

/-- Hoisting the items of a scan in any order ends as hoisting the document does. -/
theorem hoistItems_of_perm {document : Text} {items : List Item} (shuffled : items.Perm (scan document))
    (registry : Registry) :
    Alike (hoistItems document items registry).1 (hoist document registry).1 ∧
      (hoistItems document items registry).2 = (hoist document registry).2 := by
  rw [hoistItems_eq,hoist_eq,attrsInOrder_of_perm shuffled]
  split
  next plan obstacle _ => exact ⟨.stopped obstacle,rfl⟩
  next plan _ =>
    split
    next => exact ⟨.stopped .outside,rfl⟩
    next text edits _ =>
      have warned := (shuffled.filterMap Item.warning?).append_right plan.overlaps
      exact ⟨.done rfl rfl rfl rfl rfl warned,rfl⟩

/-- Three items from back to front. The second tag overlaps the first and is left alone, not the first. -/
theorem hoistItems_of_perm_nested : nestedItems.reverse.Perm (scan nestedText) ∧
    Alike (hoistItems nestedText nestedItems.reverse (Registry.empty "inl-".toList)).1 (.ok nestedOutcome) ∧
    (hoistItems nestedText nestedItems.reverse (Registry.empty "inl-".toList)).2 = Registry.empty "inl-".toList := by
  have shuffled : nestedItems.reverse.Perm (scan nestedText) := by
    rw [scan_nested]
    exact List.reverse_perm nestedItems
  have whole : hoist nestedText (Registry.empty "inl-".toList) = (.ok nestedOutcome,Registry.empty "inl-".toList) := by
    rw [hoist,scan_nested]
    exact hoistItems_nested
  have same := hoistItems_of_perm shuffled (Registry.empty "inl-".toList)
  rw [whole] at same
  exact ⟨shuffled,same⟩

end StyleHoist.Markup
