import Mathlib.Data.List.Pairwise
import StyleHoist.Markup.TagEdit

/-! Pieces of a text exchanged back to front. Where the pieces do not overlap and
no two insertions are made at one place, the result is that of exchanging all
of them at once, in whatever order they are given. -/
namespace StyleHoist.Markup

open Text

/-- A part of a text, and what takes its place if anything does. -/
structure Segment where
  text : Text
  replacement : Option Text

namespace Segment

def shown (segment : Segment) : Text := segment.replacement.getD segment.text

def textOf (segments : List Segment) : Text := segments.flatMap (·.text)

def shownOf (segments : List Segment) : Text := segments.flatMap shown

/-- The changes of segments that begin at an offset, from left to right. -/
def changesFrom (offset : Nat) : List Segment → List Change
  | [] => []
  | segment :: rest =>
    let later := changesFrom (offset + byteSize segment.text) rest
    match segment.replacement with
    | none => later
    | some text => ⟨⟨offset,offset + byteSize segment.text⟩,text⟩ :: later

theorem changesFrom_append (offset : Nat) (front back : List Segment) :
    changesFrom offset (front ++ back) =
      changesFrom offset front ++ changesFrom (offset + byteSize (textOf front)) back := by
  induction front generalizing offset with
  | nil => rfl
  | cons segment rest ih =>
    have size : offset + byteSize segment.text + byteSize (textOf rest) =
        offset + byteSize (textOf (segment :: rest)) := by
      rw [textOf,textOf,List.flatMap_cons,byteSize_append,Nat.add_assoc]
    rw [List.cons_append,changesFrom,changesFrom,ih,size]
    cases segment.replacement <;> rfl

theorem bounds_of_mem_changesFrom {offset : Nat} {segments : List Segment} {change : Change}
    (member : change ∈ changesFrom offset segments) :
    offset ≤ change.span.start ∧ change.span.start ≤ change.span.stop := by
  induction segments generalizing offset with
  | nil => contradiction
  | cons segment rest ih =>
    have later (inside : change ∈ changesFrom (offset + byteSize segment.text) rest) :
        offset ≤ change.span.start ∧ change.span.start ≤ change.span.stop := by
      have := ih inside
      omega
    rw [changesFrom] at member
    split at member
    next => exact later member
    next =>
      rcases List.mem_cons.mp member with rfl | inside
      · exact ⟨Nat.le_refl _,Nat.le_add_right _ _⟩
      · exact later inside

theorem pairwise_changesFrom (offset : Nat) (segments : List Segment) :
    (changesFrom offset segments).Pairwise fun first second => first.span.stop ≤ second.span.start := by
  induction segments generalizing offset with
  | nil => exact List.Pairwise.nil
  | cons segment rest ih =>
    rw [changesFrom]
    split
    next => exact ih _
    next => exact List.pairwise_cons.mpr ⟨fun later member => (bounds_of_mem_changesFrom member).1,ih _⟩

/-- Exchanging the parts from the last to the first exchanges them all. -/
theorem foldlM_splice? (lead : Text) (segments : List Segment) :
    (changesFrom (byteSize lead) segments).reverse.foldlM
        (fun text change => Text.splice? text change.span change.replacement) (lead ++ textOf segments) =
      some (lead ++ shownOf segments) := by
  induction segments generalizing lead with
  | nil => rfl
  | cons segment rest ih =>
    have later := ih (lead ++ segment.text)
    have whole : lead ++ textOf (segment :: rest) = lead ++ segment.text ++ textOf rest := by
      rw [textOf,List.flatMap_cons,← List.append_assoc,textOf]
    rw [byteSize_append] at later
    rw [whole,changesFrom]
    cases exchanged : segment.replacement with
    | none =>
      simp only [later]
      simp [shownOf,shown,exchanged]
    | some text =>
      have spliced : Text.splice? (lead ++ segment.text ++ shownOf rest)
          ⟨byteSize lead,byteSize lead + byteSize segment.text⟩ text = some (lead ++ text ++ shownOf rest) :=
        splice?_eq_some.mpr ⟨lead,segment.text,shownOf rest,rfl,rfl,rfl,rfl⟩
      simp only [List.reverse_cons,List.foldlM_append,later]
      simp only [Option.bind_eq_bind,Option.bind_some,List.foldlM_cons,List.foldlM_nil,spliced]
      simp [shownOf,shown,exchanged]

end Segment

namespace Change

theorem precedes_iff {first second : Change} : first.precedes second = true ↔
    second.span.start < first.span.start ∨
      (first.span.start = second.span.start ∧ second.span.stop ≤ first.span.stop) := by
  simp [precedes]

theorem pairwise_mergeSort (changes : List Change) :
    (changes.mergeSort precedes).Pairwise fun first second => first.precedes second = true := by
  apply List.pairwise_mergeSort
  · intro a b c
    simp only [precedes_iff]
    omega
  · intro a b
    rw [Bool.or_eq_true,precedes_iff,precedes_iff]
    omega

/-- At most one of some changes is an insertion. -/
def FewInsertions (changes : List Change) : Prop :=
  changes.countP (fun change => change.span.start = change.span.stop) ≤ 1

theorem span_ne {changes : List Change} (few : FewInsertions changes)
    (ordered : changes.Pairwise fun first second => first.span.stop ≤ second.span.start)
    (inside : ∀ change ∈ changes, change.span.start ≤ change.span.stop) :
    changes.Pairwise fun first second => first.span ≠ second.span := by
  induction changes with
  | nil => exact List.Pairwise.nil
  | cons first rest ih =>
    have ordered := List.pairwise_cons.mp ordered
    unfold FewInsertions at few
    rw [List.countP_cons] at few
    refine List.pairwise_cons.mpr ⟨fun second member same => ?_,
      ih (show rest.countP _ ≤ 1 by omega) ordered.2 fun change among =>
        inside change (List.mem_cons_of_mem _ among)⟩
    have before := ordered.1 second member
    have wide := inside first List.mem_cons_self
    rw [← same] at before
    have empty : first.span.start = first.span.stop := by omega
    have another : 0 < rest.countP (fun change => change.span.start = change.span.stop) :=
      List.countP_pos_iff.mpr ⟨second,member,by rw [← same]; exact decide_eq_true empty⟩
    rw [if_pos (decide_eq_true empty)] at few
    omega

theorem mergeSort_eq {changes : List Change} {offset : Nat} {segments : List Segment}
    (few : FewInsertions changes) (same : changes.Perm (Segment.changesFrom offset segments)) :
    changes.mergeSort precedes = (Segment.changesFrom offset segments).reverse := by
  have ordered := Segment.pairwise_changesFrom offset segments
  have inside : ∀ change ∈ Segment.changesFrom offset segments, change.span.start ≤ change.span.stop :=
    fun change member => (Segment.bounds_of_mem_changesFrom member).2
  have fewer : FewInsertions (Segment.changesFrom offset segments) := by
    rwa [FewInsertions,← same.countP_eq]
  have unique : ∀ first ∈ Segment.changesFrom offset segments,
      ∀ second ∈ Segment.changesFrom offset segments, first.span = second.span → first = second := by
    have apart := span_ne fewer ordered inside
    have either : (Segment.changesFrom offset segments).Pairwise
        fun first second => first.span = second.span → first = second :=
      apart.imp fun different equal => absurd equal different
    have : Std.Symm fun first second : Change => first.span = second.span → first = second :=
      ⟨fun _ _ meet equal => (meet equal.symm).symm⟩
    intro first one second two
    exact either.forall_of_forall (fun _ _ _ => rfl) one two
  apply List.Perm.eq_of_pairwise ?_ (pairwise_mergeSort changes) ?_
  · exact (List.mergeSort_perm _ _).trans (same.trans (List.reverse_perm _).symm)
  · intro first second one two before after
    rw [List.mem_mergeSort,same.mem_iff] at one
    rw [List.mem_reverse] at two
    refine unique first one second two ?_
    rw [precedes_iff] at before after
    rcases first with ⟨⟨_,_⟩,_⟩
    rcases second with ⟨⟨_,_⟩,_⟩
    simp only [Span.mk.injEq] at before after ⊢
    omega
  · rw [List.pairwise_reverse]
    refine ordered.imp_of_mem fun one two before => ?_
    have wide := inside _ one
    have later := inside _ two
    rw [precedes_iff]
    omega

end Change

/-- Changes of the segments of a text, in any order, give the text with all parts exchanged. -/
theorem foldlM_splice?_mergeSort {changes : List Change} {segments : List Segment}
    (few : Change.FewInsertions changes) (same : changes.Perm (Segment.changesFrom 0 segments)) :
    (changes.mergeSort Change.precedes).foldlM
        (fun text change => Text.splice? text change.span change.replacement) (Segment.textOf segments) =
      some (Segment.shownOf segments) := by
  rw [Change.mergeSort_eq few same]
  exact Segment.foldlM_splice? [] segments

end StyleHoist.Markup
