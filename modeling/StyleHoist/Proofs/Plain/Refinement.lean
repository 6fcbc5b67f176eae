import StyleHoist.Proofs.Markup.Hoisting
import StyleHoist.Proofs.Plain.Rendering

/-! Hoisting a printed plain document prints the restyled document: the scan, the
grouping by tag and the exchange of text pieces together do what is said on
tags and attributes, for every registry. -/
namespace StyleHoist.Markup

open Text

namespace Piece

/-- The assembly of edits that say how pieces become others. Some text may stand between the
last edit and the pieces. -/
theorem assemble?_of_edited {pieces others : List Piece} {start : Nat} {edits : List TagEdit}
    (edited : Edited start pieces others edits) (plain : ∀ piece ∈ pieces, piece.isPlain = true)
    {document front between : Text} (whole : document = front ++ between ++ printAll pieces)
    (place : start = byteSize (front ++ between)) (written : Nat) :
    ∃ applied, assemble? document (between ++ printAll pieces) (byteSize front) written edits =
      some (between ++ printAll others,applied) := by
  induction edited generalizing front between written with
  | done offset => exact ⟨[],rfl⟩
  | keep offset piece rest others edits plainly _ ih =>
    have split (pieces : List Piece) :
        between ++ printAll (piece :: pieces) = (between ++ piece.print) ++ printAll pieces := by
      rw [List.append_assoc]
      rfl
    rw [split,split]
    apply ih fun other member => plain other (List.mem_cons_of_mem _ member)
    · rw [whole,List.append_assoc,split]
      simp
    · rw [place]
      simp [Nat.add_assoc]
  | edit offset tag ids rest others edits styled _ ih =>
    have here := Tag.plain_of_isPlain (plain (.tag tag) List.mem_cons_self)
    have split : printAll (.tag tag :: rest) = tag.print ++ printAll rest := rfl
    rw [split] at whole ⊢
    subst place
    have rendered := Tag.render?_editAt here.toFormed (front ++ between) (printAll rest) ids
    have again : front ++ between ++ tag.print ++ printAll rest = document := by
      rw [whole]
      simp
    rw [again] at rendered
    have next : document = front ++ between ++ tag.print ++ [] ++ printAll rest := by
      rw [List.append_nil,again]
    obtain ⟨applied,later⟩ := ih (fun other member => plain other (List.mem_cons_of_mem _ member)) next
      (by rw [List.append_nil,byteSize_append (front ++ between)])
      (written + byteSize between + byteSize (tag.restyle ids).print)
    rw [List.nil_append,List.nil_append] at later
    have shown : printAll (.tag (tag.restyle ids) :: others) = (tag.restyle ids).print ++ printAll others := rfl
    rw [shown,← List.append_assoc between (tag.restyle ids).print]
    exact ⟨_,assemble?_append rfl (byteSize_append _ _).symm rendered later⟩

theorem isPlain_of_mem {pieces : List Piece} (plain : arePlain pieces = true) :
    ∀ piece ∈ pieces, piece.isPlain = true := by
  induction pieces with
  | nil => simp
  | cons piece rest ih =>
    obtain ⟨here,later,-⟩ := arePlain_cons plain
    intro other member
    rcases List.mem_cons.mp member with rfl | inside
    · exact here
    · exact ih later other inside

end Piece

section Refinement

variable {pieces others : List Piece} {registry last : Registry}

theorem start_behind (registry : Registry) (offset : Nat) : (Plan.start registry).Behind offset :=
  fun _ head => absurd head (by simp [Plan.start])

theorem hoist_of_restyleAll (plain : Piece.arePlain pieces = true)
    (restyled : Piece.restyleAll registry pieces = .ok (others,last)) :
    ∃ outcome, hoist (Piece.printAll pieces) registry = (.ok outcome,last) ∧
      outcome.text = Piece.printAll others ∧ outcome.warnings = [] := by
  obtain ⟨plan,edits,added,stored,quiet,planned,edited⟩ :=
    Plan.addAll_of_restyleAll plain (List.nil_append _).symm (start_behind registry _) restyled
  have ordered : plan.edits.reverse = edits := by
    rw [planned]
    simp [Plan.start]
  have whole : Piece.printAll pieces = [] ++ [] ++ Piece.printAll pieces := rfl
  obtain ⟨applied,assembled⟩ :=
    Piece.assemble?_of_edited edited (Piece.isPlain_of_mem plain) whole rfl 0
  rw [← ordered] at assembled
  rw [hoist_of_scan (Piece.scan_printAll plain) added assembled,stored]
  exact ⟨_,rfl,rfl,quiet⟩

theorem hoist_of_restyleAll_error (plain : Piece.arePlain pieces = true) {collision : Collision}
    (stuck : Piece.restyleAll registry pieces = .error collision) :
    (hoist (Piece.printAll pieces) registry).1 = .error (.collision collision) := by
  obtain ⟨plan,added⟩ :=
    Plan.addAll_of_restyleAll_error plain (List.nil_append _).symm (start_behind registry _) stuck
  rw [hoist_eq,Piece.styleAttrs_printAll plain]
  simp only [byteSize_nil] at added
  simp only [added]

/-- Hoisting the print of plain pieces, with any registry, gives the print of the restyled pieces
without a warning, or the collision at which restyling them stops. -/
theorem hoist_printAll (plain : Piece.arePlain pieces = true) (registry : Registry) :
    match Piece.restyleAll registry pieces with
    | .ok (restyled,last) => ∃ outcome, hoist (Piece.printAll pieces) registry = (.ok outcome,last) ∧
        outcome.text = Piece.printAll restyled ∧ outcome.warnings = []
    | .error collision =>
        (hoist (Piece.printAll pieces) registry).1 = .error (.collision collision) := by
  cases restyled : Piece.restyleAll registry pieces with
  | ok result => exact hoist_of_restyleAll plain restyled
  | error collision => exact hoist_of_restyleAll_error plain restyled

end Refinement

/-- A tag whose style has a class already, between text and other markup. -/
theorem hoist_printAll_merge :
    let pieces := [.other "!doctype".toList,
      .tag ⟨"p".toList,[⟨[' '],"style".toList,some "a:1".toList⟩,⟨[' '],"class".toList,some "b".toList⟩],[],false⟩,
      .text "style".toList]
    let registry : Registry := ⟨"inl-".toList,[⟨⟨"a:1;".toList⟩,⟨"inl-0badc0de".toList⟩⟩],[]⟩
    Piece.arePlain pieces = true ∧
      ∃ outcome, hoist "<!doctype><p style=\"a:1\" class=\"b\">style".toList registry = (.ok outcome,registry) ∧
        outcome.text = "<!doctype><p class=\"b inl-0badc0de\">style".toList ∧ outcome.warnings = [] := by
  intro pieces registry
  have plain : Piece.arePlain pieces = true := by decide
  exact ⟨plain,hoist_printAll plain registry⟩

end StyleHoist.Markup
