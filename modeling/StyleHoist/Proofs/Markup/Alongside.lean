import StyleHoist.Proofs.Markup.Continuation
import StyleHoist.Proofs.Markup.Hoisting
import StyleHoist.Proofs.Registry.Within

/-! Hoisting with a registry, and with a larger one that it lies within. Both plans
take the same attributes into the same edits with the same classes, so the
document comes out alike. -/
namespace StyleHoist.Markup

open Registry

namespace Plan

variable {document : Text} {full : Registry} {plan other next : Plan} {attr : StyleAttr}

/-- A plan beside one whose registry is larger and does not change. -/
structure Alongside (full : Registry) (plan other : Plan) : Prop where
  edits : plan.edits = other.edits
  overlaps : plan.overlaps = other.overlaps
  within : plan.registry.Within full
  whole : other.registry = full

theorem taken_of_add (added : plan.add document attr = .ok next) :
    (next.registry = plan.registry ∧ ∀ other : Plan, other.edits = plan.edits →
        other.overlaps = plan.overlaps → ∃ more, Continues document other [attr] more ∧
          more.edits = next.edits ∧ more.overlaps = next.overlaps ∧ more.registry = other.registry) ∨
      ∃ ids, Piece.allocateAll plan.registry (declared document [attr]) = .ok (ids,next.registry) ∧
        ∀ (other : Plan) (registry : Registry), other.edits = plan.edits →
          other.overlaps = plan.overlaps →
          Piece.allocateAll other.registry (declared document [attr]) = .ok (ids,registry) →
          ∃ more, Continues document other [attr] more ∧
            more.edits = next.edits ∧ more.overlaps = next.overlaps ∧ more.registry = registry := by
  obtain ⟨value,cut⟩ : ∃ value, Text.slice? document attr.value = some value := by
    cases cut : Text.slice? document attr.value with
    | some value => exact ⟨value,rfl⟩
    | none => simp [add,cut] at added
  rcases add_cases added with ⟨unplaced,position,located,rfl⟩ | ⟨edit,older,placed,assigned⟩
  · refine Or.inl ⟨rfl,fun other edits overlaps => ?_⟩
    have again : other.add document attr =
        .ok { other with overlaps := other.overlaps ++ [⟨.unbounded,position⟩] } := by
      simp [add,cut,edits,unplaced,located]
    exact ⟨_,continues_of_add again,edits,by rw [overlaps],rfl⟩
  · have single := declared_singleton document attr
    obtain ⟨ids,allocated,named,kept⟩ : ∃ ids,
        Piece.allocateAll plan.registry (declared document [attr]) = .ok (ids,next.registry) ∧
        next.edits = ids.foldl TagEdit.addClass edit :: older ∧ next.overlaps = plan.overlaps := by
      rw [single]
      rcases assign_cases assigned with ⟨empty,rfl⟩ | ⟨filled,allocation,registry,allocated,rfl⟩
      · rw [if_pos empty]
        exact ⟨[],rfl,rfl,rfl⟩
      · rw [filled,if_neg Bool.false_ne_true]
        exact ⟨[allocation.id],
          Piece.allocateAll_cons_ok.mpr ⟨allocation,registry,[],allocated,rfl,rfl⟩,rfl,rfl⟩
    refine Or.inr ⟨ids,allocated,fun other registry edits overlaps again => ?_⟩
    rw [← edits] at placed
    obtain ⟨more,continues,renamed,owned,quiet⟩ := continues_placed cut placed again
    exact ⟨more,continues,renamed.trans named.symm,quiet.trans (overlaps.trans kept.symm),owned⟩

theorem within_of_add (added : plan.add document attr = .ok next) :
    plan.registry.Within next.registry := by
  rcases taken_of_add added with ⟨same,-⟩ | ⟨ids,allocated,-⟩
  · rw [same]
    exact .refl _
  · exact .of_allocateAll allocated

theorem within_of_addAll {attrs : List StyleAttr} {last : Plan}
    (added : plan.addAll document attrs = (last,none)) : plan.registry.Within last.registry := by
  induction attrs generalizing plan with
  | nil =>
    cases added
    exact .refl _
  | cons attr rest ih =>
    obtain ⟨next,step,later⟩ := addAll_cons_ok added
    exact (within_of_add step).trans (ih later)

namespace Alongside

theorem start {registry : Registry} (within : registry.Within full) :
    Alongside full (.start registry) (.start full) := ⟨rfl,rfl,within,rfl⟩

theorem enlarge (sound : full.Sound) (beside : Alongside full plan other) {attrs : List StyleAttr}
    {last : Plan} (added : plan.addAll document attrs = (last,none)) (inside : last.registry.Within full) :
    ∃ more, other.addAll document attrs = (more,none) ∧ Alongside full last more := by
  induction attrs generalizing plan other with
  | nil =>
    cases added
    exact ⟨other,rfl,beside⟩
  | cons attr rest ih =>
    obtain ⟨next,step,later⟩ := addAll_cons_ok added
    have within := (within_of_addAll later).trans inside
    obtain ⟨more,continues,aligned⟩ : ∃ more, Continues document other [attr] more ∧
        Alongside full next more := by
      rcases taken_of_add step with ⟨-,again⟩ | ⟨ids,allocated,again⟩
      · obtain ⟨more,continues,edits,overlaps,kept⟩ := again other beside.edits.symm beside.overlaps.symm
        exact ⟨more,continues,edits.symm,overlaps.symm,within,kept.trans beside.whole⟩
      · have known := Within.allocateAll_full sound allocated within
        rw [← beside.whole] at known
        obtain ⟨more,continues,edits,overlaps,kept⟩ :=
          again other other.registry beside.edits.symm beside.overlaps.symm known
        exact ⟨more,continues,edits.symm,overlaps.symm,within,kept.trans beside.whole⟩
    obtain ⟨final,finished,agrees⟩ := ih aligned later
    exact ⟨final,by rw [← List.singleton_append,continues,finished],agrees⟩

theorem reduce (sound : full.Sound) (beside : Alongside full plan other) {attrs : List StyleAttr}
    {last : Plan} (added : other.addAll document attrs = (last,none)) (inside : last.registry.Within full) :
    ∃ more, plan.addAll document attrs = (more,none) ∧ Alongside full more last := by
  induction attrs generalizing plan other with
  | nil =>
    cases added
    exact ⟨plan,rfl,beside⟩
  | cons attr rest ih =>
    obtain ⟨next,step,later⟩ := addAll_cons_ok added
    have within := (within_of_addAll later).trans inside
    obtain ⟨more,continues,aligned⟩ : ∃ more, Continues document plan [attr] more ∧
        Alongside full more next := by
      rcases taken_of_add step with ⟨same,again⟩ | ⟨ids,allocated,again⟩
      · obtain ⟨more,continues,edits,overlaps,kept⟩ := again plan beside.edits beside.overlaps
        exact ⟨more,continues,edits,overlaps,kept ▸ beside.within,same.trans beside.whole⟩
      · rw [beside.whole] at allocated
        obtain ⟨same,registry,own,inner⟩ := beside.within.allocateAll sound allocated within
        obtain ⟨more,continues,edits,overlaps,kept⟩ := again plan registry beside.edits beside.overlaps own
        exact ⟨more,continues,edits,overlaps,kept ▸ inner,same⟩
    obtain ⟨final,finished,agrees⟩ := ih aligned later
    exact ⟨final,by rw [← List.singleton_append,continues,finished],agrees⟩

end Alongside

end Plan

variable {document : Text} {registry last full : Registry} {outcome : Outcome}

/-- An outcome whose text and edits are those of hoisting with a registry that knows every
class already. -/
def Settled (full : Registry) (document : Text) (outcome : Outcome) : Prop :=
  ∃ other, hoist document full = (.ok other,full) ∧
    outcome.text = other.text ∧ outcome.edits = other.edits

theorem hoist_of_addAll {plan : Plan} {text : Text} {edits : List AppliedEdit}
    (planned : (Plan.start registry).addAll document (styleAttrs document) = (plan,none))
    (assembled : assemble? document document 0 0 plan.edits.reverse = some (text,edits)) :
    ∃ outcome, hoist document registry = (.ok outcome,plan.registry) ∧
      outcome.text = text ∧ outcome.edits = edits := by
  rw [hoist_eq]
  simp only [planned,assembled]
  exact ⟨_,rfl,rfl,rfl⟩

theorem within_of_hoist (hoisted : hoist document registry = (.ok outcome,last)) :
    registry.Within last := by
  obtain ⟨plan,planned,-,-,rfl⟩ := hoist_eq_ok hoisted
  exact Plan.within_of_addAll planned

theorem settled_of_hoist (sound : full.Sound) (hoisted : hoist document registry = (.ok outcome,last))
    (inside : last.Within full) : Settled full document outcome := by
  obtain ⟨plan,planned,assembled,-,rfl⟩ := hoist_eq_ok hoisted
  have within := (Plan.within_of_addAll planned).trans inside
  obtain ⟨other,added,beside⟩ := (Plan.Alongside.start within).enlarge sound planned inside
  rw [beside.edits] at assembled
  obtain ⟨more,again,text,edits⟩ := hoist_of_addAll added assembled
  rw [beside.whole] at again
  exact ⟨more,again,text.symm,edits.symm⟩

theorem hoist_of_settled (sound : full.Sound) (within : registry.Within full)
    (settled : Settled full document outcome) :
    ∃ own last, hoist document registry = (.ok own,last) ∧ last.Within full := by
  obtain ⟨other,hoisted,-,-⟩ := settled
  obtain ⟨plan,planned,assembled,-,whole⟩ := hoist_eq_ok hoisted
  have inside : plan.registry.Within full := whole ▸ .refl _
  obtain ⟨own,added,beside⟩ := (Plan.Alongside.start within).reduce sound planned inside
  rw [← beside.edits] at assembled
  obtain ⟨more,again,-⟩ := hoist_of_addAll added assembled
  exact ⟨more,own.registry,again,beside.within⟩

end StyleHoist.Markup
