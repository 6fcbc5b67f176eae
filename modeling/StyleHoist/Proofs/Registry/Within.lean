import StyleHoist.Proofs.Registry.Allocation

/-! A registry within a larger one. The larger one has the same bindings and, beyond
them, only such as allocations would make; so allocations that it has answered
already succeed in the smaller one, with the same classes. -/
namespace StyleHoist.Registry

open Markup.Piece (allocateAll allocateAll_cons_ok growth_of_allocateAll mem_known_of_allocate)

structure Within (registry full : Registry) : Prop where
  classPrefix : registry.classPrefix = full.classPrefix
  known : ∀ binding ∈ registry.known, binding ∈ full.known
  derived : ∀ binding ∈ full.known, binding ∉ registry.known →
    binding.id = ClassId.derive registry.classPrefix binding.declaration

namespace Within

variable {registry next full : Registry} {declaration : Declaration}

theorem refl (registry : Registry) : registry.Within registry :=
  ⟨rfl,fun _ member => member,fun _ member absent => absurd member absent⟩

theorem trans (first : registry.Within next) (second : next.Within full) : registry.Within full := by
  refine ⟨first.classPrefix.trans second.classPrefix,
    fun binding member => second.known binding (first.known binding member),fun binding member absent => ?_⟩
  by_cases between : binding ∈ next.known
  · exact first.derived binding between absent
  · rw [second.derived binding member between,first.classPrefix]

theorem of_growth {added : List Binding} (grown : Growth registry added full) : registry.Within full := by
  refine ⟨grown.classPrefix.symm,fun binding member => grown.mem_known member,fun binding member absent => ?_⟩
  rw [grown.known] at member
  rcases List.mem_append.mp member with old | new
  · exact absurd old absent
  · exact grown.derived new

theorem cleared (within : registry.Within full) : ({ registry with pending := [] } : Registry).Within full :=
  ⟨within.classPrefix,within.known,within.derived⟩

theorem of_cleared (within : ({ registry with pending := [] } : Registry).Within full) : registry.Within full :=
  ⟨within.classPrefix,within.known,within.derived⟩

/-- What the larger registry knows can be allocated in the smaller one, which stays within. -/
theorem allocate (within : registry.Within full) (sound : full.Sound) {id : ClassId}
    (bound : ⟨declaration,id⟩ ∈ full.known) :
    ∃ allocation next, registry.allocate declaration = .ok (allocation,next) ∧
      allocation.id = id ∧ next.Within full := by
  cases outcome : registry.allocate declaration with
  | ok result =>
    obtain ⟨allocation,next⟩ := result
    refine ⟨allocation,next,rfl,?_⟩
    rcases allocate_cases outcome with ⟨found,-,rfl⟩ | ⟨missing,-,rfl,rfl⟩
    · have same := sound.eq_of_declaration (within.known _ (mem_of_lookup found)) bound rfl
      exact ⟨(Binding.mk.inj same).2,within⟩
    · have absent : (⟨declaration,id⟩ : Binding) ∉ registry.known :=
        fun member => lookup_eq_none_iff.mp missing (List.mem_map_of_mem member)
      have named : id = (registry.fresh declaration).id := within.derived _ bound absent
      subst named
      refine ⟨rfl,within.classPrefix,fun binding member => ?_,fun binding member unknown => ?_⟩
      · rcases List.mem_append.mp member with old | new
        · exact within.known binding old
        · rw [List.mem_singleton.mp new]
          exact bound
      · apply within.derived binding member
        intro old
        exact unknown (List.mem_append_left _ old)
  | error collision =>
    -- The class is taken, so it belongs to two declarations of the larger registry.
    obtain ⟨missing,existing,taken,-⟩ := allocate_eq_error_iff.mp outcome
    have absent : (⟨declaration,id⟩ : Binding) ∉ registry.known :=
      fun member => lookup_eq_none_iff.mp missing (List.mem_map_of_mem member)
    have named : id = (registry.fresh declaration).id := within.derived _ bound absent
    have owner := mem_of_owner taken
    have same := sound.eq_of_id (within.known _ owner) bound named.symm
    rw [(Binding.mk.inj same).1] at owner
    exact absurd (List.mem_map_of_mem owner) (lookup_eq_none_iff.mp missing)

theorem allocate_full (sound : full.Sound) {allocation : Allocation}
    (allocated : registry.allocate declaration = .ok (allocation,next)) (within : next.Within full) :
    full.allocate declaration = .ok (⟨allocation.id,false⟩,full) := by
  have bound := within.known _ (mem_known_of_allocate allocated)
  rw [Registry.allocate,sound.lookup_eq_some_iff.mpr bound]

theorem eq_of_allocate {allocation : Allocation}
    (allocated : full.allocate declaration = .ok (allocation,next)) (within : next.Within full) :
    next = full ∧ ⟨declaration,allocation.id⟩ ∈ full.known := by
  rcases allocate_cases allocated with ⟨found,-,rfl⟩ | ⟨missing,-,-,rfl⟩
  · exact ⟨rfl,mem_of_lookup found⟩
  · have member := within.known (full.fresh declaration) (List.mem_append_right _ List.mem_cons_self)
    exact absurd (List.mem_map_of_mem member) (lookup_eq_none_iff.mp missing)

theorem of_allocateAll {declarations : List Declaration} {ids : List ClassId}
    (allocated : allocateAll registry declarations = .ok (ids,next)) : registry.Within next := by
  obtain ⟨_,grown,-,-⟩ := growth_of_allocateAll allocated
  exact .of_growth grown

theorem allocateAll_full (sound : full.Sound) {declarations : List Declaration} {ids : List ClassId}
    (allocated : allocateAll registry declarations = .ok (ids,next)) (within : next.Within full) :
    allocateAll full declarations = .ok (ids,full) := by
  induction declarations generalizing registry ids with
  | nil =>
    cases allocated
    rfl
  | cons declaration rest ih =>
    obtain ⟨allocation,middle,later,first,second,rfl⟩ := allocateAll_cons_ok.mp allocated
    have known := allocate_full sound first ((of_allocateAll second).trans within)
    exact allocateAll_cons_ok.mpr ⟨_,full,later,known,ih second,rfl⟩

theorem allocateAll (sound : full.Sound) {declarations : List Declaration} {ids : List ClassId}
    (within : registry.Within full) (known : allocateAll full declarations = .ok (ids,next))
    (inside : next.Within full) : next = full ∧
      ∃ last, allocateAll registry declarations = .ok (ids,last) ∧ last.Within full := by
  induction declarations generalizing registry ids with
  | nil =>
    cases known
    exact ⟨rfl,registry,rfl,within⟩
  | cons declaration rest ih =>
    obtain ⟨allocation,middle,later,first,second,rfl⟩ := allocateAll_cons_ok.mp known
    obtain ⟨rfl,bound⟩ := eq_of_allocate first ((of_allocateAll second).trans inside)
    obtain ⟨own,after,allocated,named,inner⟩ := within.allocate sound bound
    obtain ⟨same,last,others,lastInner⟩ := ih inner second
    exact ⟨same,last,allocateAll_cons_ok.mpr ⟨own,after,later,allocated,others,by rw [named]⟩,lastInner⟩

theorem lookup_eq (sound : registry.Sound) (soundFull : full.Sound) (inside : registry.Within full)
    (around : full.Within registry) (declaration : Declaration) :
    registry.lookup declaration = full.lookup declaration := by
  apply Option.ext
  intro id
  rw [sound.lookup_eq_some_iff,soundFull.lookup_eq_some_iff]
  exact ⟨inside.known _,around.known _⟩

end Within

end StyleHoist.Registry
