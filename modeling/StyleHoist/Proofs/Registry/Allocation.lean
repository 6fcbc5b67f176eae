import StyleHoist.Markup.Plain
import StyleHoist.Proofs.Registry.Growth
import StyleHoist.Proofs.Result
import Mathlib.Data.List.Forall2
import Mathlib.Data.Option.Basic

/-! Allocations in a row. When all of them succeed, each declaration has the class
that was given for it, and what is new is each unknown declaration once. -/
namespace StyleHoist

theorem exists_of_forall₂ {α β : Type} {relation : α → β → Prop} {xs : List α} {ys : List β}
    (related : List.Forall₂ relation xs ys) : ∀ a ∈ xs, ∃ b ∈ ys, relation a b := by
  induction related with
  | nil => simp
  | cons head _ ih =>
    intro a member
    rcases List.mem_cons.mp member with rfl | later
    · exact ⟨_,List.mem_cons_self,head⟩
    · obtain ⟨b,among,related⟩ := ih a later
      exact ⟨b,List.mem_cons_of_mem _ among,related⟩

/-- Classes that a registry has for declarations, one for one. -/
def Registry.StandFor (registry : Registry) (ids : List ClassId) (declarations : List Declaration) :
    Prop :=
  List.Forall₂ (fun id declaration => ⟨declaration,id⟩ ∈ registry.known) ids declarations

namespace Registry.StandFor

variable {registry last : Registry} {ids : List ClassId} {declarations : List Declaration}

theorem grow {added : List Binding} (standing : registry.StandFor ids declarations)
    (grown : Growth registry added last) : last.StandFor ids declarations :=
  List.Forall₂.imp (fun _ _ member => grown.mem_known member) standing

theorem concat {id : ClassId} {declaration : Declaration} (standing : registry.StandFor ids declarations)
    (member : ⟨declaration,id⟩ ∈ registry.known) :
    registry.StandFor (ids ++ [id]) (declarations ++ [declaration]) :=
  List.rel_append standing (.cons member .nil)

theorem owners (standing : registry.StandFor ids declarations) (sound : registry.Sound) :
    ids.map registry.owner = declarations.map some := by
  induction standing with
  | nil => rfl
  | cons member _ ih => rw [List.map_cons,List.map_cons,ih,sound.owner_eq_some_iff.mpr member]

theorem lookups (standing : registry.StandFor ids declarations) (sound : registry.Sound) :
    ids.map some = declarations.map registry.lookup := by
  induction standing with
  | nil => rfl
  | cons member _ ih => rw [List.map_cons,List.map_cons,ih,sound.lookup_eq_some_iff.mpr member]

theorem mem_iff (standing : registry.StandFor ids declarations) (sound : registry.Sound)
    {id : ClassId} {declaration : Declaration} (bound : ⟨declaration,id⟩ ∈ registry.known) :
    id ∈ ids ↔ declaration ∈ declarations := by
  have owner := sound.owner_eq_some_iff.mpr bound
  have lookup := sound.lookup_eq_some_iff.mpr bound
  constructor
  · intro member
    have mapped := List.mem_map_of_mem (f := registry.owner) member
    rwa [standing.owners sound,owner,List.mem_map_of_injective (Option.some_injective _)] at mapped
  · intro member
    have mapped := List.mem_map_of_mem (f := registry.lookup) member
    rwa [← standing.lookups sound,lookup,List.mem_map_of_injective (Option.some_injective _)] at mapped

theorem nodup (standing : registry.StandFor ids declarations) (sound : registry.Sound)
    (distinct : declarations.Nodup) : ids.Nodup := by
  have mapped := distinct.map (Option.some_injective _)
  rw [← standing.owners sound] at mapped
  exact mapped.of_map

end Registry.StandFor

namespace Markup.Piece

open Registry

theorem allocateAll_cons_ok {registry last : Registry} {declaration : Declaration}
    {rest : List Declaration} {ids : List ClassId} :
    allocateAll registry (declaration :: rest) = .ok (ids,last) ↔
      ∃ allocation next later, registry.allocate declaration = .ok (allocation,next) ∧
        allocateAll next rest = .ok (later,last) ∧ ids = allocation.id :: later := by
  simp [allocateAll,bind_eq_ok_iff,@eq_comm _ ids,and_comm]

theorem allocateAll_cons_error {registry : Registry} {declaration : Declaration}
    {rest : List Declaration} {collision : Collision} :
    allocateAll registry (declaration :: rest) = .error collision ↔
      registry.allocate declaration = .error collision ∨
      ∃ allocation next, registry.allocate declaration = .ok (allocation,next) ∧
        allocateAll next rest = .error collision := by
  simp [allocateAll,bind_eq_error_iff]

theorem allocateAll_append_ok {registry last : Registry} {front back : List Declaration}
    {ids : List ClassId} :
    allocateAll registry (front ++ back) = .ok (ids,last) ↔
      ∃ first middle second, allocateAll registry front = .ok (first,middle) ∧
        allocateAll middle back = .ok (second,last) ∧ ids = first ++ second := by
  induction front generalizing registry ids with
  | nil => simp [allocateAll]
  | cons declaration front ih =>
    simp only [List.cons_append,allocateAll_cons_ok,ih]
    constructor
    · rintro ⟨allocation,next,later,allocated,⟨first,middle,second,fore,aft,rfl⟩,rfl⟩
      exact ⟨_,middle,second,⟨allocation,next,first,allocated,fore,rfl⟩,aft,rfl⟩
    · rintro ⟨_,middle,second,⟨allocation,next,first,allocated,fore,rfl⟩,aft,rfl⟩
      exact ⟨allocation,next,_,allocated,⟨first,middle,second,fore,aft,rfl⟩,rfl⟩

theorem allocateAll_append_error {registry : Registry} {front back : List Declaration}
    {collision : Collision} :
    allocateAll registry (front ++ back) = .error collision ↔
      allocateAll registry front = .error collision ∨
      ∃ first middle, allocateAll registry front = .ok (first,middle) ∧
        allocateAll middle back = .error collision := by
  induction front generalizing registry with
  | nil => simp [allocateAll]
  | cons declaration front ih =>
    simp only [List.cons_append,allocateAll_cons_error,allocateAll_cons_ok,ih]
    constructor
    · rintro (stuck | ⟨allocation,next,allocated,stuck | ⟨first,middle,fore,aft⟩⟩)
      · exact Or.inl (Or.inl stuck)
      · exact Or.inl (Or.inr ⟨allocation,next,allocated,stuck⟩)
      · exact Or.inr ⟨_,middle,⟨allocation,next,first,allocated,fore,rfl⟩,aft⟩
    · rintro ((stuck | ⟨allocation,next,allocated,stuck⟩) |
        ⟨_,middle,⟨allocation,next,first,allocated,fore,rfl⟩,aft⟩)
      · exact Or.inl stuck
      · exact Or.inr ⟨allocation,next,allocated,Or.inl stuck⟩
      · exact Or.inr ⟨allocation,next,allocated,Or.inr ⟨first,middle,fore,aft⟩⟩

/-- The declarations among some that a registry has no class for. -/
def unknown (registry : Registry) (declarations : List Declaration) : List Declaration :=
  declarations.filter fun declaration => (registry.lookup declaration).isNone

theorem allocateAll_empty (classPrefix : Text) (declaration : Declaration) :
    allocateAll (Registry.empty classPrefix) [declaration] =
      .ok ([((Registry.empty classPrefix).fresh declaration).id],
        (Registry.empty classPrefix).append ((Registry.empty classPrefix).fresh declaration)) := rfl

theorem mem_known_of_allocate {registry next : Registry} {declaration : Declaration}
    {allocation : Allocation} (allocated : registry.allocate declaration = .ok (allocation,next)) :
    ⟨declaration,allocation.id⟩ ∈ next.known := by
  rcases allocate_cases allocated with ⟨found,-,rfl⟩ | ⟨-,-,rfl,rfl⟩
  · exact mem_of_lookup found
  · exact List.mem_append_right _ List.mem_cons_self

theorem unknown_append (registry : Registry) (binding : Binding) (declarations : List Declaration) :
    unknown (registry.append binding) declarations =
      (unknown registry declarations).filter fun declaration => !declaration == binding.declaration := by
  unfold unknown
  rw [List.filter_filter]
  apply List.filter_congr
  intro declaration _
  have known : ((registry.append binding).lookup declaration).isNone =
      ((registry.lookup declaration).isNone && !declaration == binding.declaration) := by
    rw [Bool.eq_iff_iff]
    simp only [Option.isNone_iff_eq_none,lookup_eq_none_iff,append,List.map_append,List.mem_append,
      List.map_singleton,List.mem_singleton,not_or,Bool.and_eq_true,Bool.not_eq_true',beq_eq_false_iff_ne]
  rw [known,Bool.and_comm]

/-- Allocations that all succeed name a class for each declaration and make one for each
unknown one, in the order in which they are first seen. -/
theorem growth_of_allocateAll {registry last : Registry} {declarations : List Declaration}
    {ids : List ClassId} (allocated : allocateAll registry declarations = .ok (ids,last)) :
    ∃ added, Growth registry added last ∧
      added.map (·.declaration) = (unknown registry declarations).eraseDups ∧
      last.StandFor ids declarations := by
  induction declarations generalizing registry ids with
  | nil =>
    cases allocated
    exact ⟨[],.done _,rfl,.nil⟩
  | cons declaration rest ih =>
    obtain ⟨allocation,next,later,first,second,rfl⟩ := allocateAll_cons_ok.mp allocated
    obtain ⟨added,grown,fresh,named⟩ := ih second
    have start := Growth.of_allocate first
    have member := grown.mem_known (mem_known_of_allocate first)
    refine ⟨_,start.trans grown,?_,.cons member named⟩
    rcases allocate_cases first with ⟨found,old,rfl⟩ | ⟨missing,-,rfl,rfl⟩
    · rw [old]
      simpa [unknown,found] using fresh
    · rw [unknown_append] at fresh
      simp only [unknown,List.filter_cons,missing,Option.isNone_none,if_true] at fresh ⊢
      rw [List.eraseDups_cons,List.map_append,fresh]
      rfl

end Markup.Piece

end StyleHoist
