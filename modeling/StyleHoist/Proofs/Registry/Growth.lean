import StyleHoist.Registry
import Mathlib.Data.List.Nodup

/-! How a registry grows. Look-ups by declaration and by class stay inverse to
each other, a binding once made is never changed, and what was added since the
start can be registered again, in the same order, without a conflict. -/
namespace StyleHoist.Registry

/-- No declaration has two classes, and no class two declarations. -/
structure Sound (registry : Registry) : Prop where
  declarations : (registry.known.map (·.declaration)).Nodup
  ids : (registry.known.map (·.id)).Nodup

theorem sound_empty (classPrefix : Text) : Sound (empty classPrefix) :=
  ⟨List.nodup_nil,List.nodup_nil⟩

theorem lookup_eq_none_iff {registry : Registry} {declaration : Declaration} :
    registry.lookup declaration = none ↔ declaration ∉ registry.known.map (·.declaration) := by
  simp [lookup]

theorem owner_eq_none_iff {registry : Registry} {id : ClassId} :
    registry.owner id = none ↔ id ∉ registry.known.map (·.id) := by
  simp [owner]

theorem mem_of_lookup {registry : Registry} {declaration : Declaration} {id : ClassId}
    (found : registry.lookup declaration = some id) : ⟨declaration,id⟩ ∈ registry.known := by
  obtain ⟨binding,first,rfl⟩ := Option.map_eq_some_iff.mp found
  have same := List.find?_some first
  simp only [decide_eq_true_eq] at same
  exact same ▸ List.mem_of_find?_eq_some first

theorem mem_of_owner {registry : Registry} {declaration : Declaration} {id : ClassId}
    (found : registry.owner id = some declaration) : ⟨declaration,id⟩ ∈ registry.known := by
  obtain ⟨binding,first,rfl⟩ := Option.map_eq_some_iff.mp found
  have same := List.find?_some first
  simp only [decide_eq_true_eq] at same
  exact same ▸ List.mem_of_find?_eq_some first

namespace Sound

variable {registry : Registry} {binding other : Binding}

theorem eq_of_declaration (sound : registry.Sound) (first : binding ∈ registry.known)
    (second : other ∈ registry.known) (same : binding.declaration = other.declaration) :
    binding = other :=
  List.inj_on_of_nodup_map sound.declarations first second same

theorem eq_of_id (sound : registry.Sound) (first : binding ∈ registry.known)
    (second : other ∈ registry.known) (same : binding.id = other.id) : binding = other :=
  List.inj_on_of_nodup_map sound.ids first second same

theorem lookup_eq_some_iff (sound : registry.Sound) {declaration : Declaration} {id : ClassId} :
    registry.lookup declaration = some id ↔ ⟨declaration,id⟩ ∈ registry.known := by
  refine ⟨mem_of_lookup,fun member => ?_⟩
  cases found : registry.lookup declaration with
  | none => exact absurd (List.mem_map_of_mem member) (lookup_eq_none_iff.mp found)
  | some first => rw [(Binding.mk.inj (sound.eq_of_declaration (mem_of_lookup found) member rfl)).2]

theorem owner_eq_some_iff (sound : registry.Sound) {declaration : Declaration} {id : ClassId} :
    registry.owner id = some declaration ↔ ⟨declaration,id⟩ ∈ registry.known := by
  refine ⟨mem_of_owner,fun member => ?_⟩
  cases found : registry.owner id with
  | none => exact absurd (List.mem_map_of_mem member) (owner_eq_none_iff.mp found)
  | some first => rw [(Binding.mk.inj (sound.eq_of_id (mem_of_owner found) member rfl)).1]

end Sound

theorem conflict?_eq_some_iff {registry : Registry} {binding : Binding} {collision : Collision} :
    registry.conflict? binding = some collision ↔ ∃ existing, registry.owner binding.id = some existing ∧
      existing ≠ binding.declaration ∧ collision = ⟨binding.id,existing,binding.declaration,none⟩ := by
  unfold conflict?
  cases registry.owner binding.id with
  | none => simp
  | some existing =>
    by_cases same : existing = binding.declaration
    · simp [same]
    · simp [same,eq_comm]

theorem owner_of_conflict?_none {registry : Registry} {binding : Binding}
    (free : registry.conflict? binding = none) (unknown : registry.lookup binding.declaration = none) :
    registry.owner binding.id = none := by
  cases taken : registry.owner binding.id with
  | none => rfl
  | some existing =>
    have different : existing ≠ binding.declaration := by
      rintro rfl
      exact lookup_eq_none_iff.mp unknown (List.mem_map_of_mem (mem_of_owner taken))
    rw [conflict?_eq_some_iff.mpr ⟨existing,taken,different,rfl⟩] at free
    contradiction

theorem conflict?_of_owner_none {registry : Registry} {binding : Binding}
    (free : registry.owner binding.id = none) : registry.conflict? binding = none := by
  rw [conflict?,free]

/-- The registry with one more binding, which is not pending. -/
def note (registry : Registry) (binding : Binding) : Registry :=
  { registry with known := registry.known ++ [binding] }

theorem sound_note {registry : Registry} {binding : Binding} (sound : registry.Sound)
    (unknown : registry.lookup binding.declaration = none) (free : registry.owner binding.id = none) :
    (registry.note binding).Sound := by
  have newDeclaration := lookup_eq_none_iff.mp unknown
  have newId := owner_eq_none_iff.mp free
  constructor
  · rw [note,List.map_append,List.nodup_append_comm]
    exact List.nodup_cons.mpr ⟨newDeclaration,sound.declarations⟩
  · rw [note,List.map_append,List.nodup_append_comm]
    exact List.nodup_cons.mpr ⟨newId,sound.ids⟩

theorem register_of_unknown {registry : Registry} {binding : Binding}
    (unknown : registry.lookup binding.declaration = none) (free : registry.owner binding.id = none) :
    registry.register binding = .ok (registry.note binding) := by
  rw [register,conflict?_of_owner_none free,unknown,note]

theorem register_cases {registry next : Registry} {binding : Binding}
    (registered : registry.register binding = .ok next) :
    (next = registry ∧ binding.declaration ∈ registry.known.map (·.declaration)) ∨
      (registry.lookup binding.declaration = none ∧ registry.owner binding.id = none ∧
        next = registry.note binding) := by
  unfold register at registered
  cases conflict : registry.conflict? binding with
  | some collision => simp [conflict] at registered
  | none =>
    cases known : registry.lookup binding.declaration with
    | some id =>
      simp only [conflict,known,Except.ok.injEq] at registered
      exact Or.inl ⟨registered.symm,List.mem_map.mpr ⟨_,mem_of_lookup known,rfl⟩⟩
    | none =>
      simp only [conflict,known,Except.ok.injEq] at registered
      exact Or.inr ⟨rfl,owner_of_conflict?_none conflict known,registered.symm⟩

theorem sound_register {registry next : Registry} {binding : Binding} (sound : registry.Sound)
    (registered : registry.register binding = .ok next) : next.Sound := by
  rcases register_cases registered with ⟨rfl,-⟩ | ⟨unknown,free,rfl⟩
  · exact sound
  · exact sound_note sound unknown free

/-- The binding that an allocation makes for a declaration without a class. -/
def fresh (registry : Registry) (declaration : Declaration) : Binding :=
  ⟨declaration,ClassId.derive registry.classPrefix declaration⟩

/-- The registry with one more binding, which is pending. -/
def append (registry : Registry) (binding : Binding) : Registry :=
  { registry with known := registry.known ++ [binding], pending := registry.pending ++ [binding] }

theorem sound_append {registry : Registry} {binding : Binding} (sound : registry.Sound)
    (unknown : registry.lookup binding.declaration = none) (free : registry.owner binding.id = none) :
    (registry.append binding).Sound :=
  ⟨(sound_note sound unknown free).declarations,(sound_note sound unknown free).ids⟩

/-- An allocation finds the class or makes it; in the second case neither the declaration nor
the class was known. -/
theorem allocate_cases {registry next : Registry} {declaration : Declaration} {allocation : Allocation}
    (allocated : registry.allocate declaration = .ok (allocation,next)) :
    (registry.lookup declaration = some allocation.id ∧ allocation.fresh = false ∧ next = registry) ∨
      (registry.lookup declaration = none ∧ registry.owner (registry.fresh declaration).id = none ∧
        allocation = ⟨(registry.fresh declaration).id,true⟩ ∧
        next = registry.append (registry.fresh declaration)) := by
  unfold allocate at allocated
  cases known : registry.lookup declaration with
  | some id =>
    simp only [known,Except.ok.injEq,Prod.mk.injEq] at allocated
    obtain ⟨rfl,rfl⟩ := allocated
    exact Or.inl ⟨rfl,rfl,rfl⟩
  | none =>
    cases conflict : registry.conflict? (registry.fresh declaration) with
    | some collision =>
      rw [fresh] at conflict
      simp [known,conflict] at allocated
    | none =>
      have free := owner_of_conflict?_none conflict known
      rw [fresh] at conflict
      simp only [known,conflict,Except.ok.injEq,Prod.mk.injEq] at allocated
      obtain ⟨rfl,rfl⟩ := allocated
      exact Or.inr ⟨rfl,free,rfl,rfl⟩

theorem allocate_eq_error_iff {registry : Registry} {declaration : Declaration} {collision : Collision} :
    registry.allocate declaration = .error collision ↔ registry.lookup declaration = none ∧
      ∃ existing, registry.owner (registry.fresh declaration).id = some existing ∧
        collision = ⟨(registry.fresh declaration).id,existing,declaration,none⟩ := by
  unfold allocate
  cases known : registry.lookup declaration with
  | some id => simp
  | none =>
    cases taken : registry.owner (registry.fresh declaration).id with
    | none =>
      have free := conflict?_of_owner_none taken
      rw [fresh] at free
      simp [free]
    | some existing =>
      have different : existing ≠ declaration := by
        rintro rfl
        exact lookup_eq_none_iff.mp known (List.mem_map_of_mem (mem_of_owner taken))
      have conflict := conflict?_eq_some_iff.mpr
        ⟨existing,taken,different,(rfl : _ = (⟨_,existing,declaration,none⟩ : Collision))⟩
      simp only [fresh] at conflict
      simp [conflict,fresh,eq_comm]

/-- What the allocations of a run add, binding after binding. -/
inductive Growth : Registry → List Binding → Registry → Prop
  | done (registry) : Growth registry [] registry
  | step (registry declaration rest last)
      (unknown : registry.lookup declaration = none)
      (free : registry.owner (registry.fresh declaration).id = none)
      (later : Growth (registry.append (registry.fresh declaration)) rest last) :
      Growth registry (registry.fresh declaration :: rest) last

namespace Growth

variable {first middle last : Registry} {added more : List Binding}

theorem of_allocate {next : Registry} {declaration : Declaration} {allocation : Allocation}
    (allocated : first.allocate declaration = .ok (allocation,next)) :
    Growth first (if allocation.fresh then [⟨declaration,allocation.id⟩] else []) next := by
  rcases allocate_cases allocated with ⟨-,old,rfl⟩ | ⟨unknown,free,rfl,rfl⟩
  · rw [old]
    exact .done _
  · exact .step _ _ _ _ unknown free (.done _)

theorem trans (front : Growth first added middle) (back : Growth middle more last) :
    Growth first (added ++ more) last := by
  induction front with
  | done => exact back
  | step registry declaration rest _ unknown free _ ih => exact .step _ _ _ _ unknown free (ih back)

theorem known (grown : Growth first added last) : last.known = first.known ++ added := by
  induction grown with
  | done => rw [List.append_nil]
  | step registry declaration rest last _ _ _ ih =>
    rw [ih,append,List.append_assoc,List.singleton_append]

theorem pending (grown : Growth first added last) : last.pending = first.pending ++ added := by
  induction grown with
  | done => rw [List.append_nil]
  | step registry declaration rest last _ _ _ ih =>
    rw [ih,append,List.append_assoc,List.singleton_append]

theorem eq_of_nil (grown : Growth first [] last) : last = first := by
  cases grown
  rfl

theorem classPrefix (grown : Growth first added last) : last.classPrefix = first.classPrefix := by
  induction grown with
  | done => rfl
  | step _ _ _ _ _ _ _ ih => exact ih

theorem sound (grown : Growth first added last) (start : first.Sound) : last.Sound := by
  induction grown with
  | done => exact start
  | step _ _ _ _ unknown free _ ih => exact ih (sound_append start unknown free)

theorem derived (grown : Growth first added last) {binding : Binding} (member : binding ∈ added) :
    binding.id = ClassId.derive first.classPrefix binding.declaration := by
  induction grown with
  | done => simp at member
  | step registry declaration rest last _ _ _ ih =>
    rcases List.mem_cons.mp member with rfl | later
    · rfl
    · exact ih later

theorem mem_known (grown : Growth first added last) {binding : Binding}
    (member : binding ∈ first.known) : binding ∈ last.known := by
  rw [grown.known]
  exact List.mem_append_left _ member

theorem lookup (grown : Growth first added last) {declaration : Declaration} {id : ClassId}
    (found : first.lookup declaration = some id) : last.lookup declaration = some id := by
  unfold Registry.lookup at found ⊢
  rw [grown.known,List.find?_append,Option.map_or,found,Option.some_or]

theorem foldlM_register (grown : Growth first added last) :
    added.foldlM register { first with pending := [] } = .ok { last with pending := [] } := by
  induction grown with
  | done => rfl
  | step registry declaration rest last unknown free _ ih =>
    have registered : register { registry with pending := [] } (registry.fresh declaration) =
        .ok { registry.append (registry.fresh declaration) with pending := [] } :=
      register_of_unknown unknown free
    rw [List.foldlM_cons,registered]
    exact ih

end Growth

/-- The registry after an allocation, which stays as it is if the allocation fails. -/
def attempt (registry : Registry) (declaration : Declaration) : Registry :=
  match registry.allocate declaration with
  | .ok (_,next) => next
  | .error _ => registry

/-- The registry after a sequence of allocations, whether or not they succeed. -/
def attemptAll (registry : Registry) (declarations : List Declaration) : Registry :=
  declarations.foldl attempt registry

theorem growth_attemptAll (registry : Registry) (declarations : List Declaration) :
    ∃ added, Growth registry added (registry.attemptAll declarations) ∧
      ∀ binding ∈ added, binding.declaration ∈ declarations := by
  induction declarations generalizing registry with
  | nil => exact ⟨[],.done _,by simp⟩
  | cons declaration rest ih =>
    obtain ⟨added,grown,asked⟩ := ih (registry.attempt declaration)
    have later : ∀ binding ∈ added, binding.declaration ∈ declaration :: rest :=
      fun binding member => List.mem_cons_of_mem _ (asked binding member)
    cases outcome : registry.allocate declaration with
    | error collision =>
      have stays : registry.attempt declaration = registry := by rw [attempt,outcome]
      rw [stays] at grown
      exact ⟨added,by rwa [attemptAll,List.foldl_cons,stays],later⟩
    | ok result =>
      have moves : registry.attempt declaration = result.2 := by rw [attempt,outcome]
      rw [moves] at grown
      obtain ⟨allocation,next⟩ := result
      have first := Growth.of_allocate outcome
      refine ⟨_,first.trans (by rwa [attemptAll,List.foldl_cons,moves]),?_⟩
      · intro binding member
        rcases List.mem_append.mp member with new | member
        · split at new
          · rw [List.mem_singleton.mp new]
            exact List.mem_cons_self
          · simp at new
        · exact later binding member

end StyleHoist.Registry
