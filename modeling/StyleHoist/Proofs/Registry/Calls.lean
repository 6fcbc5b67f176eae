import StyleHoist.Proofs.Registry.Tables
import StyleHoist.Proofs.Stylesheet.RoundTrip

/-! Calls on a registry in any order, with bindings of any kind, some of which fail. The
table by declaration and the table by class stay inverse to each other, what is
bound once stays bound, and what is pending was made since the registry was built. -/
namespace StyleHoist

/-- What a registry begins as: without bindings, or with those of a stylesheet. -/
inductive Registry.Built : Registry → Prop
  | new (classPrefix : Text) : Built (empty classPrefix)
  | seeded {classPrefix css : Text} {registry : Registry}
      (read : Stylesheet.seed classPrefix css = .ok registry) : Built registry

namespace Registry

variable {start registry : Registry}

/-- A call leaves the registry as it is, or adds a binding of a declaration and a class that
were both unknown. -/
theorem answer_cases (registry : Registry) (call : Call) :
    (registry.answer call).2 = registry ∨
      ∃ binding, registry.lookup binding.declaration = none ∧ registry.owner binding.id = none ∧
        ((registry.answer call).2 = registry.note binding ∨
          binding = registry.fresh binding.declaration ∧ (registry.answer call).2 = registry.append binding) := by
  cases call with
  | register binding =>
    rw [answer]
    cases outcome : registry.register binding with
    | error collision => exact .inl rfl
    | ok next =>
      rcases register_cases outcome with ⟨same,-⟩ | ⟨unknown,free,made⟩
      · exact .inl same
      · exact .inr ⟨binding,unknown,free,.inl made⟩
  | allocate declaration =>
    rw [answer]
    cases outcome : registry.allocate declaration with
    | error collision => exact .inl rfl
    | ok result =>
      obtain ⟨allocation,next⟩ := result
      rcases allocate_cases outcome with ⟨-,-,same⟩ | ⟨unknown,free,-,made⟩
      · exact .inl same
      · exact .inr ⟨registry.fresh declaration,unknown,free,.inr ⟨rfl,made⟩⟩

/-- A registry and what it began as. What is pending was added since. -/
structure Since (start registry : Registry) : Prop where
  sound : registry.Sound
  classPrefix : registry.classPrefix = start.classPrefix
  added : ∃ added, registry.known = start.known ++ added ∧ registry.pending.Sublist added
  derived : ∀ binding ∈ registry.pending,
    binding.id = ClassId.derive registry.classPrefix binding.declaration

theorem Built.since (built : Built start) : Since start start := by
  cases built with
  | new classPrefix =>
    exact ⟨sound_empty classPrefix,rfl,⟨[],rfl,.slnil⟩,fun _ member => absurd member List.not_mem_nil⟩
  | seeded read =>
    have none := Stylesheet.pending_of_seed read
    refine ⟨Stylesheet.sound_of_seed read,rfl,⟨[],(List.append_nil _).symm,none ▸ .slnil⟩,fun binding member => ?_⟩
    rw [none] at member
    contradiction

namespace Since

theorem answer (since : Since start registry) (call : Call) : Since start (registry.answer call).2 := by
  obtain ⟨added,known,pending⟩ := since.added
  rcases answer_cases registry call with same | ⟨binding,unknown,free,noted | ⟨made,appended⟩⟩
  · rwa [same]
  · rw [noted]
    refine ⟨sound_note since.sound unknown free,since.classPrefix,⟨added ++ [binding],?_,?_⟩,since.derived⟩
    · rw [note,known,List.append_assoc]
    · exact pending.trans (List.sublist_append_left _ _)
  · rw [appended]
    refine ⟨sound_append since.sound unknown free,since.classPrefix,⟨added ++ [binding],?_,?_⟩,fun other member => ?_⟩
    · rw [append,known,List.append_assoc]
    · exact pending.append (.refl _)
    · rcases List.mem_append.mp member with old | new
      · exact since.derived other old
      · rw [List.mem_singleton.mp new,made]
        rfl

theorem afterAll (since : Since start registry) (calls : List Call) : Since start (registry.afterAll calls) := by
  induction calls generalizing registry with
  | nil => exact since
  | cons call rest ih => exact ih (since.answer call)

theorem pending_sublist (since : Since start registry) : registry.pending.Sublist registry.known := by
  obtain ⟨added,known,pending⟩ := since.added
  rw [known]
  exact pending.trans (List.sublist_append_right _ _)

theorem unknown (since : Since start registry) {binding : Binding} (member : binding ∈ registry.pending) :
    start.lookup binding.declaration = none ∧ start.owner binding.id = none := by
  obtain ⟨added,known,pending⟩ := since.added
  have declarations := since.sound.declarations
  have ids := since.sound.ids
  rw [known,List.map_append,List.nodup_append] at declarations ids
  rw [lookup_eq_none_iff,owner_eq_none_iff]
  have late := pending.subset member
  exact ⟨fun early => declarations.2.2 _ early _ (List.mem_map_of_mem late) rfl,
    fun early => ids.2.2 _ early _ (List.mem_map_of_mem late) rfl⟩

end Since

theorem lookup_answer {declaration : Declaration} {id : ClassId} (found : registry.lookup declaration = some id)
    (call : Call) : (registry.answer call).2.lookup declaration = some id := by
  have kept (binding : Binding) : (registry.note binding).lookup declaration = some id := by
    rw [lookup_note,found,Option.some_or]
  rcases answer_cases registry call with same | ⟨binding,-,-,noted | ⟨-,appended⟩⟩
  · rwa [same]
  · rw [noted,kept]
  · rw [appended]
    exact kept binding

theorem owner_answer {declaration : Declaration} {id : ClassId} (found : registry.owner id = some declaration)
    (call : Call) : (registry.answer call).2.owner id = some declaration := by
  have kept (binding : Binding) : (registry.note binding).owner id = some declaration := by
    rw [owner_note,found,Option.some_or]
  rcases answer_cases registry call with same | ⟨binding,-,-,noted | ⟨-,appended⟩⟩
  · rwa [same]
  · rw [noted,kept]
  · rw [appended]
    exact kept binding

theorem bound_afterAll {declaration : Declaration} {id : ClassId} (calls : List Call) :
    (registry.lookup declaration = some id → (registry.afterAll calls).lookup declaration = some id) ∧
      (registry.owner id = some declaration → (registry.afterAll calls).owner id = some declaration) := by
  induction calls generalizing registry with
  | nil => exact ⟨fun found => found,fun found => found⟩
  | cons call rest ih => exact ⟨fun found => ih.1 (lookup_answer found call),fun found => ih.2 (owner_answer found call)⟩

end Registry

namespace Tables

/-- One table is the inverse of the other, so that they are of one size. -/
structure Inverse (tables : Tables) : Prop where
  inverse : ∀ declaration id, tables.byDeclaration.lookup declaration = some id ↔
    tables.byId.lookup id = some declaration
  sizes : tables.byDeclaration.keys.card = tables.size ∧ tables.byId.keys.card = tables.size

/-- What is pending is bound in both tables to the class made for it, each declaration and each
class once, and was not known at the start. -/
structure PendingSince (tables start : Tables) : Prop where
  bound : ∀ binding ∈ tables.pending, tables.byDeclaration.lookup binding.declaration = some binding.id ∧
    tables.byId.lookup binding.id = some binding.declaration
  derived : ∀ binding ∈ tables.pending, binding.id = ClassId.derive start.classPrefix binding.declaration
  declarations : (tables.pending.map (·.declaration)).Nodup
  ids : (tables.pending.map (·.id)).Nodup
  unknown : ∀ binding ∈ tables.pending, binding.declaration ∉ start.byDeclaration ∧ binding.id ∉ start.byId

/-- Whatever is bound in the first tables is bound alike in the second. -/
structure Kept (tables later : Tables) : Prop where
  byDeclaration : ∀ declaration id, tables.byDeclaration.lookup declaration = some id →
    later.byDeclaration.lookup declaration = some id
  byId : ∀ id declaration, tables.byId.lookup id = some declaration → later.byId.lookup id = some declaration

/-- The class belongs to another declaration. -/
def Taken (tables : Tables) (binding : Binding) : Prop :=
  ∃ existing, tables.byId.lookup binding.id = some existing ∧ existing ≠ binding.declaration

/-- The calls that have to fail. -/
def Refuses (tables : Tables) : Call → Prop
  | .register binding => tables.Taken binding
  | .allocate declaration => declaration ∉ tables.byDeclaration ∧
      tables.Taken ⟨declaration,ClassId.derive tables.classPrefix declaration⟩

/-- What the answer to a call says of the tables behind it. -/
structure Answers (tables : Tables) (call : Call) : Prop where
  fails : (∃ collision, (tables.answer call).1 = .error collision) ↔ tables.Refuses call
  unchanged : ∀ collision, (tables.answer call).1 = .error collision → (tables.answer call).2 = tables
  fresh : ∀ declaration allocation, call = .allocate declaration →
    (tables.answer call).1 = .ok (.allocated allocation) →
    (allocation.fresh = true ↔ (tables.answer call).2.pending = tables.pending ++ [⟨declaration,allocation.id⟩]) ∧
      (allocation.fresh = false ↔ (tables.answer call).2.pending = tables.pending)

/-- What holds of tables behind calls, and of the list of bindings that the same calls make. -/
structure Reached (tables start : Tables) (registry : Registry) : Prop where
  listed : registry.tables = tables ∧ registry.size = tables.size
  inverse : tables.Inverse
  pending : tables.PendingSince start
  kept : ∀ more, tables.Kept (tables.afterAll more)
  answers : ∀ call, tables.Answers call ∧ (tables.answer call).1 = (registry.answer call).1

variable {tables : Tables} {binding : Binding}

theorem conflict?_eq_none_iff : tables.conflict? binding = none ↔ ¬ tables.Taken binding := by
  unfold conflict? Taken
  cases tables.byId.lookup binding.id with
  | none => simp
  | some existing => simp

theorem answer_of_taken {call : Call} (refuses : tables.Refuses call) :
    ∃ collision, tables.answer call = (.error collision,tables) := by
  have conflicts {binding : Binding} (taken : tables.Taken binding) :
      ∃ collision, tables.conflict? binding = some collision :=
    Option.ne_none_iff_exists'.mp fun none => conflict?_eq_none_iff.mp none taken
  cases call with
  | register binding =>
    obtain ⟨collision,conflict⟩ := conflicts refuses
    exact ⟨collision,by simp only [answer,conflict]⟩
  | allocate declaration =>
    obtain ⟨collision,conflict⟩ := conflicts refuses.2
    exact ⟨collision,by simp only [answer,Finmap.lookup_eq_none.mpr refuses.1,conflict]⟩

theorem answer_of_free {call : Call} (free : ¬ tables.Refuses call) :
    ∃ reply next, tables.answer call = (.ok reply,next) ∧
      ∀ declaration allocation, call = .allocate declaration → reply = .allocated allocation →
        next.pending = tables.pending ++ if allocation.fresh then [⟨declaration,allocation.id⟩] else [] := by
  cases call with
  | register binding =>
    have none := conflict?_eq_none_iff.mpr free
    cases known : tables.byDeclaration.lookup binding.declaration with
    | some id => exact ⟨.registered,tables,by simp only [answer,none,known],by simp⟩
    | none => exact ⟨.registered,tables.write binding,by simp only [answer,none,known],by simp⟩
  | allocate declaration =>
    cases known : tables.byDeclaration.lookup declaration with
    | some id =>
      refine ⟨.allocated ⟨id,false⟩,tables,by simp only [answer,known],?_⟩
      rintro _ _ - ⟨⟩
      simp
    | none =>
      have untaken : ¬ tables.Taken ⟨declaration,ClassId.derive tables.classPrefix declaration⟩ :=
        fun taken => free ⟨Finmap.lookup_eq_none.mp known,taken⟩
      have none := conflict?_eq_none_iff.mpr untaken
      refine ⟨_,_,by simp only [answer,known,none]; rfl,?_⟩
      rintro _ _ ⟨⟩ ⟨⟩
      rfl

theorem answers (tables : Tables) (call : Call) : tables.Answers call := by
  by_cases refuses : tables.Refuses call
  · obtain ⟨collision,failed⟩ := answer_of_taken refuses
    refine ⟨?_,fun _ _ => ?_,fun declaration allocation _ done => ?_⟩
    · rw [failed]
      exact ⟨fun _ => refuses,fun _ => ⟨collision,rfl⟩⟩
    · rw [failed]
    · rw [failed] at done
      contradiction
  · obtain ⟨reply,next,done,pending⟩ := answer_of_free refuses
    refine ⟨?_,fun collision failed => ?_,fun declaration allocation asked replied => ?_⟩
    · rw [done]
      exact ⟨fun ⟨_,failed⟩ => by contradiction,fun refused => absurd refused refuses⟩
    · rw [done] at failed
      contradiction
    · rw [done] at replied ⊢
      have made := pending declaration allocation asked (Except.ok.inj replied)
      dsimp only at made ⊢
      rw [made]
      cases allocation.fresh <;> simp

end Tables

namespace Registry

variable {start registry : Registry}

theorem Sound.inverse (sound : registry.Sound) : registry.tables.Inverse := by
  obtain ⟨declarations,ids⟩ := sound.sizes
  refine ⟨fun declaration id => ?_,rfl,ids.trans declarations.symm⟩
  rw [lookup_tables,owner_tables,sound.lookup_eq_some_iff,sound.owner_eq_some_iff]

theorem Since.pendingSince (since : Since start registry) : registry.tables.PendingSince start.tables where
  bound binding member := by
    have known := since.pending_sublist.subset member
    rw [lookup_tables,owner_tables]
    exact ⟨since.sound.lookup_eq_some_iff.mpr known,since.sound.owner_eq_some_iff.mpr known⟩
  derived binding member := (since.derived binding member).trans (by rw [since.classPrefix]; rfl)
  declarations := since.sound.declarations.sublist (since.pending_sublist.map _)
  ids := since.sound.ids.sublist (since.pending_sublist.map _)
  unknown binding member := by
    rw [← Finmap.lookup_eq_none,← Finmap.lookup_eq_none,lookup_tables,owner_tables]
    exact since.unknown member

theorem kept_afterAll (registry : Registry) (more : List Call) :
    registry.tables.Kept (registry.tables.afterAll more) := by
  rw [afterAll_tables]
  refine ⟨fun declaration id found => ?_,fun id declaration found => ?_⟩
  · rw [lookup_tables] at found ⊢
    exact (bound_afterAll more).1 found
  · rw [owner_tables] at found ⊢
    exact (bound_afterAll more).2 found

/-- However calls follow one another on a registry, its two tables are what the calls make of the
tables it began with. They are inverse to each other, keep every binding through
all calls that come later, and say which calls fail. -/
theorem reached_afterAll (built : Built start) (calls : List Call) :
    (start.tables.afterAll calls).Reached start.tables (start.afterAll calls) := by
  have since := built.since.afterAll calls
  rw [afterAll_tables]
  refine ⟨⟨rfl,since.sound.sizes.1.symm⟩,since.sound.inverse,since.pendingSince,kept_afterAll _,fun call => ?_⟩
  exact ⟨Tables.answers _ call,congrArg Prod.fst (answer_tables _ call)⟩

/-- A class of the stylesheet, and another that is bound to a declaration it was not made for. -/
theorem reached_afterAll_forged :
    let start : Registry := ⟨"inl-".toList,[⟨⟨"a:1;".toList⟩,⟨"inl-0badc0de".toList⟩⟩],[]⟩
    let forged : Binding := ⟨⟨"b:2;".toList⟩,ClassId.derive "inl-".toList ⟨"c:3;".toList⟩⟩
    let calls : List Call := [.register forged,.allocate ⟨"c:3;".toList⟩,.allocate ⟨"a:1;".toList⟩]
    Stylesheet.seed "inl-".toList ".inl-0badc0de { a:1 }".toList = .ok start ∧
      start.afterAll calls = start.note forged ∧
      (start.tables.afterAll calls).Reached start.tables (start.note forged) := by
  intro start forged calls
  have seeded : Stylesheet.seed "inl-".toList ".inl-0badc0de { a:1 }".toList = .ok start := by
    rw [Stylesheet.seed_eq_ok_iff,Stylesheet.bindings,Stylesheet.rules_eq_lines (by decide)]
    decide
  have refused : start.afterAll calls = start.note forged := by decide +kernel
  have reached := reached_afterAll (.seeded seeded) calls
  rw [refused] at reached
  exact ⟨seeded,refused,reached⟩

end Registry

end StyleHoist
