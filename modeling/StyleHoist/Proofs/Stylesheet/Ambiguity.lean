import StyleHoist.Proofs.Stylesheet.RoundTrip

/-! When a class stands for two declarations. A registry remembers the first line
of each declaration and forgets a later line that gives the declaration another
class; the class of a forgotten line is not guarded. Two lines of an extended
stylesheet can therefore disagree, but only where one of them was forgotten. -/
namespace StyleHoist.Stylesheet

/-- Whether two lines give one class different declarations. -/
def Ambiguous (lines : List Binding) : Prop :=
  ∃ first ∈ lines, ∃ second ∈ lines, first.id = second.id ∧ first.declaration ≠ second.declaration

instance (lines : List Binding) : Decidable (Ambiguous lines) :=
  inferInstanceAs (Decidable (∃ first ∈ lines, ∃ second ∈ lines,
    first.id = second.id ∧ first.declaration ≠ second.declaration))

def keep (kept : List Binding) (line : Binding) : List Binding :=
  if line.declaration ∈ kept.map (·.declaration) then kept else kept ++ [line]

/-- The first line of each declaration. -/
def recorded (lines : List Binding) : List Binding := lines.foldl keep []

/-- Whether a kept line has the class of a new one for another declaration. -/
def Conflicts (kept : List Binding) (line : Binding) : Prop :=
  ∃ other ∈ kept, other.id = line.id ∧ other.declaration ≠ line.declaration

theorem register_fails_iff {registry : Registry} (sound : registry.Sound) (line : Binding) :
    (∃ collision, registry.register line = .error collision) ↔ Conflicts registry.known line := by
  constructor
  · rintro ⟨collision,failed⟩
    unfold Registry.register at failed
    cases conflict : registry.conflict? line with
    | none =>
      simp only [conflict] at failed
      split at failed <;> contradiction
    | some found =>
      obtain ⟨existing,taken,different,-⟩ := Registry.conflict?_eq_some_iff.mp conflict
      exact ⟨_,Registry.mem_of_owner taken,rfl,different⟩
  · rintro ⟨other,member,same,different⟩
    have taken : registry.owner line.id = some other.declaration := by
      rw [sound.owner_eq_some_iff,← same]
      exact member
    have conflict := Registry.conflict?_eq_some_iff.mpr ⟨_,taken,different,rfl⟩
    exact ⟨_,by rw [Registry.register,conflict]⟩

theorem known_of_register {registry next : Registry} {line : Binding}
    (registered : registry.register line = .ok next) : next.known = keep registry.known line := by
  unfold keep
  rcases Registry.register_cases registered with ⟨rfl,known⟩ | ⟨unknown,-,rfl⟩
  · rw [if_pos known]
  · rw [if_neg (Registry.lookup_eq_none_iff.mp unknown),Registry.note]

private theorem foldlM_register_fails_iff {lines : List Binding} {registry : Registry}
    (sound : registry.Sound) :
    (∃ collision, lines.foldlM Registry.register registry = .error collision) ↔
      ∃ before line after, lines = before ++ line :: after ∧
        Conflicts (before.foldl keep registry.known) line := by
  induction lines generalizing registry with
  | nil => simp [pure,Except.pure]
  | cons line rest ih =>
    rw [List.foldlM_cons]
    cases step : registry.register line with
    | error collision =>
      refine iff_of_true ⟨collision,rfl⟩ ⟨[],line,rest,rfl,?_⟩
      exact (register_fails_iff sound line).mp ⟨collision,step⟩
    | ok next =>
      have later := ih (Registry.sound_register sound step)
      rw [known_of_register step] at later
      refine later.trans ⟨?_,?_⟩
      · rintro ⟨before,other,after,rfl,conflict⟩
        exact ⟨line :: before,other,after,rfl,conflict⟩
      · rintro ⟨before,other,after,split,conflict⟩
        cases before with
        | nil =>
          obtain ⟨rfl,-⟩ := List.cons.inj split
          obtain ⟨collision,failed⟩ := (register_fails_iff sound line).mpr conflict
          rw [step] at failed
          contradiction
        | cons first before =>
          obtain ⟨rfl,rfl⟩ := List.cons.inj split
          exact ⟨before,other,after,rfl,conflict⟩

variable {classPrefix css : Text} {registry : Registry}

theorem seed_fails_iff : (∃ collision, seed classPrefix css = .error collision) ↔
    ∃ before line after, bindings classPrefix css = before ++ line :: after ∧
      Conflicts (recorded before) line := by
  refine Iff.trans ?_ (foldlM_register_fails_iff (Registry.sound_empty classPrefix))
  unfold seed
  cases (bindings classPrefix css).foldlM Registry.register (Registry.empty classPrefix) <;> simp

theorem known_of_seed (seeded : seed classPrefix css = .ok registry) :
    registry.known = recorded (bindings classPrefix css) := by
  refine foldlM_ok_kept (fun front reached => reached.known = recorded front) ?_ rfl (seed_eq_ok_iff.mp seeded)
  intro front line before after same step
  rw [known_of_register step,same]
  rw [recorded,recorded,List.foldl_append,List.foldl_cons,List.foldl_nil]

/-- Of two known bindings none disagrees with the other, so one of two lines that do is not known. -/
theorem exists_unknown_of_ambiguous {lines : List Binding} (sound : registry.Sound)
    (ambiguous : Ambiguous lines) : ∃ line ∈ lines, line ∉ registry.known ∧ Conflicts lines line := by
  obtain ⟨first,inFirst,second,inSecond,same,different⟩ := ambiguous
  by_cases knownFirst : first ∈ registry.known
  · have forgotten : second ∉ registry.known := by
      intro knownSecond
      exact different (congrArg Binding.declaration (sound.eq_of_id knownFirst knownSecond same))
    exact ⟨second,inSecond,forgotten,first,inFirst,same,different⟩
  · exact ⟨first,inFirst,knownFirst,second,inSecond,same.symm,different.symm⟩

theorem allocate_fails_iff (sound : registry.Sound) (declaration : Declaration) :
    (∃ collision, registry.allocate declaration = .error collision) ↔
      (∀ line ∈ registry.known, line.declaration ≠ declaration) ∧
        Conflicts registry.known (registry.fresh declaration) := by
  simp only [Registry.allocate_eq_error_iff,Registry.lookup_eq_none_iff,List.mem_map,not_exists,not_and]
  constructor
  · rintro ⟨-,unknown,existing,taken,-⟩
    exact ⟨unknown,_,Registry.mem_of_owner taken,rfl,unknown _ (Registry.mem_of_owner taken)⟩
  · rintro ⟨unknown,other,member,same,-⟩
    have taken : registry.owner (registry.fresh declaration).id = some other.declaration := by
      rw [sound.owner_eq_some_iff,← same]
      exact member
    exact ⟨_,unknown,_,taken,rfl⟩

/-- Reading fails at a line whose class a kept line has for another declaration; an extended
stylesheet is ambiguous exactly where a line of the old text, forgotten because an earlier one had
its declaration, shares its class with another declaration; and an allocation fails exactly when
a kept line, or a rule made before, has the derived class. -/
theorem ambiguous_extend_iff {classPrefix : Text} (valid : Config.isValidPrefix classPrefix = true) :
    (∀ css, (∃ collision, seed classPrefix css = .error collision) ↔
      ∃ before line after, bindings classPrefix css = before ++ line :: after ∧
        Conflicts (recorded before) line) ∧
    ∀ (css comment : Text) (registry : Registry) (declarations : List Declaration),
      seed classPrefix css = .ok registry →
      (∀ declaration ∈ declarations, declaration.isEmpty = false ∧
        ∃ raw, Declaration.normalize raw = declaration) →
      '\n' ∉ comment →
      let last := registry.attemptAll declarations
      let old := bindings classPrefix css
      let lines := bindings classPrefix (extend css comment last.pending)
      (Ambiguous lines ↔ ∃ line ∈ old, line ∉ recorded old ∧ Conflicts lines line) ∧
        ∀ declaration, (∃ collision, last.allocate declaration = .error collision) ↔
          (∀ line ∈ recorded old ++ last.pending, line.declaration ≠ declaration) ∧
            Conflicts (recorded old ++ last.pending) ⟨declaration,ClassId.derive classPrefix declaration⟩ := by
  refine ⟨fun css => seed_fails_iff,?_⟩
  intro css comment registry declarations seeded canonical oneLine last old lines
  obtain ⟨added,grown,asked⟩ := registry.growth_attemptAll declarations
  have samePrefix := classPrefix_of_seed seeded
  have printable : ∀ binding ∈ added, Printable classPrefix binding := fun binding member =>
    ⟨samePrefix ▸ grown.derived member,canonical _ (asked binding member)⟩
  have single := lineFeed_not_mem_of_isValidPrefix valid
  have pending := (seed_extend_of_growth single seeded oneLine grown printable).1
  have sound : last.Sound := grown.sound (sound_of_seed seeded)
  have known : last.known = recorded old ++ last.pending := by
    rw [grown.known,known_of_seed seeded,pending]
  have read : lines = old ++ last.pending :=
    bindings_extend single css oneLine (pending.symm ▸ printable)
  refine ⟨⟨?_,?_⟩,?_⟩
  · intro ambiguous
    obtain ⟨line,member,forgotten,conflict⟩ := exists_unknown_of_ambiguous sound ambiguous
    rw [known,List.mem_append,not_or] at forgotten
    rw [read] at member
    exact ⟨line,(List.mem_append.mp member).resolve_right forgotten.2,forgotten.1,conflict⟩
  · rintro ⟨line,member,-,other,present,same,different⟩
    exact ⟨other,present,line,read ▸ List.mem_append_left _ member,same,different⟩
  · intro declaration
    have exactly := allocate_fails_iff sound declaration
    rwa [known,Registry.fresh,grown.classPrefix,samePrefix] at exactly

/-- The second line gives a known declaration another class, and the third line uses that class. -/
def sharedClass : Text :=
  ".inl-0badc0de { a:1 }\n.inl-0badc0df { a:1 }\n.inl-0badc0df { b:2 }".toList

private theorem bindings_sharedClass : bindings "inl-".toList sharedClass =
    [⟨⟨"a:1;".toList⟩,⟨"inl-0badc0de".toList⟩⟩,⟨⟨"a:1;".toList⟩,⟨"inl-0badc0df".toList⟩⟩,
      ⟨⟨"b:2;".toList⟩,⟨"inl-0badc0df".toList⟩⟩] := by
  rw [bindings,rules_eq_lines (by decide)]
  decide

private theorem seed_sharedClass : seed "inl-".toList sharedClass = .ok ⟨"inl-".toList,
    [⟨⟨"a:1;".toList⟩,⟨"inl-0badc0de".toList⟩⟩,⟨⟨"b:2;".toList⟩,⟨"inl-0badc0df".toList⟩⟩],[]⟩ := by
  rw [seed_eq_ok_iff,bindings_sharedClass]
  decide

theorem ambiguous_extend_iff_sharedClass :
    Config.isValidPrefix "inl-".toList = true ∧
    ∃ registry, seed "inl-".toList sharedClass = .ok registry ∧
      let last := registry.attemptAll [Declaration.normalize "a:1".toList]
      Ambiguous (bindings "inl-".toList (extend sharedClass "new".toList last.pending)) := by
  have valid : Config.isValidPrefix "inl-".toList = true := by decide
  refine ⟨valid,_,seed_sharedClass,?_⟩
  have canonical : ∀ declaration ∈ [Declaration.normalize "a:1".toList],
      declaration.isEmpty = false ∧ ∃ raw, Declaration.normalize raw = declaration := by
    intro declaration member
    rw [List.mem_singleton.mp member]
    exact ⟨by decide,_,rfl⟩
  have exactly := (ambiguous_extend_iff valid).2 sharedClass "new".toList _ _ seed_sharedClass
    canonical (by decide)
  refine exactly.1.mpr ⟨⟨⟨"a:1;".toList⟩,⟨"inl-0badc0df".toList⟩⟩,?_,?_,
    ⟨⟨"b:2;".toList⟩,⟨"inl-0badc0df".toList⟩⟩,?_,rfl,by decide⟩
  · rw [bindings_sharedClass]
    decide
  · rw [bindings_sharedClass]
    decide
  · rw [bindings,rules_eq_lines (by decide)]
    decide

/-- Reading forgets the second line, so it does not see that the third one shares its class. -/
theorem seed_accepts_sharedClass :
    (∃ registry, seed "inl-".toList sharedClass = .ok registry) ∧
      Ambiguous (bindings "inl-".toList sharedClass) := by
  refine ⟨⟨_,seed_sharedClass⟩,?_⟩
  rw [bindings_sharedClass]
  decide

end StyleHoist.Stylesheet
