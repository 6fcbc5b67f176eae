import StyleHoist.Proofs.Registry.Growth
import StyleHoist.Proofs.Result
import StyleHoist.Proofs.Stylesheet.Line

/-! A stylesheet extended by the rules of a run seeds the registry that the run
ended with. Printed rules are read back as they were made, the old rules are
read as before, and the bindings are registered in the order of their making. -/
namespace StyleHoist.Stylesheet

open Text

variable {classPrefix : Text}

theorem headName?_append (classPrefix : Text) {digits : Text} (long : digits.length = ClassId.digestLength)
    (hexadecimal : digits.all ClassId.isHexDigit = true) (rest : Text) :
    headName? classPrefix (classPrefix ++ digits ++ rest) = some (⟨classPrefix ++ digits⟩,rest) := by
  unfold headName?
  rw [List.append_assoc,after?_append]
  simp only [Option.bind_eq_bind,Option.bind_some]
  rw [List.take_append_of_le_length (by omega),List.drop_append_of_le_length (by omega),
    List.take_of_length_le (by omega),List.drop_of_length_le (by omega)]
  simp [long,hexadecimal]

theorem derive_digits (classPrefix : Text) (declaration : Declaration) :
    ∃ digits, (ClassId.derive classPrefix declaration).text = classPrefix ++ digits ∧
      digits.length = ClassId.digestLength ∧ digits.all ClassId.isHexDigit = true := by
  refine ⟨_,rfl,?_,?_⟩
  · rw [List.length_take,Digest.length_hex]
    rfl
  · rw [List.all_eq_true]
    intro c member
    exact List.elem_eq_true_of_mem (Digest.mem_hexDigits_of_mem_hex (List.mem_of_mem_take member))

private theorem body?_of_rule (body : Text) : body? (body ++ ['}']) = some body := by
  simp [body?,isTrail]

theorem lineRule?_rule {binding : Binding}
    (derived : binding.id = ClassId.derive classPrefix binding.declaration)
    (single : '\n' ∉ binding.declaration.text) :
    lineRule? classPrefix (rule binding) =
      some (binding.id,' ' :: binding.declaration.text ++ [' ']) := by
  obtain ⟨digits,named,long,hexadecimal⟩ := derive_digits classPrefix binding.declaration
  rw [← derived] at named
  let body := ' ' :: binding.declaration.text ++ [' ']
  have printed : rule binding = '.' :: (binding.id.text ++ ' ' :: '{' :: (body ++ ['}'])) := by
    simp [rule,body]
  have head := headName?_append classPrefix long hexadecimal
    (' ' :: '{' :: (body ++ ['}']))
  rw [← named] at head
  have inner : (body ++ ['}']).takeWhile (fun c => decide (c ≠ '\n')) = body ++ ['}'] := by
    rw [List.takeWhile_eq_self_iff]
    intro c member
    rw [decide_eq_true_eq]
    rintro rfl
    simp [body,single] at member
  rw [lineRule?,printed,ruleAt?]
  simp only [List.dropWhile_cons_of_neg (by decide : ¬isIndent '.' = true),after?,if_true,
    Option.bind_eq_bind,Option.bind_some,head]
  rw [List.dropWhile_cons_of_pos (by decide),List.dropWhile_cons_of_neg (by decide)]
  simp only [after?,if_true,Option.bind_some,inner,body?_of_rule,Option.map_some]
  rfl

/-- A binding whose rule, once printed, states just that binding. -/
def Printable (classPrefix : Text) (binding : Binding) : Prop :=
  binding.id = ClassId.derive classPrefix binding.declaration ∧
    binding.declaration.isEmpty = false ∧ ∃ raw, Declaration.normalize raw = binding.declaration

theorem lineFeed_not_mem_rule {binding : Binding} (single : '\n' ∉ classPrefix)
    (printable : Printable classPrefix binding) : '\n' ∉ rule binding := by
  obtain ⟨derived,-,raw,canonical⟩ := printable
  obtain ⟨digits,named,-,hexadecimal⟩ := derive_digits classPrefix binding.declaration
  rw [← derived] at named
  have plain : '\n' ∉ digits := by
    intro member
    exact absurd (List.all_eq_true.mp hexadecimal _ member) (by decide)
  have body := Declaration.lineFeed_not_mem_normalize raw
  rw [canonical] at body
  simp [rule,named,single,plain,body]

@[simp] theorem bindings_nil : bindings classPrefix [] = [] := by
  rw [bindings,rules_nil,List.map_nil,List.filter_nil]

theorem bindings_append_lineFeed (single : '\n' ∉ classPrefix) (text rest : Text) :
    bindings classPrefix (text ++ '\n' :: rest) =
      bindings classPrefix text ++ bindings classPrefix rest := by
  simp only [bindings,rules_append_lineFeed single,List.map_append,List.filter_append]

theorem bindings_rule (single : '\n' ∉ classPrefix) {binding : Binding}
    (printable : Printable classPrefix binding) : bindings classPrefix (rule binding) = [binding] := by
  have line := rules_line classPrefix (lineFeed_not_mem_rule single printable)
  obtain ⟨derived,filled,raw,canonical⟩ := printable
  have body := Declaration.lineFeed_not_mem_normalize raw
  have restored := Declaration.normalize_between raw
  rw [canonical] at body restored
  rw [lineRule?_rule derived body] at line
  rw [bindings,line,Option.toList_some,List.map_singleton,restored,List.filter_singleton,filled]
  rfl

theorem bindings_block (single : '\n' ∉ classPrefix) {comment : Text} (oneLine : '\n' ∉ comment)
    {list : List Binding} (printable : ∀ binding ∈ list, Printable classPrefix binding) :
    bindings classPrefix (block comment list) = list := by
  have lines : bindings classPrefix (list.flatMap fun binding => rule binding ++ ['\n']) = list := by
    induction list with
    | nil => exact bindings_nil
    | cons binding rest ih =>
      have head := bindings_rule single (printable binding List.mem_cons_self)
      have tail := ih fun other member => printable other (List.mem_cons_of_mem _ member)
      rw [List.flatMap_cons,List.append_assoc,List.singleton_append,bindings_append_lineFeed single,
        head,tail,List.singleton_append]
  have heading : bindings classPrefix ("/* ".toList ++ comment ++ " */".toList) = [] := by
    have whole : '\n' ∉ "/* ".toList ++ comment ++ " */".toList := by simp [oneLine]
    have other : lineRule? classPrefix ("/* ".toList ++ comment ++ " */".toList) = none := rfl
    rw [bindings,rules_line classPrefix whole,other]
    rfl
  have split : block comment list = ("/* ".toList ++ comment ++ " */".toList) ++
      '\n' :: list.flatMap fun binding => rule binding ++ ['\n'] := by
    simp [block]
  rw [split,bindings_append_lineFeed single,heading,lines,List.nil_append]

theorem bindings_extend (single : '\n' ∉ classPrefix) (existing : Text) {comment : Text}
    (oneLine : '\n' ∉ comment) {list : List Binding}
    (printable : ∀ binding ∈ list, Printable classPrefix binding) :
    bindings classPrefix (extend existing comment list) = bindings classPrefix existing ++ list := by
  have added := bindings_block single oneLine printable
  unfold extend
  split
  next none => rw [none,List.append_nil]
  next =>
    unfold gap
    split
    next empty =>
      rw [List.getLast?_eq_none_iff.mp empty,List.append_nil,bindings_nil,List.nil_append,List.nil_append,added]
    next =>
      rw [List.append_assoc,List.singleton_append,bindings_append_lineFeed single,added]
    next =>
      rw [List.append_assoc,List.cons_append,List.singleton_append,bindings_append_lineFeed single]
      have blankLine := bindings_append_lineFeed single [] (block comment list)
      rw [List.nil_append,bindings_nil,List.nil_append] at blankLine
      rw [blankLine,added]

theorem prefix_extend (existing comment : Text) (list : List Binding) :
    existing <+: extend existing comment list := by
  unfold extend
  split
  · exact List.prefix_rfl
  · rw [List.append_assoc]
    exact List.prefix_append _ _

theorem seed_eq_ok_iff {text : Text} {registry : Registry} : seed classPrefix text = .ok registry ↔
    (bindings classPrefix text).foldlM Registry.register (Registry.empty classPrefix) = .ok registry := by
  unfold seed
  cases (bindings classPrefix text).foldlM Registry.register (Registry.empty classPrefix) <;> simp

private theorem foldlM_register_frame {list : List Binding} {first last : Registry}
    (registered : list.foldlM Registry.register first = .ok last) :
    last.classPrefix = first.classPrefix ∧ last.pending = first.pending ∧ (first.Sound → last.Sound) := by
  refine foldlM_ok_kept (fun _ reached => reached.classPrefix = first.classPrefix ∧ reached.pending = first.pending ∧
    (first.Sound → reached.Sound)) ?_ ⟨rfl,rfl,id⟩ registered
  rintro front binding before after ⟨samePrefix,samePending,sound⟩ step
  refine ⟨?_,?_,fun start => Registry.sound_register (sound start) step⟩
  · rcases Registry.register_cases step with ⟨rfl,-⟩ | ⟨-,-,rfl⟩ <;> exact samePrefix
  · rcases Registry.register_cases step with ⟨rfl,-⟩ | ⟨-,-,rfl⟩ <;> exact samePending

section Seeded

variable {css : Text} {registry : Registry}

theorem classPrefix_of_seed (seeded : seed classPrefix css = .ok registry) :
    registry.classPrefix = classPrefix :=
  (foldlM_register_frame (seed_eq_ok_iff.mp seeded)).1

theorem pending_of_seed (seeded : seed classPrefix css = .ok registry) : registry.pending = [] :=
  (foldlM_register_frame (seed_eq_ok_iff.mp seeded)).2.1

theorem sound_of_seed (seeded : seed classPrefix css = .ok registry) : registry.Sound :=
  (foldlM_register_frame (seed_eq_ok_iff.mp seeded)).2.2 (Registry.sound_empty _)

theorem seed_extend_of_growth (single : '\n' ∉ classPrefix) (seeded : seed classPrefix css = .ok registry)
    {comment : Text} (oneLine : '\n' ∉ comment) {added : List Binding} {last : Registry}
    (grown : Registry.Growth registry added last)
    (printable : ∀ binding ∈ added, Printable classPrefix binding) :
    last.pending = added ∧
      seed classPrefix (extend css comment last.pending) = .ok { last with pending := [] } := by
  have pending : last.pending = added := by
    rw [grown.pending,pending_of_seed seeded,List.nil_append]
  have start : { registry with pending := [] } = registry := by
    rw [← pending_of_seed seeded]
  have replayed := grown.foldlM_register
  rw [start] at replayed
  refine ⟨pending,seed_eq_ok_iff.mpr ?_⟩
  rw [pending,bindings_extend single css oneLine printable,List.foldlM_append,seed_eq_ok_iff.mp seeded]
  exact replayed

end Seeded

/-- Whatever is allocated on a seeded registry, the extended stylesheet seeds the registry that
was reached, with nothing pending, and begins with the old text. -/
theorem seed_extend_attemptAll {classPrefix css comment : Text} {registry : Registry}
    {declarations : List Declaration} (valid : Config.isValidPrefix classPrefix = true)
    (seeded : seed classPrefix css = .ok registry)
    (canonical : ∀ declaration ∈ declarations, declaration.isEmpty = false ∧
      ∃ raw, Declaration.normalize raw = declaration)
    (oneLine : '\n' ∉ comment) :
    let last := registry.attemptAll declarations
    seed classPrefix (extend css comment last.pending) = .ok { last with pending := [] } ∧
      css <+: extend css comment last.pending := by
  intro last
  obtain ⟨added,grown,asked⟩ := registry.growth_attemptAll declarations
  have printable : ∀ binding ∈ added, Printable classPrefix binding := by
    intro binding member
    have derived := grown.derived member
    rw [classPrefix_of_seed seeded] at derived
    exact ⟨derived,canonical _ (asked binding member)⟩
  have single := lineFeed_not_mem_of_isValidPrefix valid
  exact ⟨(seed_extend_of_growth single seeded oneLine grown printable).2,prefix_extend _ _ _⟩

/-- An old text that ends in a carriage return, and new bodies with braces and a comment's end. -/
theorem seed_extend_attemptAll_braces :
    ∃ registry, seed "inl-".toList ".inl-0badc0de { a:1 }\r".toList = .ok registry ∧
      let last := registry.attemptAll
        [Declaration.normalize "b:\x7d\x7b".toList,Declaration.normalize "c:'*/'".toList]
      seed "inl-".toList (extend ".inl-0badc0de { a:1 }\r".toList "new */".toList last.pending) =
          .ok { last with pending := [] } ∧
        ".inl-0badc0de { a:1 }\r".toList <+:
          extend ".inl-0badc0de { a:1 }\r".toList "new */".toList last.pending := by
  have seeded : seed "inl-".toList ".inl-0badc0de { a:1 }\r".toList =
      .ok ⟨"inl-".toList,[⟨⟨"a:1;".toList⟩,⟨"inl-0badc0de".toList⟩⟩],[]⟩ := by
    rw [seed_eq_ok_iff,bindings,rules_eq_lines (by decide)]
    decide
  refine ⟨_,seeded,seed_extend_attemptAll (by decide) seeded ?_ (by decide)⟩
  intro declaration member
  rcases List.mem_pair.mp member with rfl | rfl
  · exact ⟨by decide,_,rfl⟩
  · exact ⟨by decide,_,rfl⟩

end StyleHoist.Stylesheet
