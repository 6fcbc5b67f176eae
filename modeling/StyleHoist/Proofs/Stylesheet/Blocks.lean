import StyleHoist.Proofs.Markup.Batches

/-! Blocks appended to a stylesheet one after the other. Every rule of a block has
a line of its own, and no block repeats what is stated before it. -/
namespace StyleHoist.Stylesheet

variable {classPrefix css comment : Text} {binding : Binding} {added : List Binding}

/-- The text has a line that is the rule of a binding. -/
def States (text : Text) (binding : Binding) : Prop := '\n' :: rule binding ++ ['\n'] <:+: text

theorem States.append_left {text : Text} (states : States text binding) (front : Text) :
    States (front ++ text) binding :=
  states.trans (List.suffix_append front text).isInfix

theorem states_rules (member : binding ∈ added) :
    States ('\n' :: added.flatMap fun binding => rule binding ++ ['\n']) binding := by
  induction added with
  | nil => cases member
  | cons head rest ih =>
    rw [List.flatMap_cons]
    by_cases same : binding = head
    · subst same
      exact ⟨[],rest.flatMap fun binding => rule binding ++ ['\n'],by simp⟩
    · have later := ih ((List.mem_cons.mp member).resolve_left same)
      have front := later.append_left ('\n' :: rule head)
      simpa using front

theorem states_extend (member : binding ∈ added) : States (extend css comment added) binding := by
  have nonempty : added ≠ [] := List.ne_nil_of_mem member
  have lines := (states_rules member).append_left (css ++ gap css ++ "/* ".toList ++ comment ++ " */".toList)
  rw [extend,if_neg nonempty,block]
  simpa using lines

/-- Appends blocks of rules, each under its comment. -/
def extendAll (css : Text) (blocks : List (Text × List Binding)) : Text :=
  blocks.foldl (fun text block => extend text block.1 block.2) css

theorem extendAll_concat (css : Text) (blocks : List (Text × List Binding)) (comment : Text) (added : List Binding) :
    extendAll css (blocks ++ [(comment,added)]) = extend (extendAll css blocks) comment added := by
  simp [extendAll]

/-- Blocks can be read back, and make known what they state and no more. -/
def Fresh (classPrefix css : Text) (blocks : List (Text × List Binding)) : Prop :=
  ∃ first last, seed classPrefix css = .ok first ∧ seed classPrefix (extendAll css blocks) = .ok last ∧
    last.known = first.known ++ blocks.flatMap (·.2)

theorem Fresh.nodup {blocks : List (Text × List Binding)} (fresh : Fresh classPrefix css blocks) :
    ∃ first, seed classPrefix css = .ok first ∧
      ((first.known ++ blocks.flatMap (·.2)).map (·.declaration)).Nodup := by
  obtain ⟨first,last,start,final,known⟩ := fresh
  exact ⟨first,start,known ▸ (sound_of_seed final).declarations⟩

theorem fresh_nil {first : Registry} (seeded : seed classPrefix css = .ok first) : Fresh classPrefix css [] :=
  ⟨first,first,seeded,seeded,by simp⟩

/-- The rules that a run over documents makes can be appended without repeating any. -/
theorem Fresh.concat (valid : Config.isValidPrefix classPrefix = true) (oneLine : '\n' ∉ comment)
    {blocks : List (Text × List Binding)} (fresh : Fresh classPrefix css blocks) {registry last : Registry}
    (seeded : seed classPrefix (extendAll css blocks) = .ok registry) {documents : List Text}
    {outcomes : List Markup.Outcome} (hoisted : Markup.hoistAll registry documents = .ok (outcomes,last)) :
    Fresh classPrefix css (blocks ++ [(comment,last.pending)]) := by
  obtain ⟨first,middle,start,later,known⟩ := fresh
  obtain rfl : middle = registry := by simpa [later] using seeded
  have final := Markup.seed_extend_of_hoistAll valid oneLine seeded hoisted
  have grown := (Markup.hoistAll_spec (sound_of_seed seeded) hoisted).1
  refine ⟨first,_,start,by rw [extendAll_concat]; exact final,?_⟩
  have pending := grown.pending
  rw [pending_of_seed seeded,List.nil_append] at pending
  simp [grown.known,known,pending]

end StyleHoist.Stylesheet
