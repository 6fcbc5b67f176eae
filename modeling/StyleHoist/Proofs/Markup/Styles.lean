import StyleHoist.Proofs.Plain.Refinement
import StyleHoist.Proofs.Stylesheet.RoundTrip

/-! Styles through a run over many documents. Each tag that is edited names the
classes of its styles and no others, and a declaration that the stylesheet did
not have gets one rule, however often it occurs. -/
namespace StyleHoist.Markup

open Registry

/-- The attributes that an outcome turned into classes or removed. -/
def appliedStyles (document : Text) (outcome : Outcome) : List StyleAttr :=
  applied (outcome.edits.map (·.source)) (styleAttrs document)

def stylesOf (document : Text) (tag : Span) : List StyleAttr :=
  (styleAttrs document).filter (·.tag = tag)

theorem appliedStyles_eq {document text : Text} {outcome : Outcome} {edits : List TagEdit}
    (assembled : assemble? document document 0 0 edits.reverse = some (text,outcome.edits)) :
    appliedStyles document outcome = applied (tagsOf edits) (styleAttrs document) := by
  have sources := congrArg (List.map Prod.fst) (map_assemble? assembled)
  simp only [List.map_map,Function.comp_def] at sources
  apply List.filter_congr
  intro attr _
  rw [sources,tagsOf,List.map_reverse]
  simp

/-- What hoisting one document does to a sound registry, and what its classes stand for. -/
theorem hoist_spec {document : Text} {registry last : Registry} {outcome : Outcome}
    (sound : registry.Sound) (hoisted : hoist document registry = (.ok outcome,last)) :
    Growth registry outcome.allocated last ∧
      (∃ ids, Piece.allocateAll registry (declared document (appliedStyles document outcome)) =
        .ok (ids,last)) ∧
      ∀ edit ∈ outcome.edits,
        last.StandFor edit.classes (declared document (stylesOf document edit.source)).eraseDups := by
  obtain ⟨plan,planned,assembled,whole,rfl⟩ := hoist_eq_ok hoisted
  have named : Named document registry (styleAttrs document) plan :=
    Plan.holds_of_addAll (fun follows added named => named.add sound follows added)
      (Named.start document registry) planned
  have mapped := map_assemble? assembled
  rw [congrArg Outcome.allocated whole,appliedStyles_eq assembled]
  refine ⟨named.grown,named.replayed,fun edit member => ?_⟩
  · have paired := List.mem_map_of_mem (f := fun edit => (edit.source,edit.classes)) member
    rw [mapped] at paired
    obtain ⟨planEdit,among,same⟩ := List.mem_map.mp paired
    obtain ⟨tag,add⟩ := Prod.mk.inj same
    have among := List.mem_reverse.mp among
    have standing := named.standing planEdit among
    rw [(named.grouped.filled planEdit among).2,tag,add] at standing
    exact standing

/-- Hoists documents one after the other, each with the classes of those before. -/
def hoistAll (registry : Registry) : List Text → Except Obstacle (List Outcome × Registry)
  | [] => .ok ([],registry)
  | document :: rest =>
    match hoist document registry with
    | (.error obstacle,_) => .error obstacle
    | (.ok outcome,next) =>
      match hoistAll next rest with
      | .error obstacle => .error obstacle
      | .ok (outcomes,last) => .ok (outcome :: outcomes,last)

theorem hoistAll_cons_ok {document : Text} {rest : List Text} {registry last : Registry}
    {outcomes : List Outcome} (hoisted : hoistAll registry (document :: rest) = .ok (outcomes,last)) :
    ∃ outcome next later, hoist document registry = (.ok outcome,next) ∧
      hoistAll next rest = .ok (later,last) ∧ outcomes = outcome :: later := by
  rw [hoistAll] at hoisted
  split at hoisted
  next => contradiction
  next outcome next first =>
    split at hoisted
    next => contradiction
    next later _ second =>
      cases hoisted
      exact ⟨outcome,next,later,first,second,rfl⟩

theorem length_of_hoistAll {documents : List Text} {registry last : Registry} {outcomes : List Outcome}
    (hoisted : hoistAll registry documents = .ok (outcomes,last)) : outcomes.length = documents.length := by
  induction documents generalizing registry outcomes with
  | nil =>
    cases hoisted
    rfl
  | cons document rest ih =>
    obtain ⟨outcome,next,later,-,second,rfl⟩ := hoistAll_cons_ok hoisted
    rw [List.length_cons,List.length_cons,ih second]

/-- What documents declare in tags that are edited, in the order of reading. -/
def declaredAll (documents : List Text) (outcomes : List Outcome) : List Declaration :=
  (documents.zip outcomes).flatMap fun pair => declared pair.1 (appliedStyles pair.1 pair.2)

theorem hoistAll_spec {documents : List Text} {registry last : Registry} {outcomes : List Outcome}
    (sound : registry.Sound) (hoisted : hoistAll registry documents = .ok (outcomes,last)) :
    Growth registry (outcomes.flatMap (·.allocated)) last ∧
      (∃ ids, Piece.allocateAll registry (declaredAll documents outcomes) = .ok (ids,last)) ∧
      List.Forall₂ (fun document outcome => ∀ edit ∈ outcome.edits,
        last.StandFor edit.classes (declared document (stylesOf document edit.source)).eraseDups)
        documents outcomes := by
  induction documents generalizing registry outcomes with
  | nil =>
    cases hoisted
    exact ⟨.done _,⟨[],rfl⟩,.nil⟩
  | cons document rest ih =>
    obtain ⟨outcome,next,later,first,second,rfl⟩ := hoistAll_cons_ok hoisted
    obtain ⟨grown,⟨front,replayed⟩,standing⟩ := hoist_spec sound first
    obtain ⟨more,⟨back,continued⟩,others⟩ := ih (grown.sound sound) second
    refine ⟨grown.trans more,⟨front ++ back,?_⟩,.cons (fun edit member => ?_) others⟩
    · exact Piece.allocateAll_append_ok.mpr ⟨front,next,back,replayed,continued,rfl⟩
    · exact (standing edit member).grow more

theorem canonical_of_mem_declaredAll {documents : List Text} {outcomes : List Outcome}
    {declaration : Declaration} (member : declaration ∈ declaredAll documents outcomes) :
    declaration.isEmpty = false ∧ ∃ raw, Declaration.normalize raw = declaration := by
  obtain ⟨pair,-,among⟩ := List.mem_flatMap.mp member
  obtain ⟨mapped,filled⟩ := List.mem_filter.mp among
  obtain ⟨attr,-,rfl⟩ := List.mem_map.mp mapped
  exact ⟨by simpa using filled,_,rfl⟩

/-- The classes of each edit are, in a registry, those of the styles of its tag, each once. -/
def NamesStyles (registry : Registry) (document : Text) (outcome : Outcome) : Prop :=
  ∀ edit ∈ outcome.edits, edit.classes.Nodup ∧
    edit.classes.map registry.owner =
      (declared document (stylesOf document edit.source)).eraseDups.map some ∧
    edit.classes.map some =
      (declared document (stylesOf document edit.source)).eraseDups.map registry.lookup

/-- A run makes one rule for each declaration that the stylesheet did not have, and the registry
read back from the stylesheet it writes has, for each edited tag, exactly its styles. -/
theorem hoistAll_names_styles {classPrefix css comment : Text} {registry last : Registry}
    {documents : List Text} {outcomes : List Outcome} (valid : Config.isValidPrefix classPrefix = true)
    (seeded : Stylesheet.seed classPrefix css = .ok registry) (oneLine : '\n' ∉ comment)
    (hoisted : hoistAll registry documents = .ok (outcomes,last)) :
    last.pending = outcomes.flatMap (·.allocated) ∧
      last.pending = (Piece.unknown registry (declaredAll documents outcomes)).eraseDups.map
        (fun declaration => ⟨declaration,ClassId.derive classPrefix declaration⟩) ∧
      ∃ reseeded, Stylesheet.seed classPrefix (Stylesheet.extend css comment last.pending) = .ok reseeded ∧
        List.Forall₂ (NamesStyles reseeded) documents outcomes := by
  have sound := Stylesheet.sound_of_seed seeded
  obtain ⟨grown,⟨ids,replayed⟩,standing⟩ := hoistAll_spec sound hoisted
  obtain ⟨added,same,fresh,-⟩ := Piece.growth_of_allocateAll replayed
  have equal : added = outcomes.flatMap (·.allocated) :=
    List.append_cancel_left (same.known.symm.trans grown.known)
  subst equal
  have derived : ∀ binding ∈ outcomes.flatMap (·.allocated),
      binding.id = ClassId.derive classPrefix binding.declaration := by
    intro binding member
    rw [grown.derived member,Stylesheet.classPrefix_of_seed seeded]
  have printable : ∀ binding ∈ outcomes.flatMap (·.allocated),
      Stylesheet.Printable classPrefix binding := by
    intro binding member
    have mapped := List.mem_map_of_mem (f := (·.declaration)) member
    rw [fresh,List.mem_eraseDups] at mapped
    exact ⟨derived binding member,canonical_of_mem_declaredAll (List.mem_of_mem_filter mapped)⟩
  obtain ⟨pending,reseeded⟩ := Stylesheet.seed_extend_of_growth
    (Stylesheet.lineFeed_not_mem_of_isValidPrefix valid) seeded oneLine grown printable
  have soundLast := grown.sound sound
  refine ⟨pending,?_,_,reseeded,standing.imp fun document outcome names edit member => ?_⟩
  · rw [pending,← fresh,List.map_map]
    conv_lhs => rw [← List.map_id (outcomes.flatMap (·.allocated))]
    apply List.map_congr_left
    intro binding member
    rw [Function.comp_apply,← derived binding member]
    rfl
  · have names := names edit member
    exact ⟨names.nodup soundLast (FirstSeen.nodup_eraseDups _),names.owners soundLast,
      names.lookups soundLast⟩

/-- Two documents with one declaration, which the empty stylesheet does not have. -/
theorem hoistAll_names_styles_twice :
    let documents : List Text := ["<p style=\"a:1\" style=\"\">".toList,"<b style=\" a:1;\">x".toList]
    ∃ registry outcomes last, Stylesheet.seed "inl-".toList [] = .ok registry ∧
      hoistAll registry documents = .ok (outcomes,last) ∧
      last.pending = outcomes.flatMap (·.allocated) ∧
      last.pending = (Piece.unknown registry (declaredAll documents outcomes)).eraseDups.map
        (fun declaration => ⟨declaration,ClassId.derive "inl-".toList declaration⟩) ∧
      ∃ reseeded, Stylesheet.seed "inl-".toList (Stylesheet.extend [] "new".toList last.pending) = .ok reseeded ∧
        List.Forall₂ (NamesStyles reseeded) documents outcomes := by
  intro documents
  have seeded : Stylesheet.seed "inl-".toList [] = .ok (Registry.empty "inl-".toList) := by
    rw [Stylesheet.seed_eq_ok_iff,Stylesheet.bindings_nil]
    rfl
  let first : List Piece :=
    [.tag ⟨"p".toList,[⟨[' '],"style".toList,some "a:1".toList⟩,⟨[' '],"style".toList,some []⟩],[],false⟩]
  let second : List Piece :=
    [.tag ⟨"b".toList,[⟨[' '],"style".toList,some " a:1;".toList⟩],[],false⟩,.text "x".toList]
  let binding := (Registry.empty "inl-".toList).fresh (Declaration.normalize "a:1".toList)
  have before : ∃ others, Piece.restyleAll (Registry.empty "inl-".toList) first =
      .ok (others,(Registry.empty "inl-".toList).append binding) := ⟨_,rfl⟩
  have after : ∃ others, Piece.restyleAll ((Registry.empty "inl-".toList).append binding) second =
      .ok (others,(Registry.empty "inl-".toList).append binding) := ⟨_,rfl⟩
  obtain ⟨_,restyled⟩ := before
  obtain ⟨_,again⟩ := after
  obtain ⟨one,hoisted,-⟩ := hoist_of_restyleAll (show Piece.arePlain first = true by decide) restyled
  obtain ⟨two,later,-⟩ := hoist_of_restyleAll (show Piece.arePlain second = true by decide) again
  have run : hoistAll (Registry.empty "inl-".toList) documents =
      .ok ([one,two],(Registry.empty "inl-".toList).append binding) := by
    have printed : documents = [Piece.printAll first,Piece.printAll second] := by decide
    rw [printed,hoistAll,hoisted]
    simp only [hoistAll,later]
  exact ⟨_,_,_,seeded,run,hoistAll_names_styles (by decide) seeded (by decide) run⟩

end StyleHoist.Markup
