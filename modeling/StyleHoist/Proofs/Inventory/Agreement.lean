import StyleHoist.Proofs.Conversion.Commit
import StyleHoist.Proofs.Conversion.Replanning
import StyleHoist.Proofs.Inventory.Listing
import StyleHoist.Proofs.Markup.Bounds

/-! What an inventory foretells of a conversion. Both allocate what the documents
declare, in the order of reading. The inventory takes every style by itself, the
conversion by tags, so that the two agree where no tag overlaps another. -/
namespace StyleHoist

open Markup Procedure Attempt

/-- No document that can be read has a tag that overlaps another. -/
def Sources.TagsApart (sources : Sources) : Prop :=
  ∀ source ∈ sources.documents, ∀ text, source.content = .ok text → Markup.TagsApart text

/-- No document that can be read has a class attribute that overlaps a style of its tag. -/
def Sources.ClassesApart (sources : Sources) : Prop :=
  ∀ source ∈ sources.documents, ∀ text, source.content = .ok text → Markup.ClassesApart text

theorem Sources.sound_of_gather {project : Project} {paths : List Path} {sources : Sources} {world later : World}
    (done : (gather project paths).toProcedure.run world = (.ok sources,later)) :
    sources.registry.Sound ∧ sources.registry.pending = [] := by
  rw [gather] at done
  obtain ⟨css,first,-,onwards⟩ := run_bind_eq_ok.mp done
  obtain ⟨registry,second,seeded,onwards⟩ := run_bind_eq_ok.mp onwards
  obtain ⟨selected,third,-,onwards⟩ := run_bind_eq_ok.mp onwards
  obtain ⟨documents,fourth,-,ended⟩ := run_bind_eq_ok.mp onwards
  cases ended
  have seeded : seed project css = .ok registry := congrArg Prod.fst seeded
  unfold seed at seeded
  split at seeded
  next known read =>
    cases seeded
    exact ⟨Stylesheet.sound_of_seed read,Stylesheet.pending_of_seed read⟩
  next => contradiction

namespace Conversion

/-- The number of attributes that became a class. -/
def converted : Conversion → Nat := total fun outcome => outcome.allocated.length + outcome.reused

theorem total_planned (count : Outcome → Nat) {sources : List Source} {outcomes : List Outcome}
    (even : sources.length = outcomes.length) :
    (sources.zipWith planned outcomes).foldr (fun document sum => count document.outcome + sum) 0 =
      (outcomes.map count).sum := by
  induction sources generalizing outcomes with
  | nil =>
    obtain rfl := List.eq_nil_of_length_eq_zero even.symm
    rfl
  | cons source rest ih =>
    cases outcomes with
    | nil => contradiction
    | cons outcome others =>
      rw [List.zipWith_cons_cons,List.foldr_cons,ih (Nat.succ.inj even),List.map_cons,List.sum_cons]
      rfl

theorem planDocument_of_apart (registry : Registry) {source : Source}
    (apart : ∀ text, source.content = .ok text → Markup.TagsApart text ∧ Markup.ClassesApart text) :
    match source.classes registry with
    | .ok last => ∃ document, planDocument registry source = .ok (document,last)
    | .error failure => planDocument registry source = .error failure := by
  rw [Source.classes,planDocument,Source.text]
  cases content : source.content with
  | error cause => rfl
  | ok text =>
    obtain ⟨tags,classes⟩ := apart text content
    have hoisted := hoist_of_apart tags classes registry
    simp only [Bind.bind,Except.bind]
    cases allocated : Piece.allocateAll registry (declared text (styleAttrs text)) with
    | error collision =>
      rw [allocated] at hoisted
      rcases run : hoist text registry with ⟨result,last⟩
      rw [run] at hoisted
      cases hoisted
      rfl
    | ok pair =>
      rw [allocated] at hoisted
      obtain ⟨outcome,run⟩ := hoisted
      exact ⟨planned source outcome,by simp only [run]; rfl⟩

/-- Where nothing overlaps, a conversion goes through the sources as the allocation of what they
declare does. -/
theorem planDocuments_of_apart {sources : List Source} (registry : Registry)
    (apart : ∀ source ∈ sources, ∀ text, source.content = .ok text →
      Markup.TagsApart text ∧ Markup.ClassesApart text) :
    match sources.foldlM Source.classes registry with
    | .ok last => ∃ documents, planDocuments registry sources = .ok (documents,last)
    | .error failure => planDocuments registry sources = .error failure := by
  induction sources generalizing registry with
  | nil => exact ⟨[],rfl⟩
  | cons source rest ih =>
    have step := planDocument_of_apart registry (apart source List.mem_cons_self)
    rw [List.foldlM_cons,planDocuments]
    simp only [Bind.bind,Except.bind]
    cases classes : source.classes registry with
    | error failure =>
      rw [classes] at step
      simp only [step]
    | ok middle =>
      rw [classes] at step
      obtain ⟨document,first⟩ := step
      have later := ih middle fun other member => apart other (List.mem_cons_of_mem _ member)
      simp only [first]
      cases finished : rest.foldlM Source.classes middle with
      | error failure =>
        rw [finished] at later
        simp only [later]
      | ok last =>
        rw [finished] at later
        obtain ⟨documents,second⟩ := later
        exact ⟨document :: documents,by simp only [second]⟩

end Conversion

namespace Inventory

def Entry.binding (entry : Entry) : Binding := ⟨entry.declaration,entry.id⟩

/-- The new classes, the converted and the removed attributes and the warnings of an inventory are
those of a conversion. -/
structure Agrees (inventory : Inventory) (conversion : Conversion) : Prop where
  added : ∀ binding, (∃ entry ∈ inventory.entries, entry.existing = false ∧ entry.binding = binding) ↔
    binding ∈ conversion.added
  converted : (inventory.entries.map (·.occurrences)).sum = conversion.converted
  empty : inventory.empty = conversion.stripped
  warned : inventory.warnings.length = conversion.warned

/-- Both fail with one failure, or both succeed and agree. -/
def Concurs : Except Failure Inventory → Except Failure Conversion → Prop
  | .ok inventory,.ok conversion => inventory.Agrees conversion
  | .error first,.error second => first = second
  | _,_ => False

variable {first registry : Registry} {seen : List Declaration} {empty warned : Nat} {inventory : Inventory}
  {texts : List Text} {outcomes : List Outcome}

theorem Listed.mem_pending_iff (listed : Listed first seen empty warned inventory registry) (sound : first.Sound)
    (none : first.pending = []) (binding : Binding) :
    (∃ entry ∈ inventory.entries, entry.existing = false ∧ entry.binding = binding) ↔ binding ∈ registry.pending := by
  obtain ⟨ids,replayed⟩ := listed.replayed
  obtain ⟨added,grown,fresh,-⟩ := Piece.growth_of_allocateAll replayed
  rw [grown.pending,none,List.nil_append]
  constructor
  · rintro ⟨entry,member,new,rfl⟩
    obtain ⟨found,existing⟩ := listed.classes entry member
    rw [new,eq_comm,Option.isSome_eq_false_iff,Option.isNone_iff_eq_none,Registry.lookup_eq_none_iff] at existing
    have known := Registry.mem_of_lookup found
    rw [grown.known,List.mem_append] at known
    exact known.resolve_left fun old => existing (List.mem_map_of_mem old)
  · intro member
    have mapped := List.mem_map_of_mem (f := (·.declaration)) member
    rw [fresh,List.mem_eraseDups,Piece.unknown,List.mem_filter,← List.mem_eraseDups,← listed.declarations] at mapped
    obtain ⟨entry,among,same⟩ := List.mem_map.mp mapped.1
    obtain ⟨found,existing⟩ := listed.classes entry among
    have known : binding ∈ registry.known := grown.known ▸ List.mem_append_right _ member
    have bound := (grown.sound sound).lookup_eq_some_iff.mpr known
    rw [same] at found existing
    refine ⟨entry,among,?_,?_⟩
    · rw [existing,Option.isSome_eq_false_iff]
      exact mapped.2
    · rw [Entry.binding,same,Option.some.inj (found.symm.trans bound)]

theorem ofSources_eq_ok {sources : Sources} (taken : ofSources sources = .ok inventory) :
    ∃ texts listing last, sources.documents.map (·.content) = texts.map .ok ∧
      sources.documents.foldlM Source.classes sources.registry = .ok last ∧
      Listed sources.registry (stylesOfAll texts) (texts.map fun text => empties text (styleAttrs text)).sum
        (texts.map fun text => (warningsOf text).length).sum listing last ∧
      inventory = { listing with entries := listing.entries.mergeSort Entry.precedes } := by
  have run := (listed_start sources.registry).foldlM_addDocument sources.documents
  rw [ofSources] at taken
  cases classes : sources.documents.foldlM Source.classes sources.registry with
  | error failure =>
    rw [classes] at run
    simp [run,Bind.bind,Except.bind] at taken
  | ok last =>
    rw [classes] at run
    obtain ⟨texts,listing,contents,done,listed⟩ := run
    simp only [done,Bind.bind,Except.bind,Except.ok.injEq] at taken
    exact ⟨texts,listing,last,contents,rfl,by simpa using listed,taken.symm⟩

theorem tallies_of_hoistAll {last : Registry} (hoisted : hoistAll registry texts = .ok (outcomes,last)) :
    List.Forall₂ (fun text outcome => outcome.Tallies text) texts outcomes := by
  induction texts generalizing registry outcomes with
  | nil =>
    cases hoisted
    exact .nil
  | cons text rest ih =>
    obtain ⟨outcome,next,later,first,second,rfl⟩ := hoistAll_cons_ok hoisted
    exact .cons (tallies_of_hoist first) (ih second)

theorem warned_of_tallies (related : List.Forall₂ (fun text outcome => outcome.Tallies text) texts outcomes) :
    (texts.map fun text => (warningsOf text).length).sum ≤ (outcomes.map (·.warnings.length)).sum ∧
      ((texts.map fun text => (warningsOf text).length).sum = (outcomes.map (·.warnings.length)).sum ↔
        ∀ text ∈ texts, TagsApart text) := by
  induction related with
  | nil => simp
  | cons tallies _ ih =>
    have fewer := tallies.warned_le
    have same := tallies.warned_iff
    simp only [List.map_cons,List.sum_cons,List.forall_mem_cons,← same,← ih.2]
    omega

theorem converted_of_tallies (related : List.Forall₂ (fun text outcome => outcome.Tallies text) texts outcomes)
    (apart : ∀ text ∈ texts, TagsApart text) :
    declaredAll texts outcomes = stylesOfAll texts ∧
      (outcomes.map fun outcome => outcome.allocated.length + outcome.reused).sum = (stylesOfAll texts).length ∧
      (outcomes.map (·.stripped)).sum = (texts.map fun text => empties text (styleAttrs text)).sum := by
  induction related with
  | nil => exact ⟨rfl,rfl,rfl⟩
  | @cons text outcome texts outcomes tallies _ ih =>
    obtain ⟨here,later⟩ := List.forall_mem_cons.mp apart
    obtain ⟨declared,converted,stripped⟩ := ih later
    have taken := tallies.apart.mpr here
    refine ⟨?_,?_,?_⟩
    · rw [declaredAll,List.zip_cons_cons,List.flatMap_cons,taken,← declaredAll,declared]
      rfl
    · rw [List.map_cons,List.sum_cons,converted,tallies.converted,taken,stylesOfAll,stylesOfAll,List.flatMap_cons,
        List.length_append]
    · rw [List.map_cons,List.sum_cons,stripped,tallies.stripped,taken,List.map_cons,List.sum_cons]

variable {project : Project} {sources : Sources} {conversion : Conversion}

theorem tagsApart_iff (contents : sources.documents.map (·.content) = texts.map .ok) :
    sources.TagsApart ↔ ∀ text ∈ texts, TagsApart text := by
  constructor
  · intro apart text member
    have mapped : Except.ok text ∈ sources.documents.map (·.content) := contents ▸ List.mem_map_of_mem member
    obtain ⟨source,among,content⟩ := List.mem_map.mp mapped
    exact apart source among text content
  · intro apart source member text content
    have mapped : Except.ok text ∈ texts.map (Except.ok (ε := FileError)) :=
      contents ▸ List.mem_map.mpr ⟨source,member,content⟩
    obtain ⟨other,among,same⟩ := List.mem_map.mp mapped
    cases same
    exact apart text among

/-- Where both succeed, an inventory and a conversion agree exactly if no tag overlaps another. -/
theorem agrees_iff (sound : sources.registry.Sound) (none : sources.registry.pending = [])
    (taken : ofSources sources = .ok inventory) (made : Conversion.ofSources project sources = .ok conversion) :
    inventory.Agrees conversion ↔ sources.TagsApart := by
  obtain ⟨texts,listing,last,contents,-,listed,rfl⟩ := ofSources_eq_ok taken
  obtain ⟨others,outcomes,final,same,hoisted,rfl⟩ := Conversion.ofSources_eq_ok.mp made
  obtain rfl : texts = others :=
    List.map_injective_iff.mpr (fun _ _ => Except.ok.inj) (contents.symm.trans same)
  have even : sources.documents.length = outcomes.length := by
    rw [length_of_hoistAll hoisted,← List.length_map (f := (·.content)),contents,List.length_map]
  have related := tallies_of_hoistAll hoisted
  -- the conversion has the warnings of the scan and no others exactly if no tags overlap
  have warnings := (warned_of_tallies related).2
  rw [tagsApart_iff contents,← warnings]
  constructor
  · intro agrees
    exact listed.warned.symm.trans (agrees.warned.trans (Conversion.total_planned (·.warnings.length) even))
  · intro warned
    obtain ⟨all,converted,stripped⟩ := converted_of_tallies related (warnings.mp warned)
    obtain ⟨-,⟨ids,replayed⟩,-⟩ := hoistAll_spec sound hoisted
    obtain ⟨others,again⟩ := listed.replayed
    rw [all] at replayed
    -- both allocate the same declarations in the same order
    obtain rfl : last = final := congrArg Prod.snd (Except.ok.inj (again.symm.trans replayed))
    refine ⟨fun binding => ?_,?_,?_,?_⟩
    · rw [← listed.mem_pending_iff sound none binding]
      simp only [List.mem_mergeSort]
    · exact ((List.mergeSort_perm _ _).map _).sum_eq.trans
        (listed.counted.trans (converted.symm.trans (Conversion.total_planned _ even).symm))
    · exact listed.empty.trans (stripped.symm.trans (Conversion.total_planned _ even).symm)
    · exact listed.warned.trans (warned.trans (Conversion.total_planned _ even).symm)

theorem concurs_of_apart (sound : sources.registry.Sound) (none : sources.registry.pending = [])
    (tags : sources.TagsApart) (classes : sources.ClassesApart) :
    Concurs (ofSources sources) (Conversion.ofSources project sources) := by
  have listing := (listed_start sources.registry).foldlM_addDocument sources.documents
  have planning := Conversion.planDocuments_of_apart sources.registry fun source member text content =>
    ⟨tags source member text content,classes source member text content⟩
  cases run : sources.documents.foldlM Source.classes sources.registry with
  | error failure =>
    rw [run] at listing planning
    rw [ofSources,Conversion.ofSources]
    simp only [Bind.bind,Except.bind,listing,planning]
    rfl
  | ok last =>
    rw [run] at listing planning
    obtain ⟨texts,listed,-,done,-⟩ := listing
    obtain ⟨documents,planned⟩ := planning
    have taken : ∃ inventory, ofSources sources = .ok inventory := by
      rw [ofSources]
      simp only [Bind.bind,Except.bind,done]
      exact ⟨_,rfl⟩
    have made : ∃ conversion, Conversion.ofSources project sources = .ok conversion := by
      rw [Conversion.ofSources]
      simp only [Bind.bind,Except.bind,planned]
      exact ⟨_,rfl⟩
    obtain ⟨inventory,taken⟩ := taken
    obtain ⟨conversion,made⟩ := made
    rw [taken,made]
    exact (agrees_iff sound none taken made).mpr tags

theorem run_take {paths : List Path} {world later : World} {gathered : Except Failure Sources}
    (read : (Sources.gather project paths).toProcedure.run world = (gathered,later)) :
    (take project paths).toProcedure.run world = (gathered.bind ofSources,later) := by
  rw [take]
  cases gathered with
  | error failure => exact run_bind_error read _
  | ok sources => exact run_bind_ok read _

/-- On every tree, an inventory and a plan for the same paths fail alike or agree, if no tag
overlaps another and no class attribute a style. If both succeed, they agree only in that case. -/
theorem concurs_with_plan (project : Project) (paths : List Path) (world : World) :
    let gathered := (Sources.gather project paths).toProcedure.run world
    let inventory := (take project paths).toProcedure.run world
    let conversion := (Conversion.plan project paths).toProcedure.run world
    inventory.2 = conversion.2 ∧
      ((∀ sources, gathered.1 = .ok sources → sources.TagsApart ∧ sources.ClassesApart) →
        Concurs inventory.1 conversion.1) ∧
      ∀ sources found made, gathered.1 = .ok sources → inventory.1 = .ok found → conversion.1 = .ok made →
        (found.Agrees made ↔ sources.TagsApart) := by
  intro gathered inventory conversion
  rcases read : (Sources.gather project paths).toProcedure.run world with ⟨result,later⟩
  have taken : inventory = _ := run_take read
  have made : conversion = _ := Conversion.run_plan read
  have same : gathered = _ := read
  rw [taken,made,same]
  refine ⟨rfl,?_⟩
  cases result with
  | error failure => exact ⟨fun _ => rfl,fun _ _ _ absent => by cases absent⟩
  | ok sources =>
    obtain ⟨sound,none⟩ := Sources.sound_of_gather read
    refine ⟨fun apart => ?_,fun _ found conversion still listed planned => ?_⟩
    · obtain ⟨tags,classes⟩ := apart sources rfl
      exact concurs_of_apart sound none tags classes
    · cases still
      exact agrees_iff sound none listed planned

open Conversion (loneProject loneText loneWorld gather_lone)

theorem styleAttrs_lone : styleAttrs loneText = [⟨⟨3,14⟩,⟨10,13⟩,⟨0,15⟩,none⟩] := by
  have opened : loneText = "<p ".toList ++ (styleOpen ++ ("a:1".toList ++ '"' :: ['>'])) := rfl
  rw [styleAttrs,scan,opened,scanFrom_ne (show ∀ c ∈ "<p ".toList, c ≠ 's' by simp),scanFrom_value rfl rfl,
    scanFrom_cons rfl,scanFrom_nil]
  rfl

/-- A document in the root folder with one style. -/
theorem concurs_with_plan_root :
    (∃ sources, ((Sources.gather loneProject [⟨['d']⟩]).toProcedure.run loneWorld).1 = .ok sources ∧
      sources.TagsApart ∧ sources.ClassesApart) ∧
    Concurs ((take loneProject [⟨['d']⟩]).toProcedure.run loneWorld).1
      ((Conversion.plan loneProject [⟨['d']⟩]).toProcedure.run loneWorld).1 := by
  have apart : ∀ sources, ((Sources.gather loneProject [⟨['d']⟩]).toProcedure.run loneWorld).1 = .ok sources →
      sources.TagsApart ∧ sources.ClassesApart := by
    intro sources read
    rw [gather_lone] at read
    cases read
    constructor
    · intro source member text content
      cases List.mem_singleton.mp member
      cases content
      rw [Markup.TagsApart,styleAttrs_lone]
      exact List.pairwise_singleton _ _
    · intro source member text content
      cases List.mem_singleton.mp member
      cases content
      rw [Markup.ClassesApart,styleAttrs_lone]
      simp
  refine ⟨⟨_,congrArg Prod.fst gather_lone,apart _ (congrArg Prod.fst gather_lone)⟩,?_⟩
  exact (concurs_with_plan loneProject [⟨['d']⟩] loneWorld).2.1 apart

def tangledText : Text := "<p style=\"\" title=' style=\"\" '>x' >".toList

/-- A document with an empty style, and another one in a quoted value of the same tag. -/
def tangledWorld : World := { loneWorld with disk := ⟨[([['d']],.file (encodeText tangledText))]⟩ }

theorem gather_tangled : (Sources.gather loneProject [⟨['d']⟩]).toProcedure.run tangledWorld =
    (.ok ⟨[],Registry.empty "inl-".toList,[⟨⟨"/d".toList⟩,"d",.ok tangledText⟩]⟩,tangledWorld) := by cbv

theorem scan_tangled : scan tangledText =
    [.style ⟨⟨3,11⟩,⟨10,10⟩,⟨0,31⟩,none⟩,.style ⟨⟨20,28⟩,⟨27,27⟩,⟨0,35⟩,none⟩] := by
  have opened : tangledText = "<p ".toList ++ (styleOpen ++ ([] ++ '"' :: (" title=' ".toList ++
      (styleOpen ++ ([] ++ '"' :: (" '>x' >".toList ++ [])))))) := rfl
  rw [scan,opened,scanFrom_ne (show ∀ c ∈ "<p ".toList, c ≠ 's' by simp),scanFrom_value rfl rfl,
    scanFrom_ne (show ∀ c ∈ " title=' ".toList, c ≠ 's' by simp),scanFrom_value rfl rfl,
    scanFrom_ne (show ∀ c ∈ " '>x' >".toList, c ≠ 's' by simp),scanFrom_nil]
  rfl

def tangledOutcome : Outcome where
  text := "<p title=' style=\"\" '>x' >".toList
  edits := [⟨⟨0,31⟩,⟨0,22⟩,[]⟩]
  allocated := []
  reused := 0
  stripped := 1
  warnings := [⟨.unbounded,⟨20,1,21⟩⟩]

theorem hoist_tangled : hoist tangledText (Registry.empty "inl-".toList) =
    (.ok tangledOutcome,Registry.empty "inl-".toList) := by
  rw [hoist,scan_tangled]
  cbv

/-- The inventory counts both, the conversion leaves the second alone with a warning. -/
theorem tangled_disagrees : ∃ found made,
    ((take loneProject [⟨['d']⟩]).toProcedure.run tangledWorld).1 = .ok found ∧
    ((Conversion.plan loneProject [⟨['d']⟩]).toProcedure.run tangledWorld).1 = .ok made ∧
    found.empty = 2 ∧ made.stripped = 1 ∧ found.warnings.length = 0 ∧ made.warned = 1 ∧ ¬found.Agrees made := by
  rw [run_take gather_tangled,Conversion.run_plan gather_tangled]
  refine ⟨⟨[],1,2,[]⟩,⟨[⟨⟨"/d".toList⟩,"d",tangledOutcome⟩],⟨"/s".toList⟩,[],[]⟩,?_,?_,rfl,rfl,rfl,rfl,
    fun agrees => absurd agrees.empty (show 2 ≠ 1 by decide)⟩
  · simp only [Except.bind,ofSources,addDocument,Source.text,List.foldlM_cons,Bind.bind,scan_tangled]
    cbv
  · simp only [Except.bind,Conversion.ofSources,Conversion.planDocuments,Conversion.planDocument,Source.text,Bind.bind,
      hoist_tangled]
    rfl

end Inventory

end StyleHoist
