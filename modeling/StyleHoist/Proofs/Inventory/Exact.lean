import StyleHoist.Proofs.Inventory.Occurrences
import StyleHoist.Proofs.Text.Order

/-! An inventory is an exact count. Its entries are the declarations of the documents, each
with its class, its occurrences and the documents it occurs in, and everything found is
counted once. No two declarations have one class, so that the order of entries is strict. -/
namespace StyleHoist

open Markup Procedure Attempt

variable {sources : List Source} {texts : List Text}

theorem Source.styles_of_content {source : Source} {text : Text} (content : source.content = .ok text) :
    source.styles = declared text (styleAttrs text) := by
  rw [styles,content]

theorem flatMap_styles_of_contents (contents : sources.map (·.content) = texts.map .ok) :
    sources.flatMap Source.styles = stylesOfAll texts := by
  induction sources generalizing texts with
  | nil =>
    obtain rfl := List.map_eq_nil_iff.mp contents.symm
    rfl
  | cons source rest ih =>
    cases texts with
    | nil => cases contents
    | cons text others =>
      obtain ⟨content,later⟩ := List.cons.inj contents
      rw [List.flatMap_cons,ih later,Source.styles_of_content content]
      rfl

theorem length_items_of_contents (contents : sources.map (·.content) = texts.map .ok) :
    (sources.map (·.items.length)).sum =
      (stylesOfAll texts).length + (texts.map fun text => empties text (styleAttrs text)).sum +
        (texts.map fun text => (warningsOf text).length).sum := by
  induction sources generalizing texts with
  | nil =>
    obtain rfl := List.map_eq_nil_iff.mp contents.symm
    rfl
  | cons source rest ih =>
    cases texts with
    | nil => cases contents
    | cons text others =>
      obtain ⟨content,later⟩ := List.cons.inj contents
      have items : source.items = scan text := by
        rw [Source.items,show source.content = .ok text from content]
      have split := length_items (scan text)
      rw [← styleAttrs,← warningsOf,length_eq_declared_add_empties text] at split
      simp only [List.map_cons,List.sum_cons,ih later,items,split,stylesOfAll,List.flatMap_cons,List.length_append]
      omega

namespace Inventory

/-- An entry before another occurs more often, or as often and its class has the lesser name. -/
def Entry.Before (first second : Entry) : Prop :=
  second.occurrences < first.occurrences ∨ first.occurrences = second.occurrences ∧
    Text.atMost first.id.text second.id.text = true ∧ first.id ≠ second.id

/-- The class of an entry is the one of the stylesheet, if that has one, or else derived. -/
structure Entry.Classed (registry : Registry) (entry : Entry) : Prop where
  existing : entry.existing = true ↔ ∃ id, registry.lookup entry.declaration = some id
  bound : ∀ id, registry.lookup entry.declaration = some id → entry.id = id
  derived : registry.lookup entry.declaration = none →
    entry.id = ClassId.derive registry.classPrefix entry.declaration

/-- What an inventory says of documents that have been read, given the registry of the stylesheet. -/
structure Exact (registry : Registry) (sources : List Source) (inventory : Inventory) : Prop where
  readable : ∀ source ∈ sources, ∃ text, source.content = .ok text
  distinct : (inventory.entries.map (·.declaration)).Nodup
  declarations : ∀ declaration, declaration ∈ inventory.entries.map (·.declaration) ↔
    ∃ source ∈ sources, ∃ text attr value, source.content = .ok text ∧ Item.style attr ∈ scan text ∧
      Text.slice? text attr.value = some value ∧ Declaration.normalize value = declaration ∧ declaration.isEmpty = false
  occurrences : ∀ entry ∈ inventory.entries,
    entry.occurrences = (sources.map fun source => source.styles.count entry.declaration).sum
  documents : ∀ entry ∈ inventory.entries, entry.documents.Nodup ∧ ∀ name, name ∈ entry.documents ↔
    ∃ source ∈ sources, source.name = name ∧ entry.declaration ∈ source.styles
  total : (inventory.entries.map (·.occurrences)).sum + inventory.empty + inventory.warnings.length =
    (sources.map (·.items.length)).sum
  classes : ∀ entry ∈ inventory.entries, entry.Classed registry
  order : inventory.entries.Pairwise Entry.Before

variable {first last : Registry} {seen : List Declaration} {empty warned : Nat} {inventory : Inventory}

theorem Entry.precedes_iff (first second : Entry) :
    first.precedes second = true ↔ second.occurrences < first.occurrences ∨
      first.occurrences = second.occurrences ∧ first.id.text ≤ second.id.text := by
  rw [precedes,Bool.or_eq_true,Bool.and_eq_true,decide_eq_true_eq,decide_eq_true_eq,Text.atMost_iff_le]

theorem pairwise_precedes (entries : List Entry) :
    (entries.mergeSort Entry.precedes).Pairwise fun first second => first.precedes second = true := by
  refine List.pairwise_mergeSort (fun a b c front back => ?_) (fun a b => ?_) entries
  · rw [Entry.precedes_iff] at front back ⊢
    rcases front with more | ⟨same,less⟩
    · rcases back with more' | ⟨same',-⟩ <;> omega
    · rcases back with more' | ⟨same',less'⟩
      · omega
      · exact .inr ⟨same.trans same',less.trans less'⟩
  · rw [Bool.or_eq_true,Entry.precedes_iff,Entry.precedes_iff]
    rcases lt_trichotomy a.occurrences b.occurrences with less | same | more
    · exact .inr (.inl less)
    · exact (le_total a.id.text b.id.text).imp (.inr ⟨same,·⟩) (.inr ⟨same.symm,·⟩)
    · exact .inl (.inl more)

namespace Listed

theorem classed (listed : Listed first seen empty warned inventory last) {entry : Entry}
    (member : entry ∈ inventory.entries) : entry.Classed first := by
  obtain ⟨ids,replayed⟩ := listed.replayed
  obtain ⟨added,grown,-,-⟩ := Piece.growth_of_allocateAll replayed
  obtain ⟨found,existing⟩ := listed.classes entry member
  refine ⟨by rw [existing,Option.isSome_iff_exists],fun id old => ?_,fun unknown => ?_⟩
  · exact Option.some.inj (found.symm.trans (grown.lookup old))
  · have known := Registry.mem_of_lookup found
    rw [grown.known,List.mem_append] at known
    rcases known with before | new
    · exact absurd (List.mem_map_of_mem before) (Registry.lookup_eq_none_iff.mp unknown)
    · exact grown.derived new

theorem pairwise_id (listed : Listed first seen empty warned inventory last) (sound : first.Sound) :
    inventory.entries.Pairwise fun one other => one.id ≠ other.id := by
  obtain ⟨ids,replayed⟩ := listed.replayed
  obtain ⟨added,grown,-,-⟩ := Piece.growth_of_allocateAll replayed
  have distinct : (inventory.entries.map (·.declaration)).Nodup := listed.declarations ▸ FirstSeen.nodup_eraseDups _
  refine (List.pairwise_map.mp distinct).imp_of_mem fun one other apart same => apart ?_
  have found := Registry.mem_of_lookup (listed.classes _ one).1
  have found' := Registry.mem_of_lookup (listed.classes _ other).1
  exact (Binding.mk.inj ((grown.sound sound).eq_of_id found found' same)).1

end Listed

theorem tells_of_ofSources {sources : Sources} (taken : ofSources sources = .ok inventory) {entry : Entry}
    (member : entry ∈ inventory.entries) :
    entry.occurrences = ((usesOf sources.documents).map (·.2)).count entry.declaration ∧
      entry.documents = (((usesOf sources.documents).filter (·.2 = entry.declaration)).map (·.1)).eraseDups := by
  rw [ofSources] at taken
  obtain ⟨⟨listing,last⟩,run,sorted⟩ := bind_eq_ok_iff.mp taken
  cases sorted
  rw [List.mem_mergeSort] at member
  exact (tells_of_foldlM run).figures entry member

theorem map_usesOf (sources : List Source) : (usesOf sources).map (·.2) = sources.flatMap Source.styles := by
  simp [usesOf,List.map_flatMap,Function.comp_def]

theorem mem_names_iff {sources : List Source} {declaration : Declaration} {name : String} :
    name ∈ (((usesOf sources).filter (·.2 = declaration)).map (·.1)).eraseDups ↔
      ∃ source ∈ sources, source.name = name ∧ declaration ∈ source.styles := by
  simp only [List.mem_eraseDups,List.mem_map,List.mem_filter,decide_eq_true_eq,usesOf,List.mem_flatMap]
  constructor
  · rintro ⟨use,⟨⟨source,among,style,declared,rfl⟩,rfl⟩,rfl⟩
    exact ⟨source,among,rfl,declared⟩
  · rintro ⟨source,among,rfl,declared⟩
    exact ⟨(source.name,declaration),⟨⟨source,among,declaration,declared,rfl⟩,rfl⟩,rfl⟩

theorem exact_of_ofSources {sources : Sources} (sound : sources.registry.Sound)
    (taken : ofSources sources = .ok inventory) : inventory.Exact sources.registry sources.documents := by
  have figures := @tells_of_ofSources inventory sources taken
  obtain ⟨texts,listing,last,contents,-,listed,rfl⟩ := ofSources_eq_ok taken
  have sorted := List.mergeSort_perm listing.entries Entry.precedes
  have member : ∀ {entry}, entry ∈ listing.entries.mergeSort Entry.precedes → entry ∈ listing.entries :=
    List.mem_mergeSort.mp
  have readable : ∀ source ∈ sources.documents, ∃ text, source.content = .ok text := by
    intro source among
    have mapped : source.content ∈ texts.map (Except.ok (ε := FileError)) := contents ▸ List.mem_map_of_mem among
    obtain ⟨text,-,same⟩ := List.mem_map.mp mapped
    exact ⟨text,same.symm⟩
  refine {
    readable := readable
    distinct := ?_
    declarations := fun declaration => ?_
    occurrences := fun entry inside => ?_
    documents := fun entry inside => ?_
    total := ?_
    classes := fun entry inside => listed.classed (member inside)
    order := ?_ }
  · rw [(sorted.map _).nodup_iff,listed.declarations]
    exact FirstSeen.nodup_eraseDups _
  · rw [(sorted.map _).mem_iff,listed.declarations,List.mem_eraseDups,← flatMap_styles_of_contents contents,
      List.mem_flatMap]
    simp only [Source.mem_styles_iff]
  · rw [(figures inside).1,map_usesOf,List.count_flatMap]
    rfl
  · rw [(figures inside).2]
    exact ⟨FirstSeen.nodup_eraseDups _,fun name => mem_names_iff⟩
  · rw [(sorted.map _).sum_eq,listed.counted,listed.empty,listed.warned,length_items_of_contents contents]
  · have apart := sorted.pairwise_iff (fun same => Ne.symm same) |>.mpr (listed.pairwise_id sound)
    refine (pairwise_precedes listing.entries).imp₂ (fun first second before other => ?_) apart
    rw [Entry.precedes_iff] at before
    exact before.imp_right fun ⟨same,less⟩ => ⟨same,(Text.atMost_iff_le _ _).mpr less,other⟩

variable {project : Project} {paths : List Path} {world later : World}

/-- An inventory is an exact count of the selected documents, the stylesheet aside. -/
theorem exact_of_take {inventory : Inventory}
    (taken : (take project paths).toProcedure.run world = (.ok inventory,later)) :
    later = world ∧ ∃ css registry selected,
      (Sources.readStylesheet project.stylesheetPath).toProcedure.run world = (.ok css,world) ∧
        Stylesheet.seed project.config.classPrefix css = .ok registry ∧
        (Discovery.documents project paths).toProcedure.run world = (.ok selected,world) ∧
        inventory.Exact registry
          ((selected.filter fun path => !path.same project.stylesheetPath).map (Sources.source project world)) := by
  rw [take] at taken
  obtain ⟨sources,middle,gathered,ended⟩ := run_bind_eq_ok.mp taken
  obtain ⟨made,rfl⟩ := Prod.mk.inj ended
  obtain ⟨rfl,read,seeded,selected,found,documents⟩ := Sources.gather_eq_ok gathered
  exact ⟨rfl,_,_,selected,read,seeded,found,documents ▸ exact_of_ofSources (Stylesheet.sound_of_seed seeded) made⟩

open Conversion (loneProject loneText loneWorld)

/-- Two documents in the root folder with the same style. -/
def twinWorld : World :=
  { loneWorld with disk := ⟨[([['d']],.file (encodeText loneText)),([['e']],.file (encodeText loneText))]⟩ }

theorem gather_twin : (Sources.gather loneProject [⟨['d']⟩,⟨['e']⟩]).toProcedure.run twinWorld =
    (.ok ⟨[],Registry.empty "inl-".toList,
      [⟨⟨"/d".toList⟩,"d",.ok loneText⟩,⟨⟨"/e".toList⟩,"e",.ok loneText⟩]⟩,twinWorld) := by cbv

theorem scan_lone : scan loneText = [.style ⟨⟨3,14⟩,⟨10,13⟩,⟨0,15⟩,none⟩] := by
  have opened : loneText = "<p ".toList ++ (styleOpen ++ ("a:1".toList ++ '"' :: ['>'])) := rfl
  rw [scan,opened,scanFrom_ne (show ∀ c ∈ "<p ".toList, c ≠ 's' by simp),scanFrom_value rfl rfl,scanFrom_cons rfl,
    scanFrom_nil]
  rfl

/-- One declaration that occurs in both documents. -/
theorem exact_of_take_twin : ∃ inventory registry sources,
    (take loneProject [⟨['d']⟩,⟨['e']⟩]).toProcedure.run twinWorld = (.ok inventory,twinWorld) ∧
      inventory.entries.map (fun entry => (entry.occurrences,entry.documents)) = [(2,["d","e"])] ∧
      inventory.Exact registry sources := by
  let declaration := Declaration.normalize "a:1".toList
  have taken : (take loneProject [⟨['d']⟩,⟨['e']⟩]).toProcedure.run twinWorld =
      (.ok ⟨[⟨declaration,ClassId.derive "inl-".toList declaration,2,["d","e"],false⟩],2,0,[]⟩,twinWorld) := by
    rw [run_take gather_twin]
    simp only [Except.bind,ofSources,addDocument,Source.text,List.foldlM_cons,Bind.bind,scan_lone]
    cbv
  obtain ⟨-,css,registry,selected,-,-,-,exact⟩ := exact_of_take taken
  exact ⟨_,registry,_,taken,rfl,exact⟩

end Inventory

end StyleHoist
