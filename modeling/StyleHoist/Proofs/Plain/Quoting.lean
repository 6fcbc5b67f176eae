import StyleHoist.Proofs.Plain.Refinement
import StyleHoist.Proofs.Stylesheet.Names
import Mathlib.Data.List.Infix

/-! Tags whose style values hold escaped quotes. Where such a value ends is found with regard to
backslashes, where the tag ends and where its class attribute stands is found without. The classes
of the styles join the class attribute of the tag wherever the two ways of reading are in step. -/
namespace StyleHoist.Markup

open Text

namespace Attribute

theorem locateClass_append {front : List Attribute} (other : ∀ attr ∈ front, attr.isClass = false)
    (offset : Nat) (back : List Attribute) :
    locateClass offset (front ++ back) = locateClass (offset + byteSize (front.flatMap print)) back := by
  induction front generalizing offset with
  | nil => rfl
  | cons attr front ih =>
    rw [List.cons_append,locateClass,other attr List.mem_cons_self,if_neg Bool.false_ne_true,
      ih fun one member => other one (List.mem_cons_of_mem _ member),List.flatMap_cons,byteSize_append,Nat.add_assoc]

theorem mem_words_addNames {attr : Attribute} {ids : List ClassId} (whole : ∀ id ∈ ids, IsWord id.text) (name : Text) :
    name ∈ words ((attr.addNames ids).value.getD []) ↔
      name ∈ words (attr.value.getD []) ∨ name ∈ ids.map (·.text) := by
  rw [addNames]
  generalize split : (ids.map (·.text)).filter (fun name => !(words (attr.value.getD [])).eraseDups.contains name) = missing
  have lacking : name ∈ missing ↔ name ∈ ids.map (·.text) ∧ name ∉ words (attr.value.getD []) := by
    rw [← split]
    simp
  cases missing with
  | nil =>
    have none : ¬(name ∈ ids.map (·.text) ∧ name ∉ words (attr.value.getD [])) := fun new =>
      absurd (lacking.mpr new) List.not_mem_nil
    tauto
  | cons first rest =>
    have texts : ∀ word ∈ (words (attr.value.getD [])).eraseDups ++ first :: rest, IsWord word := by
      intro word member
      rcases List.mem_append.mp member with old | new
      · exact isWord_of_mem_words (List.mem_eraseDups.mp old)
      · rw [← split] at new
        obtain ⟨id,among,rfl⟩ := List.mem_map.mp (List.mem_filter.mp new).1
        exact whole id among
    simp only [Option.getD_some]
    rw [words_intercalate texts,List.mem_append,List.mem_eraseDups,lacking]
    tauto

end Attribute

namespace Tag

variable {tag : Tag}

/-- The text of a tag up to its class attribute. -/
def lead (tag : Tag) : Text :=
  '<' :: tag.name ++ (tag.attributes.takeWhile (!·.isClass)).flatMap Attribute.print

/-- Read without regard to backslashes, every quote that is opened behind a style attribute is closed,
and so is every quote in front of the class attribute; and no other class attribute is found there. -/
structure InStep (tag : Tag) : Prop where
  level : ∀ attr rest, attr :: rest <:+ tag.attributes → attr.isStyle = true →
    quoteAfter none (rest.flatMap Attribute.print) = none
  closed : quoteAfter none tag.lead = none
  unnamed : Unnamed none tag.lead

theorem classOf?_inStep (formed : tag.Formed) (legible : ∀ attr ∈ tag.attributes, attr.Legible)
    (inStep : tag.InStep) (start : Nat) :
    classOf? start tag.print = locateClass (tag.inner start) tag.attributes := by
  -- The class attribute, if there is one, is the first of those at the back.
  have whole := List.takeWhile_append_dropWhile (p := (!Attribute.isClass ·)) (l := tag.attributes)
  have other : ∀ attr ∈ tag.attributes.takeWhile (!·.isClass), attr.isClass = false := fun attr member => by
    simpa using List.mem_takeWhile_imp member
  have head := List.head?_dropWhile_not (!Attribute.isClass ·) tag.attributes
  obtain ⟨level,closed,unnamed⟩ := inStep
  unfold lead at closed unnamed
  generalize tag.attributes.takeWhile (!·.isClass) = front at *
  generalize tag.attributes.dropWhile (!·.isClass) = back at *
  have inside : ∀ attr ∈ back, attr.Legible := fun attr member => legible attr (whole ▸ List.mem_append_right _ member)
  obtain ⟨c,rest,ends,stop⟩ := ends_attributes formed fun attr member => (inside attr member).toFormed
  have unopened : ∀ lead tail, tag.name ++ front.flatMap Attribute.print = lead ++ (classOpen ++ tail) →
      ('<' :: lead).getLast?.any isSpace = true → quoteAfter none lead ≠ none :=
    fun lead tail split => unnamed ('<' :: lead) tail (by simp [← split])
  obtain ⟨last,passed⟩ := classIn?_past (not_mem_open_of_endsName stop).2 none '<' (start + 1) unopened
  have level : quoteAfter none (tag.name ++ front.flatMap Attribute.print) = none := closed
  have place : start + 1 + byteSize (tag.name ++ front.flatMap Attribute.print) =
      tag.inner start + byteSize (front.flatMap Attribute.print) := by
    rw [inner,byteSize_append,Nat.add_assoc,Nat.add_assoc,Nat.add_assoc]
  have printed : tag.print = '<' :: (tag.name ++ front.flatMap Attribute.print ++ c :: rest) := by
    rw [print_eq,← ends,← whole]
    simp
  rw [printed,classOf?,utf8Size_open,passed,level,place,← ends,← whole,Attribute.locateClass_append other]
  cases back with
  | nil => exact classIn?_finish formed last _
  | cons named later =>
    have classed : named.isClass = true := by simpa using head
    rw [List.flatMap_cons,List.append_assoc,Attribute.classIn?_class (inside named List.mem_cons_self) classed,
      locateClass,classed,if_pos rfl]

theorem legible_of_inStep (formed : tag.Formed) (legible : ∀ attr ∈ tag.attributes, attr.Legible)
    (inStep : tag.InStep) : tag.Legible :=
  ⟨formed,legible,inStep.level,classOf?_inStep formed legible inStep⟩

theorem filter_isClass_restyle {named : Attribute} (single : tag.attributes.filter Attribute.isClass = [named])
    (ids : List ClassId) :
    (tag.restyle ids).attributes.filter Attribute.isClass = [named.addNames ids] := by
  have kept : (tag.attributes.filter (!·.isStyle)).filter Attribute.isClass = [named] := by
    rw [← single,List.filter_filter]
    apply List.filter_congr
    intro attr _
    cases classed : attr.isClass with
    | false => rfl
    | true => rw [Attribute.not_isStyle_of_isClass classed]; rfl
  have own : named ∈ tag.attributes.filter (!·.isStyle) ∧ named.isClass = true :=
    List.mem_filter.mp (kept ▸ List.mem_singleton_self named)
  have any : (tag.attributes.filter (!·.isStyle)).any Attribute.isClass = true := List.any_eq_true.mpr ⟨named,own⟩
  have classed (attr : Attribute) : (if attr.isClass then attr.addNames ids else attr).isClass = attr.isClass := by
    split
    · exact (Attribute.isStyle_addNames attr ids).2
    · rfl
  by_cases nothing : ids = []
  · subst nothing
    rw [restyle,if_pos rfl,Attribute.addNames_nil]
    exact kept
  · rw [restyle,if_neg nothing,if_pos any]
    simp only [List.filter_map,Function.comp_def,classed]
    rw [kept,List.map_singleton,if_pos own.2]

end Tag

section Hoist

variable {tag : Tag} {registry last : Registry} {ids : List ClassId}

theorem hoist_print (legible : tag.Legible) (styled : tag.declarations ≠ [])
    (allocated : Piece.allocateAll registry tag.declarations = .ok (ids,last)) :
    ∃ outcome, hoist tag.print registry = (.ok outcome,last) ∧
      outcome.text = (tag.restyle ids.eraseDups).print ∧ outcome.warnings = [] := by
  have found : tag.located 0 ≠ [] := fun none => styled (Tag.restyle_of_located_nil none).1
  have scanned : scan tag.print = (tag.located 0).map .style := by
    have read := scanFrom_tag legible [] []
    rwa [List.append_nil,scanFrom_nil,List.append_nil] at read
  obtain ⟨plan,continues,edits,stored,quiet⟩ :=
    Plan.continues_tag legible.toFormed [] [] found (start_behind registry 0) allocated
  have added := continues []
  rw [List.append_nil,List.nil_append,List.append_nil] at added
  have rendered := Tag.render?_editAt legible.toFormed [] [] ids.eraseDups
  rw [List.nil_append,List.append_nil] at rendered
  have whole : (tag.editAt 0 ids.eraseDups).tag = ⟨0,byteSize tag.print⟩ := by
    rw [Tag.editAt,Tag.spanAt,Nat.zero_add]
  rw [hoist_of_lone scanned added edits whole rendered,stored]
  exact ⟨_,rfl,rfl,quiet⟩

/-- The styles of a tag in step join its class attribute, whatever quotes their values hold: it stays the
only one, and it names the classes that it named before and those of the styles. -/
theorem hoist_inStep {classPrefix : Text} {named : Attribute} (valid : Config.isValidPrefix classPrefix = true)
    (generated : registry.Named classPrefix) (same : registry.classPrefix = classPrefix) (formed : tag.Formed)
    (legible : ∀ attr ∈ tag.attributes, attr.Legible) (inStep : tag.InStep)
    (single : tag.attributes.filter Attribute.isClass = [named]) (styled : tag.declarations ≠ [])
    (allocated : Piece.allocateAll registry tag.declarations = .ok (ids,last)) :
    ∃ outcome merged, hoist tag.print registry = (.ok outcome,last) ∧ outcome.warnings = [] ∧
      outcome.text = (tag.restyle ids.eraseDups).print ∧
      (tag.restyle ids.eraseDups).attributes.filter Attribute.isClass = [merged] ∧
      ∀ name, name ∈ words (merged.value.getD []) ↔
        name ∈ words (named.value.getD []) ∨ name ∈ ids.map (·.text) := by
  obtain ⟨outcome,hoisted,text,quiet⟩ := hoist_print (Tag.legible_of_inStep formed legible inStep) styled allocated
  obtain ⟨added,grown,-,standing⟩ := Piece.growth_of_allocateAll allocated
  have whole : ∀ id ∈ ids.eraseDups, IsWord id.text := fun id member =>
    ((generated.grow same grown).generated standing id (List.mem_eraseDups.mp member)).isWord valid
  refine ⟨outcome,named.addNames ids.eraseDups,hoisted,quiet,text,Tag.filter_isClass_restyle single _,fun name => ?_⟩
  rw [Attribute.mem_words_addNames whole]
  simp only [List.mem_map,List.mem_eraseDups]

/-- A tag with a style and a class. -/
def styledTag (value : Text) : Tag :=
  ⟨"i".toList,[⟨[' '],"style".toList,some value⟩,⟨[' '],"class".toList,some "c".toList⟩],[],false⟩

theorem legible_styledTag {value : Text} (clear : value.all (!isBracket ·) = true)
    (unclosed : closeValue? [] value = none) (solid : value.getLast? ≠ some '\\') :
    (styledTag value).Formed ∧ ∀ attr ∈ (styledTag value).attributes, attr.Legible := by
  have first : (⟨[' '],"style".toList,some value⟩ : Attribute).Legible := {
    spaced := List.cons_ne_nil _ _
    space := by simp [isSpace]
    named := List.cons_ne_nil _ _
    name := by simp [Attribute.isNameChar,isSpace,isQuote]
    bare := nofun
    clear := fun _ valued => by cases valued; simpa using clear
    taken := fun _ _ valued => by cases valued; exact ⟨escaped_of_unclosed unclosed,solid⟩
    passed := fun other => by simp [Attribute.isStyle] at other }
  have second : (⟨[' '],"class".toList,some "c".toList⟩ : Attribute).Legible :=
    (Attribute.plain_of_isPlain (by decide)).legible
  have legible : ∀ attr ∈ (styledTag value).attributes, attr.Legible := by
    simpa [styledTag] using And.intro first second
  have single : (styledTag value).attributes.countP Attribute.isClass ≤ 1 := by simp [styledTag,Attribute.isClass]
  exact ⟨⟨⟨'i',[],rfl,rfl⟩,by simp [styledTag,Attribute.isNameChar,isSpace,isQuote],
    fun attr member => (legible attr member).toFormed,single,fun _ member => absurd member List.not_mem_nil⟩,legible⟩

/-- A value with two escaped quotes. -/
theorem hoist_inStep_two :
    let named : Attribute := ⟨[' '],"class".toList,some "c".toList⟩
    let tag := styledTag "content:\\\"x\\\"".toList
    let registry := Registry.empty "inl-".toList
    tag.Formed ∧ (∀ attr ∈ tag.attributes, attr.Legible) ∧ tag.InStep ∧ tag.declarations ≠ [] ∧
      ∃ ids last outcome merged, Piece.allocateAll registry tag.declarations = .ok (ids,last) ∧
        hoist tag.print registry = (.ok outcome,last) ∧ outcome.warnings = [] ∧
        outcome.text = (tag.restyle ids.eraseDups).print ∧
        (tag.restyle ids.eraseDups).attributes.filter Attribute.isClass = [merged] ∧
        ∀ name, name ∈ words (merged.value.getD []) ↔
          name ∈ words (named.value.getD []) ∨ name ∈ ids.map (·.text) := by
  intro named tag registry
  obtain ⟨formed,legible⟩ : tag.Formed ∧ ∀ attr ∈ tag.attributes, attr.Legible :=
    legible_styledTag (by decide) (by decide) (by decide)
  have absent : ∀ tail ∈ tag.lead.tails, ¬ classOpen <+: tail := by decide
  have inStep : tag.InStep := by
    refine ⟨fun attr rest suffix styled => ?_,by decide,fun front back split _ => ?_⟩
    · rcases List.suffix_cons_iff.mp suffix with same | later
      · cases same
        decide
      · rcases List.suffix_cons_iff.mp later with same | none
        · cases same
          contradiction
        · exact absurd (List.suffix_nil.mp none) (List.cons_ne_nil _ _)
    · exact absurd (List.prefix_append _ _) (absent _ ((List.mem_tails _ _).mpr ⟨front,split.symm⟩))
  have declared : tag.declarations = [⟨"content:\\\"x\\\";".toList⟩] := by decide
  have allocated := Piece.allocateAll_empty "inl-".toList ⟨"content:\\\"x\\\";".toList⟩
  rw [← declared] at allocated
  have nothing : registry.Named "inl-".toList := fun _ member => absurd member List.not_mem_nil
  have single : tag.attributes.filter Attribute.isClass = [named] := rfl
  obtain ⟨outcome,merged,result⟩ :=
    hoist_inStep (by decide) nothing rfl formed legible inStep single (by simp [declared]) allocated
  exact ⟨formed,legible,inStep,by simp [declared],_,_,outcome,merged,allocated,result⟩

/-- A value with one escaped quote. The search for a class attribute takes it for the end of the value and the
quote behind it for the beginning of another, in which the class attribute is hidden. -/
theorem hoist_hidden :
    let named : Attribute := ⟨[' '],"class".toList,some "c".toList⟩
    let tag := styledTag "content:\\\"x".toList
    let registry := Registry.empty "inl-".toList
    let doubled : Tag := ⟨"i".toList,[⟨[' '],"class".toList,some "inl-ec40934c".toList⟩,named],[],false⟩
    tag.Formed ∧ (∀ attr ∈ tag.attributes, attr.Legible) ∧ tag.declarations ≠ [] ∧
      tag.attributes.filter Attribute.isClass = [named] ∧ doubled.attributes.countP Attribute.isClass = 2 ∧
      ∃ outcome last, hoist tag.print registry = (.ok outcome,last) ∧ outcome.text = doubled.print := by
  intro named tag registry doubled
  obtain ⟨formed,legible⟩ : tag.Formed ∧ ∀ attr ∈ tag.attributes, attr.Legible :=
    legible_styledTag (by decide) (by decide) (by decide)
  let attr : StyleAttr := ⟨⟨3,22⟩,⟨10,21⟩,⟨0,33⟩,none⟩
  have scanned : scan tag.print = [attr].map .style := by
    have split : tag.print = "<i ".toList ++ (styleOpen ++ ("content:\\\"x".toList ++ '"' ::
      (" class=".toList ++ '"' :: ("c".toList ++ '"' :: (">".toList ++ []))))) := by decide
    rw [scan,split,scanFrom_ne (show ∀ c ∈ "<i ".toList, c ≠ 's' by simp),scanFrom_value (by rfl) (by rfl),
      scanFrom_past (escaped_of_not_mem (by decide)) (by decide),
      scanFrom_past (escaped_of_not_mem (by decide)) (by decide),
      scanFrom_ne (show ∀ c ∈ ">".toList, c ≠ 's' by simp),scanFrom_nil]
    rfl
  let binding : Binding := ⟨⟨"content:\\\"x;".toList⟩,⟨"inl-ec40934c".toList⟩⟩
  let edit : TagEdit := ⟨⟨0,33⟩,[attr],none,[binding.id]⟩
  have planned : (Plan.start registry).addAll tag.print [attr] =
      (⟨[edit],registry.append binding,[binding],0,0,[]⟩,none) := by decide +kernel
  have changes : edit.changes? tag.print = some [⟨⟨2,22⟩,[]⟩,⟨⟨2,2⟩," class=\"inl-ec40934c\"".toList⟩] := by decide
  have sliced : slice? tag.print edit.tag = some tag.print := by decide
  have rendered : edit.render? tag.print = some doubled.print :=
    (TagEdit.render?_of_pairwise sliced changes (by decide)).trans (by decide)
  exact ⟨formed,legible,by decide,rfl,by decide,_,_,hoist_of_lone scanned planned rfl rfl rendered,rfl⟩

end Hoist

end StyleHoist.Markup
