import StyleHoist.Proofs.Markup.Batches
import StyleHoist.Proofs.Stylesheet.Names

/-! A second run over what a run has written. Restyled pieces are plain again and
have no styles left, and the stylesheet is read back as the run had it, so there
is nothing to do. -/
namespace StyleHoist.Markup

open Text

variable {classPrefix comment css final : Text} {registry last : Registry} {ids : List ClassId}

theorem isPlainValue_of_last {value : Text} (inside : ∀ c ∈ value, Attribute.isValueChar c = true)
    (ended : ∃ front c, value = front ++ [c] ∧ c ≠ '=') : Attribute.isPlainValue value = true := by
  obtain ⟨front,c,rfl,other⟩ := ended
  simp only [Attribute.isPlainValue,Bool.and_eq_true,List.all_eq_true]
  refine ⟨inside,?_⟩
  rw [Bool.not_eq_true',← Bool.not_eq_true,List.isSuffixOf_iff_suffix]
  rintro ⟨lead,same⟩
  have split : lead ++ "style".toList ++ ['='] = front ++ [c] := by simpa using same
  have last := List.append_inj_right' split rfl
  exact other (List.singleton_inj.mp last).symm

theorem exists_last_intercalate {names : List Text} {front : Text} {c : Char}
    (ended : names.getLast? = some (front ++ [c])) :
    ∃ lead, [' '].intercalate names = lead ++ [c] := by
  induction names with
  | nil => contradiction
  | cons first rest ih =>
    cases rest with
    | nil =>
      cases ended
      exact ⟨front,List.intercalate_singleton⟩
    | cons second rest =>
      obtain ⟨lead,whole⟩ := ih (by simpa using ended)
      exact ⟨first ++ [' '] ++ lead,by rw [List.intercalate_cons_cons,whole]; simp⟩

theorem isValueChar_of_isClassChar {c : Char} (letter : Config.isClassChar c = true) :
    Attribute.isValueChar c = true := by
  have others : ['"','<','>','\\'].all (fun d => !Config.isClassChar d) = true := by decide
  cases inside : Attribute.isValueChar c with
  | true => rfl
  | false =>
    have member : c ∈ ['"','<','>','\\'] := by simpa [Attribute.isValueChar,Decidable.or_iff_not_imp_left] using inside
    have special := List.all_eq_true.mp others c member
    rw [letter] at special
    contradiction

theorem isPlainValue_names (valid : Config.isValidPrefix classPrefix = true) {names : List Text}
    (clear : ∀ name ∈ names, ∀ c ∈ name, Attribute.isValueChar c = true) {missing : List ClassId}
    (some : missing ≠ []) (generated : ∀ id ∈ missing, id.Generated classPrefix) :
    Attribute.isPlainValue ([' '].intercalate (names ++ missing.map (·.text))) = true := by
  obtain ⟨before,id,rfl⟩ := (List.eq_nil_or_concat' missing).resolve_left some
  obtain ⟨front,c,text,digit⟩ := (generated id (by simp)).exists_last
  have ended : (names ++ (before ++ [id]).map (·.text)).getLast? = .some (front ++ [c]) := by simp [text]
  obtain ⟨lead,whole⟩ := exists_last_intercalate ended
  refine isPlainValue_of_last (fun d member => ?_) ⟨lead,c,whole,?_⟩
  · rcases mem_intercalate member with between | ⟨name,among,inside⟩
    · rw [List.mem_singleton.mp between]
      decide
    · rcases List.mem_append.mp among with old | new
      · exact clear name old d inside
      · obtain ⟨other,present,rfl⟩ := List.mem_map.mp new
        exact isValueChar_of_isClassChar ((generated other present).isClassChar_of_mem valid inside)
  · rintro rfl
    exact absurd digit (by decide)

namespace Attribute

theorem isPlain_addNames {attr : Attribute} (valid : Config.isValidPrefix classPrefix = true)
    (plain : attr.isPlain = true) (generated : ∀ id ∈ ids, id.Generated classPrefix) :
    (attr.addNames ids).isPlain = true := by
  let names := (words (attr.value.getD [])).eraseDups
  let missing := ids.filter fun id => !names.contains id.text
  have texts : (ids.map (·.text)).filter (!names.contains ·) = missing.map (·.text) := List.filter_map
  have clear : ∀ name ∈ names, ∀ c ∈ name, isValueChar c = true := by
    intro name member c within
    have inside := mem_of_mem_words (List.mem_eraseDups.mp member) within
    cases valued : attr.value with
    | none => simp [valued] at inside
    | some value =>
      rw [valued] at inside
      exact ((plain_of_isPlain plain).value value valued).1 c inside
  rw [addNames]
  split
  next => exact plain
  next lacking =>
    have some : missing ≠ [] := by
      intro none
      exact lacking (texts.trans (by rw [none]; rfl))
    have value := isPlainValue_names valid clear some fun id member => generated id (List.mem_filter.mp member).1
    rw [← texts] at value
    unfold isPlain at plain ⊢
    simp only [Bool.and_eq_true] at plain ⊢
    exact ⟨plain.1,value⟩

end Attribute

def Piece.Styleless (piece : Piece) : Prop :=
  ∀ start, piece = .tag start → ∀ attr ∈ start.attributes, attr.isStyle = false

namespace Tag

variable {tag : Tag}

theorem mem_restyle {attr : Attribute} (member : attr ∈ (tag.restyle ids).attributes) :
    (∃ other ∈ tag.attributes, other.isStyle = false ∧ (attr = other ∨ attr = other.addNames ids)) ∨
      ids ≠ [] ∧ attr = ⟨[' '],"class".toList,some ([' '].intercalate (ids.map (·.text)))⟩ := by
  have kept {other : Attribute} (among : other ∈ tag.attributes.filter (!·.isStyle)) :
      other ∈ tag.attributes ∧ other.isStyle = false := by simpa using among
  simp only [restyle] at member
  split at member
  next => exact .inl ⟨attr,(kept member).1,(kept member).2,.inl rfl⟩
  next some =>
    split at member
    next =>
      obtain ⟨other,among,rfl⟩ := List.mem_map.mp member
      obtain ⟨inside,plain⟩ := kept among
      refine .inl ⟨other,inside,plain,?_⟩
      split
      · exact .inr rfl
      · exact .inl rfl
    next =>
      rcases List.mem_cons.mp member with new | among
      · exact .inr ⟨some,new⟩
      · exact .inl ⟨attr,(kept among).1,(kept among).2,.inl rfl⟩

theorem isStyle_restyle (tag : Tag) (ids : List ClassId) :
    ∀ attr ∈ (tag.restyle ids).attributes, attr.isStyle = false := by
  intro attr member
  rcases mem_restyle member with ⟨other,-,plain,rfl | rfl⟩ | ⟨-,rfl⟩
  · exact plain
  · rw [(Attribute.isStyle_addNames other ids).1]
    exact plain
  · rfl

theorem countP_isClass_restyle (single : tag.attributes.countP Attribute.isClass ≤ 1) (ids : List ClassId) :
    (tag.restyle ids).attributes.countP Attribute.isClass ≤ 1 := by
  have few : (tag.attributes.filter (!·.isStyle)).countP Attribute.isClass ≤ 1 :=
    Nat.le_trans (List.Sublist.countP_le List.filter_sublist) single
  simp only [restyle]
  split
  next => exact few
  next =>
    split
    next =>
      rw [List.countP_map]
      refine Nat.le_trans (Nat.le_of_eq (List.countP_congr fun attr _ => ?_)) few
      simp only [Function.comp_apply]
      split
      · rw [(Attribute.isStyle_addNames attr ids).2]
      · rfl
    next none =>
      have gone : (tag.attributes.filter (!·.isStyle)).countP Attribute.isClass = 0 := by
        rw [List.countP_eq_zero]
        simpa using none
      rw [List.countP_cons,gone]
      split <;> decide

theorem isPlain_restyle (valid : Config.isValidPrefix classPrefix = true) (plain : tag.isPlain = true)
    (generated : ∀ id ∈ ids, id.Generated classPrefix) : (tag.restyle ids).isPlain = true := by
  simp only [isPlain,Bool.and_eq_true,List.all_eq_true,decide_eq_true_eq] at plain ⊢
  obtain ⟨⟨⟨named,attributes⟩,single⟩,space⟩ := plain
  refine ⟨⟨⟨named,fun attr member => ?_⟩,countP_isClass_restyle single ids⟩,space⟩
  rcases mem_restyle member with ⟨other,among,-,rfl | rfl⟩ | ⟨some,rfl⟩
  · exact attributes _ among
  · exact Attribute.isPlain_addNames valid (attributes _ among) generated
  · have clear : ∀ name ∈ ([] : List Text), ∀ c ∈ name, Attribute.isValueChar c = true := by simp
    have value := isPlainValue_names valid clear some generated
    simpa [Attribute.isPlain,Attribute.isNameChar,isSpace,isQuote] using value

theorem located_of_styleless (none : ∀ attr ∈ tag.attributes, attr.isStyle = false) (start : Nat) :
    tag.located start = [] := by
  have nothing : ∀ (attributes : List Attribute) (offset : Nat), (∀ attr ∈ attributes, attr.isStyle = false) →
      locateStyles (tag.spanAt start) (locateClass (tag.inner start) tag.attributes) offset attributes = [] := by
    intro attributes
    induction attributes with
    | nil => exact fun _ _ => rfl
    | cons attr rest ih =>
      intro offset others
      rw [locateStyles,others attr List.mem_cons_self]
      exact ih _ fun other member => others other (List.mem_cons_of_mem _ member)
  exact nothing _ _ none

end Tag

namespace Piece

theorem locatedAll_of_styleless {pieces : List Piece} (none : ∀ piece ∈ pieces, piece.Styleless)
    (offset : Nat) : locatedAll offset pieces = [] := by
  induction pieces generalizing offset with
  | nil => rfl
  | cons piece rest ih =>
    rw [locatedAll,ih fun other member => none other (List.mem_cons_of_mem _ member),List.append_nil]
    cases piece with
    | text content => rfl
    | other inside => rfl
    | tag start => exact Tag.located_of_styleless (none _ List.mem_cons_self start rfl) offset

theorem arePlain_of_forall₂ {pieces others : List Piece}
    (alike : List.Forall₂ (fun piece other => other.isText = piece.isText ∧
      (piece.isPlain = true → other.isPlain = true)) pieces others)
    (plain : arePlain pieces = true) : arePlain others = true := by
  induction alike with
  | nil => rfl
  | @cons piece other pieces others head tail ih =>
    obtain ⟨here,later,-⟩ := arePlain_cons plain
    cases tail with
    | nil => exact head.2 here
    | cons second rest =>
      simp only [arePlain,Bool.and_eq_true,Bool.not_eq_true',Bool.and_eq_false_iff] at plain ⊢
      rw [head.1,second.1]
      exact ⟨⟨head.2 here,plain.1.2⟩,ih later⟩

theorem restyled_of_restyle (valid : Config.isValidPrefix classPrefix = true) {piece shown : Piece}
    (named : registry.Named classPrefix) (same : registry.classPrefix = classPrefix)
    (restyled : restyle registry piece = .ok (shown,last)) :
    (last.Named classPrefix ∧ last.classPrefix = classPrefix) ∧ shown.Styleless ∧
      shown.isText = piece.isText ∧ (piece.isPlain = true → shown.isPlain = true) := by
  cases piece with
  | text content =>
    cases restyled
    exact ⟨⟨named,same⟩,by rintro start ⟨⟩,rfl,id⟩
  | other inside =>
    cases restyled
    exact ⟨⟨named,same⟩,by rintro start ⟨⟩,rfl,id⟩
  | tag start =>
    obtain ⟨ids,allocated,rfl⟩ := restyle_tag_ok.mp restyled
    obtain ⟨added,grown,-,standing⟩ := growth_of_allocateAll allocated
    have names := named.grow same grown
    have generated (id : ClassId) (member : id ∈ ids.eraseDups) :=
      names.generated standing id (List.mem_eraseDups.mp member)
    refine ⟨⟨names,grown.classPrefix.trans same⟩,?_,rfl,fun plain => Tag.isPlain_restyle valid plain generated⟩
    rintro _ ⟨⟩
    exact Tag.isStyle_restyle start _

theorem restyled_of_restyleAll (valid : Config.isValidPrefix classPrefix = true) {pieces others : List Piece}
    (named : registry.Named classPrefix) (same : registry.classPrefix = classPrefix)
    (restyled : restyleAll registry pieces = .ok (others,last)) :
    (last.Named classPrefix ∧ last.classPrefix = classPrefix) ∧ (∀ piece ∈ others, piece.Styleless) ∧
      List.Forall₂ (fun piece other => other.isText = piece.isText ∧
        (piece.isPlain = true → other.isPlain = true)) pieces others := by
  induction pieces generalizing registry others with
  | nil =>
    cases restyled
    exact ⟨⟨named,same⟩,by simp,.nil⟩
  | cons piece rest ih =>
    obtain ⟨shown,next,later,first,second,rfl⟩ := restyleAll_cons_ok.mp restyled
    obtain ⟨⟨names,kept⟩,none,alike⟩ := restyled_of_restyle valid named same first
    obtain ⟨final,nothing,paired⟩ := ih names kept second
    refine ⟨final,fun other member => ?_,.cons alike paired⟩
    rcases List.mem_cons.mp member with rfl | among
    · exact none
    · exact nothing other among

end Piece

/-- What hoisting makes of a document that it leaves as it is. -/
def Outcome.unchanged (document : Text) : Outcome := ⟨document,[],[],0,0,[]⟩

theorem hoist_of_styleless {pieces : List Piece} (plain : Piece.arePlain pieces = true)
    (none : ∀ piece ∈ pieces, piece.Styleless) (registry : Registry) :
    hoist (Piece.printAll pieces) registry = (.ok (.unchanged (Piece.printAll pieces)),registry) := by
  have nothing := Piece.locatedAll_of_styleless none 0
  have unscanned : scan (Piece.printAll pieces) = [] := by
    rw [Piece.scan_printAll plain,nothing]
    rfl
  rw [hoist_eq,Piece.styleAttrs_printAll plain,nothing,unscanned]
  rfl

/-- A document that was hoisted stays as it is, whatever classes are known. -/
theorem hoist_hoisted (valid : Config.isValidPrefix classPrefix = true) {pieces : List Piece}
    (plain : Piece.arePlain pieces = true) (named : registry.Named classPrefix)
    (same : registry.classPrefix = classPrefix) {outcome : Outcome}
    (hoisted : hoist (Piece.printAll pieces) registry = (.ok outcome,last)) :
    (last.Named classPrefix ∧ last.classPrefix = classPrefix) ∧
      ∀ other, hoist outcome.text other = (.ok (.unchanged outcome.text),other) := by
  cases restyled : Piece.restyleAll registry pieces with
  | error collision =>
    have stuck := hoist_of_restyleAll_error plain restyled
    rw [hoisted] at stuck
    contradiction
  | ok result =>
    obtain ⟨others,next⟩ := result
    obtain ⟨own,again,text,-⟩ := hoist_of_restyleAll plain restyled
    cases hoisted.symm.trans again
    obtain ⟨kept,none,alike⟩ := Piece.restyled_of_restyleAll valid named same restyled
    refine ⟨kept,fun other => ?_⟩
    rw [text]
    exact hoist_of_styleless (Piece.arePlain_of_forall₂ alike plain) none other

theorem hoistAll_hoisted (valid : Config.isValidPrefix classPrefix = true) {documents : List (List Piece)}
    (plain : ∀ pieces ∈ documents, Piece.arePlain pieces = true) (named : registry.Named classPrefix)
    (same : registry.classPrefix = classPrefix) {outcomes : List Outcome}
    (hoisted : hoistAll registry (documents.map Piece.printAll) = .ok (outcomes,last)) (other : Registry) :
    hoistAll other (outcomes.map (·.text)) = .ok (outcomes.map fun outcome => .unchanged outcome.text,other) := by
  induction documents generalizing registry outcomes with
  | nil =>
    cases hoisted
    rfl
  | cons pieces rest ih =>
    obtain ⟨outcome,next,later,first,second,rfl⟩ := hoistAll_cons_ok hoisted
    obtain ⟨⟨names,kept⟩,unchanged⟩ := hoist_hoisted valid (plain pieces List.mem_cons_self) named same first
    have others := ih (fun more member => plain more (List.mem_cons_of_mem _ member)) names kept second
    simp only [List.map_cons,hoistAll,unchanged other,others]

/-- After a run over plain documents a second one, on what the first has written, finds nothing to
do: no edits, no new classes, no warnings, and the same documents and stylesheet. -/
theorem hoistBatch_again (valid : Config.isValidPrefix classPrefix = true) (oneLine : '\n' ∉ comment)
    {documents : List (List Piece)} (plain : ∀ pieces ∈ documents, Piece.arePlain pieces = true)
    {outcomes : List Outcome}
    (hoisted : hoistBatch classPrefix comment css (documents.map Piece.printAll) = .ok (outcomes,final)) :
    hoistBatch classPrefix comment final (outcomes.map (·.text)) =
      .ok (outcomes.map fun outcome => .unchanged outcome.text,final) := by
  obtain ⟨registry,last,seeded,run,rfl⟩ := hoistBatch_eq_ok hoisted
  have reseeded := seed_extend_of_hoistAll valid oneLine seeded run
  have named := Stylesheet.named_of_seed (Stylesheet.lineFeed_not_mem_of_isValidPrefix valid) seeded
  have again := hoistAll_hoisted valid plain named (Stylesheet.classPrefix_of_seed seeded) run
  simp only [hoistBatch,reseeded,again]
  rfl

/-- Two documents with a class beside two styles, one of them empty, and with a style alone. -/
theorem hoistBatch_again_two :
    let documents : List Text := ["<p class=\"k\" style=\"a:1\" style=\"\">".toList,"</p><b style=\"b:2\">x".toList]
    ∃ outcomes final, hoistBatch "inl-".toList "new".toList [] documents = .ok (outcomes,final) ∧
      hoistBatch "inl-".toList "new".toList final (outcomes.map (·.text)) =
        .ok (outcomes.map fun outcome => .unchanged outcome.text,final) := by
  intro documents
  let start := Registry.empty "inl-".toList
  let red := start.fresh (Declaration.normalize "a:1".toList)
  let blue := start.fresh (Declaration.normalize "b:2".toList)
  let tag : Tag := ⟨"p".toList,[⟨[' '],"class".toList,some ['k']⟩,⟨[' '],"style".toList,some "a:1".toList⟩,
    ⟨[' '],"style".toList,some []⟩],[],false⟩
  let other : Tag := ⟨"b".toList,[⟨[' '],"style".toList,some "b:2".toList⟩],[],false⟩
  let pieces : List (List Piece) := [[.tag tag],[.other "/p".toList,.tag other,.text ['x']]]
  have plain : ∀ document ∈ pieces, Piece.arePlain document = true := by decide
  have printed : pieces.map Piece.printAll = documents := by decide
  have seeded : Stylesheet.seed "inl-".toList [] = .ok start := by
    rw [Stylesheet.seed_eq_ok_iff,Stylesheet.bindings_nil]
    rfl
  have before : Piece.restyleAll start [.tag tag] =
      .ok ([.tag (tag.restyle [red.id])],start.append red) := rfl
  have after : Piece.restyleAll (start.append red) [.other "/p".toList,.tag other,.text ['x']] =
      .ok ([.other "/p".toList,.tag (other.restyle [blue.id]),.text ['x']],
        (start.append red).append blue) := by
    decide +kernel
  obtain ⟨one,first,-⟩ := hoist_of_restyleAll (plain _ List.mem_cons_self) before
  obtain ⟨two,second,-⟩ := hoist_of_restyleAll (plain _ (by simp [pieces])) after
  have run : hoistBatch "inl-".toList "new".toList [] (pieces.map Piece.printAll) =
      .ok ([one,two],Stylesheet.extend [] "new".toList [red,blue]) := by
    simp only [hoistBatch,seeded,pieces,List.map_cons,List.map_nil,hoistAll,first,second]
    rfl
  have again := hoistBatch_again (by decide) (by decide) plain run
  rw [printed] at run
  exact ⟨_,_,run,again⟩

end StyleHoist.Markup
