import Mathlib.Algebra.GroupWithZero.Nat
import StyleHoist.Inventory
import StyleHoist.Proofs.Markup.Tally

/-! What an inventory lists. It has one entry for each declaration seen, with the
class that allocating the declarations in the order of reading gives it, and its
occurrences add up to the number of attributes that declare something. -/
namespace StyleHoist

open Markup Registry

theorem Registry.lookup_of_allocate {registry next : Registry} {declaration : Declaration} {allocation : Allocation}
    (allocated : registry.allocate declaration = .ok (allocation,next)) :
    next.lookup declaration = some allocation.id := by
  rcases allocate_cases allocated with ⟨found,-,rfl⟩ | ⟨unknown,-,rfl,rfl⟩
  · exact found
  · rw [lookup,Option.map_eq_none_iff] at unknown
    rw [lookup,append,List.find?_append,unknown]
    simp [fresh]

theorem Registry.lookup_of_allocateAll {first last : Registry} {seen : List Declaration} {ids : List ClassId}
    {declaration : Declaration} (replayed : Piece.allocateAll first seen = .ok (ids,last)) (unseen : declaration ∉ seen) :
    last.lookup declaration = first.lookup declaration := by
  obtain ⟨added,grown,fresh,-⟩ := Piece.growth_of_allocateAll replayed
  have other : added.find? (·.declaration = declaration) = none := by
    rw [List.find?_eq_none]
    intro binding member same
    have mapped := List.mem_map_of_mem (f := (·.declaration)) member
    rw [fresh,List.mem_eraseDups,of_decide_eq_true same] at mapped
    exact unseen (List.mem_of_mem_filter mapped)
  rw [lookup,lookup,grown.known,List.find?_append,other,Option.or_none]

namespace Inventory

/-- An inventory and its registry after declarations, from a registry at the start. -/
structure Listed (first : Registry) (seen : List Declaration) (empty warned : Nat)
    (inventory : Inventory) (registry : Registry) : Prop where
  replayed : ∃ ids, Piece.allocateAll first seen = .ok (ids,registry)
  declarations : inventory.entries.map (·.declaration) = seen.eraseDups
  counted : (inventory.entries.map (·.occurrences)).sum = seen.length
  classes : ∀ entry ∈ inventory.entries, registry.lookup entry.declaration = some entry.id ∧
    entry.existing = (first.lookup entry.declaration).isSome
  empty : inventory.empty = empty
  warned : inventory.warnings.length = warned

variable {first registry next last : Registry} {seen : List Declaration} {empty warned : Nat}
  {inventory : Inventory} {declaration : Declaration}

theorem listed_start (first : Registry) : Listed first [] 0 0 start first :=
  ⟨⟨[],rfl⟩,rfl,rfl,fun _ member => absurd member List.not_mem_nil,rfl,rfl⟩

theorem sum_occurrences_count (name : String) (declaration : Declaration) (entries : List Entry) :
    ((entries.map fun entry => if entry.declaration = declaration then entry.count name else entry).map
      (·.occurrences)).sum = (entries.map (·.occurrences)).sum + (entries.map (·.declaration)).count declaration := by
  induction entries with
  | nil => rfl
  | cons entry rest ih =>
    simp only [List.map_cons,List.sum_cons,ih,List.count_cons]
    by_cases same : entry.declaration = declaration
    · simp only [same,if_true,Entry.count,beq_self_eq_true]
      omega
    · simp only [same,if_false,beq_iff_eq]
      omega

namespace Listed

theorem isSome_lookup (listed : Listed first seen empty warned inventory registry) (known : declaration ∈ seen) :
    ∃ id, registry.lookup declaration = some id := by
  rw [← List.mem_eraseDups,← listed.declarations] at known
  obtain ⟨entry,member,rfl⟩ := List.mem_map.mp known
  exact ⟨entry.id,(listed.classes entry member).1⟩

theorem any_iff (listed : Listed first seen empty warned inventory registry) :
    inventory.entries.any (·.declaration = declaration) = true ↔ declaration ∈ seen := by
  rw [← List.mem_eraseDups,← listed.declarations,List.any_eq_true,List.mem_map]
  simp

theorem count_entered {entered : Inventory} (name : String)
    (replayed : ∃ ids, Piece.allocateAll first (seen ++ [declaration]) = .ok (ids,next))
    (declarations : entered.entries.map (·.declaration) = (seen ++ [declaration]).eraseDups)
    (counted : (entered.entries.map (·.occurrences)).sum = seen.length)
    (classes : ∀ entry ∈ entered.entries, next.lookup entry.declaration = some entry.id ∧
      entry.existing = (first.lookup entry.declaration).isSome)
    (empties : entered.empty = empty) (warnings : entered.warnings.length = warned) :
    Listed first (seen ++ [declaration]) empty warned (entered.count name declaration) next := by
  refine ⟨replayed,?_,?_,fun entry member => ?_,empties,warnings⟩
  · rw [← declarations,Inventory.count,List.map_map]
    refine List.map_congr_left fun entry _ => ?_
    rw [Function.comp_apply]
    split <;> rfl
  · have once : (seen ++ [declaration]).eraseDups.count declaration = 1 :=
      List.count_eq_one_of_mem (FirstSeen.nodup_eraseDups _) (List.mem_eraseDups.mpr (by simp))
    rw [Inventory.count,sum_occurrences_count,counted,declarations,once,List.length_append,List.length_singleton]
  · obtain ⟨before,among,same⟩ := List.mem_map.mp member
    have known := classes before among
    split at same <;> rw [← same] <;> exact known

theorem enter (listed : Listed first seen empty warned inventory registry) {allocation : Allocation}
    (allocated : registry.allocate declaration = .ok (allocation,next)) (name : String) :
    ∃ entered, inventory.enter registry declaration = .ok (entered,next) ∧
      Listed first (seen ++ [declaration]) empty warned (entered.count name declaration) next := by
  obtain ⟨ids,reached⟩ := listed.replayed
  have replayed : ∃ ids, Piece.allocateAll first (seen ++ [declaration]) = .ok (ids,next) :=
    ⟨_,Piece.allocateAll_append_ok.mpr ⟨ids,registry,[allocation.id],reached,
      Piece.allocateAll_cons_ok.mpr ⟨allocation,next,[],allocated,rfl,rfl⟩,rfl⟩⟩
  have grown := Growth.of_allocate allocated
  have entries := FirstSeen.eraseDups_concat seen declaration
  rw [Inventory.enter]
  -- an entry is made for a declaration that is seen for the first time
  by_cases old : declaration ∈ seen
  · obtain ⟨id,known⟩ := listed.isSome_lookup old
    have same : next = registry := by
      rcases Registry.allocate_cases allocated with ⟨-,-,same⟩ | ⟨unknown,-⟩
      · exact same
      · rw [known] at unknown
        contradiction
    subst same
    rw [if_pos (listed.any_iff.mpr old)]
    rw [if_pos old] at entries
    exact ⟨inventory,rfl,count_entered name replayed (listed.declarations.trans entries.symm) listed.counted
      listed.classes listed.empty listed.warned⟩
  · rw [if_neg (mt listed.any_iff.mp old),allocated]
    rw [if_neg old] at entries
    refine ⟨_,rfl,count_entered name replayed ?_ ?_ (fun entry member => ?_) listed.empty listed.warned⟩
    · rw [entries,List.map_append,listed.declarations]
      rfl
    · rw [List.map_append,List.sum_append,listed.counted]
      rfl
    · rcases List.mem_append.mp member with before | new
      · obtain ⟨found,existing⟩ := listed.classes entry before
        exact ⟨grown.lookup found,existing⟩
      · rw [List.mem_singleton.mp new]
        exact ⟨lookup_of_allocate allocated,by rw [lookup_of_allocateAll reached old]⟩

theorem enter_error (listed : Listed first seen empty warned inventory registry) {collision : Collision}
    (stuck : registry.allocate declaration = .error collision) :
    inventory.enter registry declaration = .error collision := by
  have unseen : declaration ∉ seen := by
    intro old
    obtain ⟨id,known⟩ := listed.isSome_lookup old
    rw [(allocate_eq_error_iff.mp stuck).1] at known
    contradiction
  rw [Inventory.enter,if_neg (mt listed.any_iff.mp unseen),stuck]
  rfl

theorem add_blank (listed : Listed first seen empty warned inventory registry) (name : String) {text value : Text}
    {attr : StyleAttr} (inside : Text.slice? text attr.value = some value) (blank : (attr.declaration text).isEmpty = true) :
    ∃ next, Inventory.add name text (inventory,registry) (.style attr) = .ok (next,registry) ∧
      Listed first seen (empty + 1) warned next registry := by
  have content : attr.declaration text = Declaration.normalize value := by
    rw [StyleAttr.declaration,inside,Option.getD_some]
  refine ⟨{ inventory with empty := inventory.empty + 1 },?_,?_⟩
  · simp only [Inventory.add,inside,← content,blank,if_true]
  · exact ⟨listed.replayed,listed.declarations,listed.counted,listed.classes,by rw [listed.empty],listed.warned⟩

theorem add_filled (listed : Listed first seen empty warned inventory registry) (name : String) {text value : Text}
    {attr : StyleAttr} (inside : Text.slice? text attr.value = some value) (filled : (attr.declaration text).isEmpty = false) :
    match registry.allocate (attr.declaration text) with
    | .ok (_,last) => ∃ next, Inventory.add name text (inventory,registry) (.style attr) = .ok (next,last) ∧
        Listed first (seen ++ [attr.declaration text]) empty warned next last
    | .error collision =>
        Inventory.add name text (inventory,registry) (.style attr) = .error (.collision (collision.inSource name)) := by
  have content : attr.declaration text = Declaration.normalize value := by
    rw [StyleAttr.declaration,inside,Option.getD_some]
  cases allocated : registry.allocate (attr.declaration text) with
  | error collision =>
    simp only [Inventory.add,inside,← content,filled,Bool.false_eq_true,if_false,listed.enter_error allocated]
  | ok pair =>
    obtain ⟨entered,done,after⟩ := listed.enter allocated name
    refine ⟨entered.count name (attr.declaration text),?_,after⟩
    simp only [Inventory.add,inside,← content,filled,Bool.false_eq_true,if_false,done]

/-- Taking in one item allocates what it declares, and fails only if that does. -/
theorem add (listed : Listed first seen empty warned inventory registry) (name : String) {text : Text} (item : Item)
    (cut : ∀ attr ∈ item.style?, ∃ value, Text.slice? text attr.value = some value) :
    match Piece.allocateAll registry (declared text item.style?.toList) with
    | .ok (_,last) => ∃ next, Inventory.add name text (inventory,registry) item = .ok (next,last) ∧
        Listed first (seen ++ declared text item.style?.toList) (empty + empties text item.style?.toList)
          (warned + item.warning?.toList.length) next last
    | .error collision =>
        Inventory.add name text (inventory,registry) item = .error (.collision (collision.inSource name)) := by
  cases item with
  | warning found =>
    refine ⟨_,rfl,?_⟩
    simpa [Item.style?,Item.warning?,declared,empties] using ⟨listed.replayed,listed.declarations,listed.counted,
      listed.classes,listed.empty,by rw [List.length_append,listed.warned]; rfl⟩
  | style attr =>
    obtain ⟨value,inside⟩ := cut attr rfl
    have single : declared text (Item.style attr).style?.toList = _ := declared_singleton text attr
    rw [single]
    cases blank : (attr.declaration text).isEmpty with
    | true =>
      have one : empties text (Item.style attr).style?.toList = 1 := by simp [Item.style?,empties,blank]
      rw [if_pos rfl,List.append_nil,one]
      exact listed.add_blank name inside blank
    | false =>
      have none : empties text (Item.style attr).style?.toList = 0 := by simp [Item.style?,empties,blank]
      have taken := listed.add_filled name inside blank
      rw [if_neg Bool.false_ne_true,none]
      cases allocated : registry.allocate (attr.declaration text) with
      | error collision =>
        rw [allocated] at taken
        rw [Piece.allocateAll_cons_error.mpr (.inl allocated)]
        exact taken
      | ok pair =>
        rw [allocated] at taken
        rw [Piece.allocateAll_cons_ok.mpr ⟨pair.1,pair.2,[],allocated,rfl,rfl⟩]
        exact taken

theorem foldlM_add (listed : Listed first seen empty warned inventory registry) (name : String) {text : Text}
    {items : List Item} (cut : ∀ attr ∈ items.filterMap Item.style?, ∃ value, Text.slice? text attr.value = some value) :
    match Piece.allocateAll registry (declared text (items.filterMap Item.style?)) with
    | .ok (_,last) => ∃ next, items.foldlM (Inventory.add name text) (inventory,registry) = .ok (next,last) ∧
        Listed first (seen ++ declared text (items.filterMap Item.style?))
          (empty + empties text (items.filterMap Item.style?))
          (warned + (items.filterMap Item.warning?).length) next last
    | .error collision => items.foldlM (Inventory.add name text) (inventory,registry) =
        .error (.collision (collision.inSource name)) := by
  induction items generalizing seen empty warned inventory registry with
  | nil => exact ⟨inventory,rfl,by simpa [declared,empties] using listed⟩
  | cons item rest ih =>
    have styles : (item :: rest).filterMap Item.style? = item.style?.toList ++ rest.filterMap Item.style? := by
      cases item <;> rfl
    have warnings : (item :: rest).filterMap Item.warning? = item.warning?.toList ++ rest.filterMap Item.warning? := by
      cases item <;> rfl
    rw [styles] at cut ⊢
    rw [warnings,declared_append,List.foldlM_cons]
    have step := listed.add name item fun attr head => cut attr (List.mem_append_left _ (Option.mem_toList.mpr head))
    cases front : Piece.allocateAll registry (declared text item.style?.toList) with
    | error collision =>
      rw [front] at step
      rw [Piece.allocateAll_append_error.mpr (.inl front)]
      simp only [step]
      rfl
    | ok pair =>
      obtain ⟨ids,middle⟩ := pair
      rw [front] at step
      obtain ⟨next,done,listed⟩ := step
      have later := ih listed fun attr member => cut attr (List.mem_append_right _ member)
      simp only [done]
      cases back : Piece.allocateAll middle (declared text (rest.filterMap Item.style?)) with
      | error collision =>
        rw [back] at later
        rw [Piece.allocateAll_append_error.mpr (.inr ⟨ids,middle,front,back⟩)]
        exact later
      | ok pair =>
        obtain ⟨others,last⟩ := pair
        rw [back] at later
        obtain ⟨final,finished,whole⟩ := later
        rw [Piece.allocateAll_append_ok.mpr ⟨ids,middle,others,front,back,rfl⟩]
        refine ⟨final,finished,?_⟩
        rw [List.append_assoc,Nat.add_assoc,Nat.add_assoc] at whole
        rwa [empties,List.countP_append,List.length_append]

end Listed

end Inventory

/-- The classes after the styles of a source, if it can be read and none collides. -/
def Source.classes (registry : Registry) (source : Source) : Except Failure Registry :=
  match source.content with
  | .error cause => .error (.file "read document" source.path cause)
  | .ok text =>
    match Piece.allocateAll registry (declared text (styleAttrs text)) with
    | .ok (_,next) => .ok next
    | .error collision => .error (.collision (collision.inSource source.name))

/-- What texts declare, in the order of reading. -/
def stylesOfAll (texts : List Text) : List Declaration := texts.flatMap fun text => declared text (styleAttrs text)

namespace Inventory.Listed

variable {first registry : Registry} {seen : List Declaration} {empty warned : Nat} {inventory : Inventory}

theorem addDocument (listed : Listed first seen empty warned inventory registry) (source : Source) :
    match source.classes registry with
    | .ok last => ∃ text next, source.content = .ok text ∧
        Inventory.addDocument (inventory,registry) source = .ok (next,last) ∧
        Listed first (seen ++ declared text (styleAttrs text)) (empty + empties text (styleAttrs text))
          (warned + (warningsOf text).length) next last
    | .error failure => Inventory.addDocument (inventory,registry) source = .error failure := by
  rw [Source.classes]
  unfold Inventory.addDocument
  rw [Source.text]
  cases content : source.content with
  | error cause => rfl
  | ok text =>
    have counted : Listed first seen empty warned { inventory with documents := inventory.documents + 1 } registry :=
      ⟨listed.replayed,listed.declarations,listed.counted,listed.classes,listed.empty,listed.warned⟩
    have cut : ∀ attr ∈ (scan text).filterMap Item.style?, ∃ value, Text.slice? text attr.value = some value :=
      fun attr member => (located_of_mem_styleAttrs member).value
    have run := counted.foldlM_add source.name cut
    rw [← styleAttrs] at run
    cases allocated : Piece.allocateAll registry (declared text (styleAttrs text)) with
    | error collision =>
      rw [allocated] at run
      simp only [allocated]
      exact run
    | ok pair =>
      rw [allocated] at run
      simp only [allocated]
      obtain ⟨next,done,after⟩ := run
      exact ⟨text,next,rfl,done,after⟩

/-- A run over sources allocates what they declare, and lists it. -/
theorem foldlM_addDocument (listed : Listed first seen empty warned inventory registry) (sources : List Source) :
    match sources.foldlM Source.classes registry with
    | .ok last => ∃ texts next, sources.map (·.content) = texts.map .ok ∧
        sources.foldlM Inventory.addDocument (inventory,registry) = .ok (next,last) ∧
        Listed first (seen ++ stylesOfAll texts)
          (empty + (texts.map fun text => empties text (styleAttrs text)).sum)
          (warned + (texts.map fun text => (warningsOf text).length).sum) next last
    | .error failure => sources.foldlM Inventory.addDocument (inventory,registry) = .error failure := by
  induction sources generalizing seen empty warned inventory registry with
  | nil => exact ⟨[],inventory,rfl,rfl,by simpa [stylesOfAll] using listed⟩
  | cons source rest ih =>
    have step := listed.addDocument source
    rw [List.foldlM_cons,List.foldlM_cons]
    cases classes : source.classes registry with
    | error failure =>
      rw [classes] at step
      simp only [step]
      rfl
    | ok middle =>
      rw [classes] at step
      obtain ⟨text,next,content,done,after⟩ := step
      have later := ih after
      simp only [done]
      change match rest.foldlM Source.classes middle with | .ok last => _ | .error failure => _
      cases finished : rest.foldlM Source.classes middle with
      | error failure =>
        rw [finished] at later
        exact later
      | ok last =>
        rw [finished] at later
        obtain ⟨texts,final,contents,run,whole⟩ := later
        refine ⟨text :: texts,final,by rw [List.map_cons,content,contents,List.map_cons],run,?_⟩
        rw [List.append_assoc,Nat.add_assoc,Nat.add_assoc] at whole
        exact whole

end Inventory.Listed

end StyleHoist
