import StyleHoist.Proofs.Conversion.Replanning
import StyleHoist.Proofs.Inventory.Agreement
import StyleHoist.Proofs.Markup.Accounting
import StyleHoist.Proofs.Result

/-! What the entries of an inventory tell of the documents that it has taken in: each
declaration that occurs, how often, and in which of them. -/
namespace StyleHoist

open Markup Procedure Attempt

/-- What a document declares, attribute after attribute. -/
def Source.styles (source : Source) : List Declaration :=
  match source.content with
  | .ok text => declared text (styleAttrs text)
  | .error _ => []

/-- What is found in a document. -/
def Source.items (source : Source) : List Item :=
  match source.content with
  | .ok text => scan text
  | .error _ => []

theorem Source.mem_styles_iff {source : Source} {declaration : Declaration} :
    declaration ∈ source.styles ↔ ∃ text attr value, source.content = .ok text ∧ Item.style attr ∈ scan text ∧
      Text.slice? text attr.value = some value ∧ Declaration.normalize value = declaration ∧
      declaration.isEmpty = false := by
  rw [styles]
  constructor
  · intro member
    split at member
    next text content =>
      obtain ⟨mapped,filled⟩ := List.mem_filter.mp member
      obtain ⟨attr,among,rfl⟩ := List.mem_map.mp mapped
      obtain ⟨value,inside⟩ := (located_of_mem_styleAttrs among).value
      obtain ⟨item,found,style⟩ := List.mem_filterMap.mp among
      refine ⟨text,attr,value,content,?_,inside,?_,by simpa using filled⟩
      · cases item with
        | style other =>
          cases style
          exact found
        | warning other => cases style
      · rw [StyleAttr.declaration,inside,Option.getD_some]
    next => cases member
  · rintro ⟨text,attr,value,content,found,inside,rfl,filled⟩
    rw [content]
    refine List.mem_filter.mpr ⟨List.mem_map.mpr ⟨attr,List.mem_filterMap.mpr ⟨_,found,rfl⟩,?_⟩,by simp [filled]⟩
    rw [StyleAttr.declaration,inside,Option.getD_some]

namespace Inventory

/-- Entries that tell of each use of a declaration, by the names of the documents. -/
structure Tells (uses : List (String × Declaration)) (entries : List Entry) : Prop where
  declarations : entries.map (·.declaration) = (uses.map (·.2)).eraseDups
  figures : ∀ entry ∈ entries, entry.occurrences = (uses.map (·.2)).count entry.declaration ∧
    entry.documents = ((uses.filter (·.2 = entry.declaration)).map (·.1)).eraseDups

variable {uses : List (String × Declaration)} {entries : List Entry} {inventory next entered : Inventory}
  {registry last : Registry} {declaration : Declaration} {name : String} {text : Text}

theorem tells_start : Tells [] start.entries := ⟨rfl,fun _ member => absurd member List.not_mem_nil⟩

theorem Entry.count_documents (name : String) (entry : Entry) :
    (entry.count name).documents = if name ∈ entry.documents then entry.documents else entry.documents ++ [name] := rfl

theorem tells_count (declarations : entries.map (·.declaration) = ((uses.map (·.2)) ++ [declaration]).eraseDups)
    (figures : ∀ entry ∈ entries, entry.occurrences = (uses.map (·.2)).count entry.declaration ∧
      entry.documents = ((uses.filter (·.2 = entry.declaration)).map (·.1)).eraseDups) :
    Tells (uses ++ [(name,declaration)])
      (entries.map fun entry => if entry.declaration = declaration then entry.count name else entry) := by
  refine ⟨?_,fun entry member => ?_⟩
  · rw [List.map_map,List.map_append,List.map_singleton,← declarations]
    refine List.map_congr_left fun entry _ => ?_
    rw [Function.comp_apply]
    split <;> rfl
  · obtain ⟨before,among,rfl⟩ := List.mem_map.mp member
    obtain ⟨occurrences,documents⟩ := figures before among
    rw [List.map_append,List.map_singleton,List.filter_append]
    by_cases same : before.declaration = declaration
    · have used : [(name,declaration)].filter (·.2 = before.declaration) = [(name,declaration)] := by simp [same]
      rw [if_pos same]
      refine ⟨?_,?_⟩
      · rw [show (before.count name).declaration = declaration from same,List.count_append,List.count_singleton_self,
          ← same,← occurrences]
        rfl
      · rw [show (before.count name).declaration = before.declaration from rfl,used,List.map_append,List.map_singleton,
          FirstSeen.eraseDups_concat,Entry.count_documents,documents]
        simp only [List.mem_eraseDups]
    · have unused : [(name,declaration)].filter (·.2 = before.declaration) = [] := by simp [Ne.symm same]
      rw [if_neg same,unused,List.append_nil,List.count_append,List.count_singleton,occurrences]
      simp [Ne.symm same,documents]

theorem enter_cases (done : inventory.enter registry declaration = .ok (entered,last)) :
    declaration ∈ inventory.entries.map (·.declaration) ∧ entered.entries = inventory.entries ∨
      declaration ∉ inventory.entries.map (·.declaration) ∧ ∃ id existing,
        entered.entries = inventory.entries ++ [⟨declaration,id,0,[],existing⟩] := by
  have known : inventory.entries.any (·.declaration = declaration) = true ↔
      declaration ∈ inventory.entries.map (·.declaration) := by simp
  rw [enter] at done
  split at done
  next old =>
    cases done
    exact .inl ⟨known.mp old,rfl⟩
  next new =>
    obtain ⟨allocated,-,listed⟩ := bind_eq_ok_iff.mp done
    cases listed
    exact .inr ⟨mt known.mpr new,_,_,rfl⟩

namespace Tells

theorem enter (tells : Tells uses inventory.entries) (done : inventory.enter registry declaration = .ok (entered,last))
    (name : String) : Tells (uses ++ [(name,declaration)]) (entered.count name declaration).entries := by
  rcases enter_cases done with ⟨old,same⟩ | ⟨new,id,existing,more⟩
  · rw [tells.declarations,List.mem_eraseDups] at old
    rw [count,same]
    refine tells_count ?_ tells.figures
    rw [FirstSeen.eraseDups_concat,if_pos old,tells.declarations]
  · rw [tells.declarations,List.mem_eraseDups] at new
    rw [count,more]
    refine tells_count ?_ fun entry member => ?_
    · rw [FirstSeen.eraseDups_concat,if_neg new,← tells.declarations,List.map_append]
      rfl
    · rcases List.mem_append.mp member with before | fresh
      · exact tells.figures entry before
      · rw [List.mem_singleton.mp fresh]
        have unused : uses.filter (·.2 = declaration) = [] := by
          rw [List.filter_eq_nil_iff]
          intro use among same
          exact new (of_decide_eq_true same ▸ List.mem_map_of_mem among)
        refine ⟨(List.count_eq_zero.mpr new).symm,?_⟩
        rw [unused]
        rfl

theorem add {item : Item} (tells : Tells uses inventory.entries)
    (done : Inventory.add name text (inventory,registry) item = .ok (next,last)) :
    Tells (uses ++ (declared text item.style?.toList).map (name,·)) next.entries := by
  cases item with
  | warning found =>
    cases done
    simpa [Item.style?,declared] using tells
  | style attr =>
    rw [Inventory.add] at done
    have single : declared text (Item.style attr).style?.toList = _ := declared_singleton text attr
    split at done
    next => cases done
    next value inside =>
      have content : attr.declaration text = Declaration.normalize value := by
        rw [StyleAttr.declaration,inside,Option.getD_some]
      rw [content] at single
      dsimp only at done
      split at done
      next blank =>
        cases done
        rw [single,if_pos blank]
        simpa using tells
      next filled =>
        rw [single,if_neg filled]
        split at done
        next => cases done
        next entered registry' found =>
          cases done
          exact tells.enter found name

theorem addDocument {source : Source} (tells : Tells uses inventory.entries)
    (done : Inventory.addDocument (inventory,registry) source = .ok (next,last)) :
    Tells (uses ++ source.styles.map (source.name,·)) next.entries := by
  rw [Inventory.addDocument] at done
  obtain ⟨text,read,scanned⟩ := bind_eq_ok_iff.mp done
  have styles : source.styles = declared text (styleAttrs text) := by rw [Source.styles,Source.text_eq_ok.mp read]
  rw [styles]
  refine foldlM_ok_kept (fun items state =>
    Tells (uses ++ (declared text (items.filterMap Item.style?)).map (source.name,·)) state.1.entries)
    ?_ (by simpa [declared] using tells) scanned
  rintro front item ⟨before,registry⟩ ⟨after,last⟩ tells done
  have more := Tells.add tells done
  rw [List.append_assoc,← List.map_append,← declared_append] at more
  rw [List.filterMap_append]
  cases item <;> exact more

end Tells

/-- The uses of declarations in documents, in the order of reading. -/
def usesOf (documents : List Source) : List (String × Declaration) :=
  documents.flatMap fun source => source.styles.map (source.name,·)

theorem tells_of_foldlM {documents : List Source} {first : Registry} {state : Inventory × Registry}
    (done : documents.foldlM addDocument (start,first) = .ok state) : Tells (usesOf documents) state.1.entries := by
  refine foldlM_ok_kept (fun documents (state : Inventory × Registry) => Tells (usesOf documents) state.1.entries)
    ?_ (show Tells (usesOf []) (start,first).1.entries from tells_start) done
  rintro front source ⟨before,registry⟩ ⟨after,last⟩ tells done
  rw [usesOf,List.flatMap_append,List.flatMap_singleton]
  exact Tells.addDocument tells done

end Inventory

end StyleHoist
