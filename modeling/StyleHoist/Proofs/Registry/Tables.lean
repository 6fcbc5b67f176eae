import Mathlib.Data.Finmap
import StyleHoist.Proofs.Registry.Growth

/-! A registry as two tables, one by declaration and one by class, which every call keeps
up on its own. The calls give the same answers on the tables as on the list of
bindings, and leave the tables of the list that they leave. -/
namespace StyleHoist

/-- What a registry is asked to do: to find or make the class of a declaration, or to take over
a binding of any kind. -/
inductive Call where
  | allocate (declaration : Declaration)
  | register (binding : Binding)
deriving DecidableEq, Repr

inductive Reply where
  | allocated (allocation : Allocation)
  | registered
deriving DecidableEq, Repr

namespace Registry

/-- The answer to a call, and the registry behind it. A call that fails leaves the registry it was made on. -/
def answer (registry : Registry) : Call → Except Collision Reply × Registry
  | .allocate declaration =>
    match registry.allocate declaration with
    | .ok (allocation,next) => (.ok (.allocated allocation),next)
    | .error collision => (.error collision,registry)
  | .register binding =>
    match registry.register binding with
    | .ok next => (.ok .registered,next)
    | .error collision => (.error collision,registry)

/-- The registry behind calls, some of which may fail. -/
def afterAll (registry : Registry) (calls : List Call) : Registry :=
  calls.foldl (fun registry call => (registry.answer call).2) registry

end Registry

structure Tables where
  classPrefix : Text
  byDeclaration : Finmap fun _ : Declaration => ClassId
  byId : Finmap fun _ : ClassId => Declaration
  pending : List Binding

namespace Tables

def size (tables : Tables) : Nat := tables.byDeclaration.keys.card

/-- The conflict of a binding with the table by class. -/
def conflict? (tables : Tables) (binding : Binding) : Option Collision :=
  match tables.byId.lookup binding.id with
  | none => none
  | some existing =>
    if existing = binding.declaration then none
    else some ⟨binding.id,existing,binding.declaration,none⟩

/-- A binding written into both tables. What stood there is overwritten. -/
def write (tables : Tables) (binding : Binding) : Tables :=
  { tables with
    byDeclaration := tables.byDeclaration.insert binding.declaration binding.id
    byId := tables.byId.insert binding.id binding.declaration }

/-- Tables are written to only where a call succeeds. A registration looks for a conflict first
and then for the declaration, an allocation the other way round. -/
def answer (tables : Tables) : Call → Except Collision Reply × Tables
  | .register binding =>
    match tables.conflict? binding with
    | some collision => (.error collision,tables)
    | none =>
      match tables.byDeclaration.lookup binding.declaration with
      | some _ => (.ok .registered,tables)
      | none => (.ok .registered,tables.write binding)
  | .allocate declaration =>
    match tables.byDeclaration.lookup declaration with
    | some id => (.ok (.allocated ⟨id,false⟩),tables)
    | none =>
      let binding : Binding := ⟨declaration,ClassId.derive tables.classPrefix declaration⟩
      match tables.conflict? binding with
      | some collision => (.error collision,tables)
      | none => (.ok (.allocated ⟨binding.id,true⟩),
          { tables.write binding with pending := tables.pending ++ [binding] })

def afterAll (tables : Tables) (calls : List Call) : Tables :=
  calls.foldl (fun tables call => (tables.answer call).2) tables

end Tables

namespace Registry

variable {registry : Registry}

/-- The two tables of a list of bindings. -/
def tables (registry : Registry) : Tables where
  classPrefix := registry.classPrefix
  byDeclaration := (registry.known.map fun binding => ⟨binding.declaration,binding.id⟩).toFinmap
  byId := (registry.known.map fun binding => ⟨binding.id,binding.declaration⟩).toFinmap
  pending := registry.pending

theorem lookup_toFinmap_map {α κ β : Type} [DecidableEq κ] (list : List α) (key : α → κ) (value : α → β) (k : κ) :
    (list.map fun a => (⟨key a,value a⟩ : Sigma fun _ : κ => β)).toFinmap.lookup k =
      (list.find? (key · = k)).map value := by
  induction list with
  | nil => rfl
  | cons a list ih =>
    rw [List.map_cons,Finmap.toFinmap_cons,List.find?_cons]
    by_cases same : key a = k
    · subst same
      rw [Finmap.lookup_insert,decide_eq_true rfl]
      rfl
    · rw [Finmap.lookup_insert_of_ne _ (Ne.symm same),decide_eq_false same,ih]

@[simp] theorem lookup_tables (registry : Registry) (declaration : Declaration) :
    registry.tables.byDeclaration.lookup declaration = registry.lookup declaration :=
  lookup_toFinmap_map registry.known (·.declaration) (·.id) declaration

@[simp] theorem owner_tables (registry : Registry) (id : ClassId) :
    registry.tables.byId.lookup id = registry.owner id :=
  lookup_toFinmap_map registry.known (·.id) (·.declaration) id

theorem keys_byDeclaration (registry : Registry) :
    registry.tables.byDeclaration.keys = (registry.known.map (·.declaration)).toFinset := by
  ext declaration
  rw [Finmap.mem_keys,← Finmap.lookup_isSome,lookup_tables,← Option.not_isNone,List.mem_toFinset,
    Bool.not_eq_true',← Bool.not_eq_true,Option.isNone_iff_eq_none,lookup_eq_none_iff,not_not]

theorem keys_byId (registry : Registry) : registry.tables.byId.keys = (registry.known.map (·.id)).toFinset := by
  ext id
  rw [Finmap.mem_keys,← Finmap.lookup_isSome,owner_tables,← Option.not_isNone,List.mem_toFinset,
    Bool.not_eq_true',← Bool.not_eq_true,Option.isNone_iff_eq_none,owner_eq_none_iff,not_not]

theorem Sound.sizes (sound : registry.Sound) : registry.tables.size = registry.size ∧
    registry.tables.byId.keys.card = registry.size := by
  rw [Tables.size,keys_byDeclaration,keys_byId,List.toFinset_card_of_nodup sound.declarations,
    List.toFinset_card_of_nodup sound.ids,List.length_map,List.length_map]
  exact ⟨rfl,rfl⟩

theorem conflict?_tables (registry : Registry) (binding : Binding) :
    registry.tables.conflict? binding = registry.conflict? binding := by
  rw [Tables.conflict?,owner_tables]
  rfl

theorem lookup_note (registry : Registry) (binding : Binding) (declaration : Declaration) :
    (registry.note binding).lookup declaration =
      (registry.lookup declaration).or (if binding.declaration = declaration then some binding.id else none) := by
  rw [lookup,note,List.find?_append,Option.map_or,List.find?_singleton,lookup]
  by_cases same : binding.declaration = declaration <;> simp [same]

theorem owner_note (registry : Registry) (binding : Binding) (id : ClassId) :
    (registry.note binding).owner id =
      (registry.owner id).or (if binding.id = id then some binding.declaration else none) := by
  rw [owner,note,List.find?_append,Option.map_or,List.find?_singleton,owner]
  by_cases same : binding.id = id <;> simp [same]

/-- A binding of an unknown declaration and a free class can stand at the end of the list, as it overwrites nothing. -/
theorem tables_note {binding : Binding} (unknown : registry.lookup binding.declaration = none)
    (free : registry.owner binding.id = none) : (registry.note binding).tables = registry.tables.write binding := by
  have byDeclaration : (registry.note binding).tables.byDeclaration = (registry.tables.write binding).byDeclaration := by
    apply Finmap.ext_lookup
    intro declaration
    rw [lookup_tables,lookup_note,Tables.write]
    by_cases same : binding.declaration = declaration
    · subst same
      rw [unknown,Finmap.lookup_insert,if_pos rfl,Option.none_or]
    · rw [Finmap.lookup_insert_of_ne _ (Ne.symm same),lookup_tables,if_neg same,Option.or_none]
  have byId : (registry.note binding).tables.byId = (registry.tables.write binding).byId := by
    apply Finmap.ext_lookup
    intro id
    rw [owner_tables,owner_note,Tables.write]
    by_cases same : binding.id = id
    · subst same
      rw [free,Finmap.lookup_insert,if_pos rfl,Option.none_or]
    · rw [Finmap.lookup_insert_of_ne _ (Ne.symm same),owner_tables,if_neg same,Option.or_none]
  exact congrArg₂ (fun first second => Tables.mk registry.classPrefix first second registry.pending) byDeclaration byId

theorem answer_tables (registry : Registry) (call : Call) :
    registry.tables.answer call = ((registry.answer call).1,(registry.answer call).2.tables) := by
  cases call with
  | register binding =>
    rw [Tables.answer,conflict?_tables,answer,register,lookup_tables]
    cases conflict : registry.conflict? binding with
    | some collision => rfl
    | none =>
      cases known : registry.lookup binding.declaration with
      | some id => rfl
      | none =>
        have written := tables_note known (owner_of_conflict?_none conflict known)
        exact congrArg (Prod.mk _) written.symm
  | allocate declaration =>
    rw [Tables.answer,lookup_tables,answer,allocate]
    cases known : registry.lookup declaration with
    | some id => rfl
    | none =>
      have asked : registry.tables.conflict? ⟨declaration,ClassId.derive registry.tables.classPrefix declaration⟩ =
          registry.conflict? (registry.fresh declaration) := conflict?_tables registry _
      have own : registry.conflict? ⟨declaration,ClassId.derive registry.classPrefix declaration⟩ =
          registry.conflict? (registry.fresh declaration) := rfl
      simp only [asked,own]
      cases conflict : registry.conflict? (registry.fresh declaration) with
      | some collision => rfl
      | none =>
        have written := tables_note known (owner_of_conflict?_none conflict known)
        have noted : (registry.append (registry.fresh declaration)).tables =
            { (registry.note (registry.fresh declaration)).tables with
              pending := registry.pending ++ [registry.fresh declaration] } := rfl
        rw [written] at noted
        exact congrArg (Prod.mk _) noted.symm

theorem afterAll_tables (registry : Registry) (calls : List Call) :
    registry.tables.afterAll calls = (registry.afterAll calls).tables := by
  induction calls generalizing registry with
  | nil => rfl
  | cons call rest ih =>
    rw [Tables.afterAll,List.foldl_cons,answer_tables]
    exact ih _

end Registry

end StyleHoist
