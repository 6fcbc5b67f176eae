import StyleHoist.Proofs.Disk.Operation
import StyleHoist.Proofs.Disk.Tree

/-! The files below a folder. They are what a descent meets that goes into every folder and
follows no link, in whichever order the names in a folder come. -/
namespace StyleHoist

namespace Path

/-- A path with names behind it, put there one by one. -/
def under (path : Path) : List Text → Path
  | [] => path
  | name :: rest => (path.join ⟨name⟩).under rest

/-- A text that a file may have as its name. -/
def Names (text : Text) : Prop := text ≠ [] ∧ '/' ∉ text

variable {names : List Text} {name : Text}

theorem ofSegments_cons (name : Text) (more : names ≠ []) :
    ofSegments (name :: names) = name ++ '/' :: ofSegments names := by
  obtain ⟨next,rest,rfl⟩ := List.exists_cons_of_ne_nil more
  simp [ofSegments,List.intercalate_cons_cons]

theorem isAbsolute_of_names (named : Names name) (rest : Text) : (⟨name ++ rest⟩ : Path).isAbsolute = false := by
  obtain ⟨first,text,rfl⟩ := List.exists_cons_of_ne_nil named.1
  simpa [isAbsolute] using fun same : first = '/' => named.2 (same ▸ List.mem_cons_self)

/-- The text of a path up to where another path is put behind it. -/
def lead (path : Path) : Text :=
  if path.text = [] || path.text.getLast? = some '/' then path.text else path.text ++ ['/']

theorem join_of_relative {rest : Path} (path : Path) (relative : rest.isAbsolute = false) :
    path.join rest = ⟨path.lead ++ rest.text⟩ := by
  rw [join,if_neg (by rw [relative]; exact Bool.false_ne_true),lead]
  split
  · rfl
  · rw [List.append_assoc,List.singleton_append]

theorem lead_join (path : Path) (named : Names name) : (path.join ⟨name⟩).lead = path.lead ++ (name ++ ['/']) := by
  have relative : (⟨name⟩ : Path).isAbsolute = false := by simpa using isAbsolute_of_names named []
  have last : name.getLast? ≠ some '/' := fun ends => named.2 (List.mem_of_getLast? ends)
  rw [join_of_relative path relative,lead,if_neg (by simp [last,named.1]),List.append_assoc]

theorem under_eq_join (path : Path) (further : names ≠ []) (named : ∀ name ∈ names, Names name) :
    path.under names = path.join ⟨ofSegments names⟩ := by
  induction names generalizing path with
  | nil => exact absurd rfl further
  | cons name rest ih =>
    obtain ⟨first,named⟩ := List.forall_mem_cons.mp named
    by_cases more : rest = []
    · subst more
      simp [under,ofSegments]
    · have relative : (⟨ofSegments rest⟩ : Path).isAbsolute = false := by
        obtain ⟨next,later,rfl⟩ := List.exists_cons_of_ne_nil more
        have second := named next List.mem_cons_self
        by_cases last : later = []
        · simpa [last,ofSegments] using isAbsolute_of_names second []
        · rw [ofSegments_cons next last]
          exact isAbsolute_of_names second _
      rw [under,ih _ more named,ofSegments_cons name more,join_of_relative _ relative,
        join_of_relative _ (isAbsolute_of_names first _),lead_join path first,List.append_assoc,List.append_assoc,
        List.singleton_append]

end Path

namespace Disk

variable {disk : Disk} {here place : Place} {name : Text} {names : List Text} {entry : Entry}

/-- A disk that is a file tree: each place is held once and lies in a folder, under a proper name. -/
structure Proper (disk : Disk) : Prop where
  held : ∀ place entry, (place,entry) ∈ disk.entries → disk.find place = some entry
  around : ∀ name place entry, disk.find (name :: place) = some entry → disk.find place = some .folder
  names : ∀ place entry, (place,entry) ∈ disk.entries → ∀ name ∈ place, Path.Names name

/-- Names lead from a folder through folders to a regular file. -/
inductive Reaches (disk : Disk) : Place → List Text → Prop
  | file {here : Place} {name : Text} {bytes : ByteArray} (found : disk.find (name :: here) = some (.file bytes)) :
      Reaches disk here [name]
  | folder {here : Place} {name : Text} {names : List Text} (found : disk.find (name :: here) = some .folder)
      (further : Reaches disk (name :: here) names) : Reaches disk here (name :: names)

theorem Reaches.ne_nil (reaches : disk.Reaches here names) : names ≠ [] := by
  cases reaches <;> exact List.cons_ne_nil _ _

theorem Reaches.found (reaches : disk.Reaches here names) :
    ∃ bytes, disk.find (names.reverse ++ here) = some (.file bytes) := by
  induction reaches with
  | file found => exact ⟨_,found⟩
  | folder found further ih => simpa using ih

theorem mem_of_find (named : place ≠ []) (found : disk.find place = some entry) : (place,entry) ∈ disk.entries := by
  rw [find,if_neg named] at found
  obtain ⟨front,back,entries,-⟩ := List.lookup_eq_some_iff.mp found
  rw [entries]
  exact List.mem_append_right _ List.mem_cons_self

namespace Proper

variable (proper : disk.Proper)

include proper

theorem folder_of_append (further : names ≠ []) (found : disk.find (names ++ here) = some entry) :
    disk.find here = some .folder := by
  induction names generalizing entry with
  | nil => exact absurd rfl further
  | cons name rest ih =>
    have around := proper.around name (rest ++ here) entry found
    by_cases more : rest = []
    · rwa [more] at around
    · exact ih more around

theorem reaches_iff : disk.Reaches here names ↔
    names ≠ [] ∧ ∃ bytes, disk.find (names.reverse ++ here) = some (.file bytes) := by
  refine ⟨fun reaches => ⟨reaches.ne_nil,reaches.found⟩,?_⟩
  rintro ⟨further,bytes,found⟩
  induction names generalizing here with
  | nil => exact absurd rfl further
  | cons name rest ih =>
    by_cases more : rest = []
    · subst more
      exact .file found
    · rw [List.reverse_cons,List.append_assoc] at found
      exact .folder (proper.folder_of_append (by simpa using more) found) (ih more found)

theorem names_of_reaches (reaches : disk.Reaches here names) : ∀ name ∈ names, Path.Names name := by
  obtain ⟨bytes,found⟩ := reaches.found
  intro name member
  have held := mem_of_find (by simpa using fun none => absurd none reaches.ne_nil) found
  exact proper.names _ _ held name (List.mem_append_left _ (List.mem_reverse.mpr member))

end Proper

theorem namesBelow?_eq_some_iff : namesBelow? here place = some names ↔ names ≠ [] ∧ place = names.reverse ++ here := by
  rw [namesBelow?]
  constructor
  · intro below
    split at below
    next parts =>
      obtain ⟨further,whole⟩ := Bool.and_eq_true_iff.mp parts
      cases below
      exact ⟨by simpa using of_decide_eq_true further,by simpa using (of_decide_eq_true whole).symm⟩
    next => cases below
  · rintro ⟨further,rfl⟩
    simp [further]

theorem mem_of_below {base : Place} {path file : Path} {files : List Path} {spot : Spot}
    (found : disk.spot base .follow path = .ok spot) (listed : disk.below base path = .ok files) :
    file ∈ files ↔ ∃ place bytes names, (place,Entry.file bytes) ∈ disk.entries ∧
      namesBelow? spot.place place = some names ∧ path.join ⟨Path.ofSegments names⟩ = file := by
  obtain ⟨_,same,-,rfl⟩ := below_eq_ok_iff.mp listed
  cases found.symm.trans same
  rw [List.mem_filterMap]
  constructor
  · rintro ⟨⟨place,entry⟩,held,told⟩
    cases entry with
    | file bytes =>
      obtain ⟨names,below,rfl⟩ := Option.map_eq_some_iff.mp told
      exact ⟨place,bytes,names,held,below,rfl⟩
    | folder => cases told
    | link target => cases told
  · rintro ⟨place,bytes,names,held,below,rfl⟩
    exact ⟨(place,.file bytes),held,by simp only [below,Option.map_some]⟩

/-- Below a folder lie the files that a descent reaches. -/
theorem mem_below (proper : disk.Proper) {base : Place} {path file : Path} {files : List Path} {spot : Spot}
    (found : disk.spot base .follow path = .ok spot) (listed : disk.below base path = .ok files) :
    file ∈ files ↔ ∃ names, disk.Reaches spot.place names ∧ path.under names = file := by
  rw [mem_of_below found listed]
  constructor
  · rintro ⟨place,bytes,names,held,below,rfl⟩
    obtain ⟨further,rfl⟩ := namesBelow?_eq_some_iff.mp below
    have reaches := proper.reaches_iff.mpr ⟨further,bytes,proper.held _ _ held⟩
    exact ⟨names,reaches,Path.under_eq_join path further (proper.names_of_reaches reaches)⟩
  · rintro ⟨names,reaches,rfl⟩
    obtain ⟨bytes,found⟩ := reaches.found
    refine ⟨_,bytes,names,mem_of_find (by simp [reaches.ne_nil]) found,?_,?_⟩
    · exact namesBelow?_eq_some_iff.mpr ⟨reaches.ne_nil,rfl⟩
    · exact (Path.under_eq_join path reaches.ne_nil (proper.names_of_reaches reaches)).symm

/-- How deep the deepest place lies. -/
def depth (disk : Disk) : ℕ := (disk.entries.map (·.1.length)).max?.getD 0

theorem length_le_depth (found : disk.find place = some entry) : place.length ≤ disk.depth := by
  by_cases named : place = []
  · exact named ▸ Nat.zero_le _
  · exact List.le_max?_getD_of_mem (List.mem_map_of_mem (mem_of_find named found))

/-- The names in each folder, in some order. -/
def Lists (disk : Disk) (order : Place → List Text) : Prop :=
  ∀ here name, name ∈ order here ↔ disk.find (name :: here) ≠ none

/-- The files that a descent into a folder meets and keeps. -/
def descend (disk : Disk) (order : Place → List Text) (keep : Path → Bool) (here : Place) (path : Path) : List Path :=
  (order here).flatMap fun name =>
    match _found : disk.find (name :: here) with
    | some .folder => disk.descend order keep (name :: here) (path.join ⟨name⟩)
    | some (.file _) => if keep (path.join ⟨name⟩) then [path.join ⟨name⟩] else []
    | _ => []
termination_by disk.depth - here.length
decreasing_by
  have within := length_le_depth _found
  simp only [List.length_cons] at within ⊢
  omega

theorem mem_descend {order : Place → List Text} {keep : Path → Bool} {path file : Path} (lists : disk.Lists order) :
    file ∈ disk.descend order keep here path ↔
      ∃ names, disk.Reaches here names ∧ path.under names = file ∧ keep file = true := by
  constructor
  · intro member
    fun_induction descend disk order keep here path with
    | case1 here path ih =>
      obtain ⟨name,among,met⟩ := List.mem_flatMap.mp member
      split at met
      next found =>
        obtain ⟨names,reaches,same,kept⟩ := ih name found met
        exact ⟨name :: names,.folder found reaches,same,kept⟩
      next bytes found =>
        split at met
        next kept =>
          cases List.mem_singleton.mp met
          exact ⟨[name],.file found,rfl,kept⟩
        next => cases met
      next => cases met
  · rintro ⟨names,reaches,rfl,kept⟩
    induction reaches generalizing path with
    | @file here name bytes found =>
      rw [descend]
      refine List.mem_flatMap.mpr ⟨name,(lists here name).mpr (by simp [found]),?_⟩
      split
      next found' => simp [found] at found'
      next =>
        rw [if_pos (show keep (path.join ⟨name⟩) = true from kept)]
        exact List.mem_singleton_self _
      next => simp_all
    | @folder here name names found further ih =>
      rw [descend]
      refine List.mem_flatMap.mpr ⟨name,(lists here name).mpr (by simp [found]),?_⟩
      split
      next => exact ih kept
      next found' => simp [found] at found'
      next => simp_all

end Disk

end StyleHoist
