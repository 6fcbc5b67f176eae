import Mathlib
import StyleHoist.Disk.Basic

/-! File trees without links: what is found where, and which changes keep a
tree a tree. -/
namespace StyleHoist.Disk

variable {disk : Disk} {place other : Place} {entry : Entry}

@[simp] theorem find_root (disk : Disk) : disk.find [] = some .folder := rfl

theorem lookup_filter_ne (entries : List (Place × Entry)) (place other : Place) :
    (entries.filter fun held => held.1 ≠ place).lookup other =
      if other = place then none else entries.lookup other := by
  induction entries with
  | nil => simp
  | cons held rest ih =>
    obtain ⟨here,entry⟩ := held
    by_cases gone : here = place
    · rw [List.filter_cons_of_neg (by simpa using gone),ih]
      by_cases same : other = place
      · rw [if_pos same,if_pos same]
      · have apart : (other == here) = false := by simpa [gone] using same
        rw [if_neg same,if_neg same,List.lookup_cons,apart]
    · rw [List.filter_cons_of_pos (by simpa using gone),List.lookup_cons,List.lookup_cons,ih]
      cases found : other == here with
      | true =>
        have same : other = here := by simpa using found
        simp only [if_neg (same ▸ gone)]
      | false => rfl

theorem find_erase_self (named : place ≠ []) : (disk.erase place).find place = none := by
  rw [find,if_neg named,erase,lookup_filter_ne,if_pos rfl]

theorem find_erase_of_ne (apart : other ≠ place) : (disk.erase place).find other = disk.find other := by
  simp only [find,erase,lookup_filter_ne,if_neg apart]

theorem find_put_self (named : place ≠ []) : (disk.put place entry).find place = some entry := by
  have gone : (disk.erase place).find place = none := find_erase_self named
  rw [find,if_neg named] at gone ⊢
  simp [put,List.lookup_append,gone]

theorem find_put_of_ne (apart : other ≠ place) : (disk.put place entry).find other = disk.find other := by
  have elsewhere : (other == place) = false := by simpa using apart
  have kept : (disk.put place entry).find other = (disk.erase place).find other := by
    simp [find,put,List.lookup_append,List.lookup_cons,elsewhere]
  rw [kept,find_erase_of_ne apart]

/-- A disk without links on which everything lies in a folder. -/
structure Tree (disk : Disk) : Prop where
  linkless : ∀ place target, disk.find place ≠ some (.link target)
  around : ∀ name place entry, disk.find (name :: place) = some entry → disk.find place = some .folder

/-- Every folder of a disk is still there on another. -/
def FoldersKept (before after : Disk) : Prop :=
  ∀ place, before.find place = some .folder → after.find place = some .folder

theorem FoldersKept.refl (disk : Disk) : FoldersKept disk disk := fun _ folder => folder

theorem FoldersKept.trans {first second third : Disk} (front : FoldersKept first second)
    (back : FoldersKept second third) : FoldersKept first third :=
  fun place folder => back place (front place folder)

theorem foldersKept_put (free : disk.find place ≠ some .folder) : FoldersKept disk (disk.put place entry) := by
  intro other folder
  have apart : other ≠ place := by
    rintro rfl
    exact free folder
  rw [find_put_of_ne apart]
  exact folder

theorem foldersKept_erase (free : disk.find place ≠ some .folder) : FoldersKept disk (disk.erase place) := by
  intro other folder
  have apart : other ≠ place := by
    rintro rfl
    exact free folder
  rw [find_erase_of_ne apart]
  exact folder

namespace Tree

theorem put (tree : disk.Tree) {name : Text} {parent : Place} (inside : disk.find parent = some .folder)
    (free : disk.find (name :: parent) ≠ some .folder) (plain : ∀ target, entry ≠ .link target) :
    (disk.put (name :: parent) entry).Tree where
  linkless := by
    intro place target
    by_cases same : place = name :: parent
    · rw [same,find_put_self (List.cons_ne_nil _ _)]
      exact fun found => plain target (Option.some.inj found)
    · rw [find_put_of_ne same]
      exact tree.linkless place target
  around := by
    intro other place held found
    have kept : FoldersKept disk (disk.put (name :: parent) entry) := foldersKept_put free
    by_cases same : other :: place = name :: parent
    · obtain ⟨-,rfl⟩ := List.cons.inj same
      exact kept place inside
    · rw [find_put_of_ne same] at found
      exact kept place (tree.around other place held found)

theorem erase (tree : disk.Tree) (free : disk.find place ≠ some .folder) : (disk.erase place).Tree where
  linkless := by
    intro other target found
    by_cases same : other = place
    · by_cases named : place = []
      · exact free (named ▸ find_root disk)
      · rw [same,find_erase_self named] at found
        cases found
    · rw [find_erase_of_ne same] at found
      exact tree.linkless other target found
  around := by
    intro name other held found
    by_cases same : name :: other = place
    · rw [same,find_erase_self (same ▸ List.cons_ne_nil _ _)] at found
      cases found
    · rw [find_erase_of_ne same] at found
      exact foldersKept_erase free other (tree.around name other held found)

end Tree

end StyleHoist.Disk
