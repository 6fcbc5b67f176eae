import StyleHoist.Proofs.Disk.Spot
import StyleHoist.Proofs.Disk.Ways

/-! What the operations on files change. Each alters what there is at the place
of a path it is given, never a folder, and leaves everything else as it was. -/
namespace StyleHoist.Disk

variable {disk middle later : Disk} {base place : Place} {path : Path}

/-- Two disks that differ at one place, where no folder was before. -/
structure Alters (disk : Disk) (base place : Place) (entry : Option Entry) (later : Disk) : Prop where
  ground : later.Grounded base
  free : disk.find place ≠ some .folder
  here : later.find place = entry
  elsewhere : ∀ other, other ≠ place → later.find other = disk.find other

theorem Alters.foldersKept {entry : Option Entry} (alters : Alters disk base place entry later) :
    FoldersKept disk later := by
  intro other folder
  have apart : other ≠ place := by
    rintro rfl
    exact alters.free folder
  rw [alters.elsewhere other apart]
  exact folder

section

variable {mode : Mode} {parent : Place} {name : Text} {slash : Bool}

theorem alters_put (ground : disk.Grounded base) (found : disk.spot base mode path = .ok (.name parent name slash))
    (free : disk.find (name :: parent) ≠ some .folder) {entry : Entry} (plain : ∀ target, entry ≠ .link target) :
    Alters disk base (name :: parent) (some entry) (disk.put (name :: parent) entry) := by
  obtain ⟨-,inside⟩ := spot_place ground found
  exact {
    ground := ground.kept (ground.toTree.put inside free plain) (foldersKept_put free)
    free := free
    here := find_put_self (List.cons_ne_nil _ _)
    elsewhere := fun _ apart => find_put_of_ne apart }

theorem alters_erase (ground : disk.Grounded base) (free : disk.find (name :: parent) ≠ some .folder) :
    Alters disk base (name :: parent) none (disk.erase (name :: parent)) where
  ground := ground.kept (ground.toTree.erase free) (foldersKept_erase free)
  free := free
  here := find_erase_self (List.cons_ne_nil _ _)
  elsewhere := fun _ apart => find_erase_of_ne apart

theorem place_of_name (ground : disk.Grounded base) (found : disk.spot base mode path = .ok (.name parent name slash)) :
    path.place base = name :: parent :=
  (spot_place ground found).1.symm

end

theorem entryAt_eq_ok (ground : disk.Grounded base) {mode : Mode} {spot : Spot} {entry : Entry}
    (found : disk.spot base mode path = .ok spot) (held : disk.entryAt spot = .ok entry) :
    disk.find (path.place base) = some entry := by
  obtain ⟨place,inside⟩ := spot_place ground found
  rw [← place]
  cases spot with
  | folder place =>
    cases held
    exact inside
  | name parent name slash => exact (entryAt_name_eq_ok_iff.mp held).1

theorem kind_eq_ok (ground : disk.Grounded base) {kind : Kind} (told : disk.kind base path = .ok kind) :
    ∃ entry, disk.find (path.place base) = some entry := by
  obtain ⟨spot,entry,found,held,-⟩ := kind_eq_ok_iff.mp told
  exact ⟨entry,entryAt_eq_ok ground found held⟩

theorem read_eq_ok (ground : disk.Grounded base) {bytes : ByteArray} (told : disk.read base path = .ok bytes) :
    disk.find (path.place base) = some (.file bytes) := by
  obtain ⟨parent,name,found,here⟩ := read_eq_ok_iff.mp told
  rwa [place_of_name ground found]

theorem create_eq_ok (ground : disk.Grounded base) (made : disk.create base path = .ok later) :
    Alters disk base (path.place base) (some (.file .empty)) later := by
  obtain ⟨parent,name,slash,found,free,rfl⟩ := create_eq_ok_iff.mp made
  rw [place_of_name ground found]
  exact alters_put ground found free nofun

theorem createNew_eq_ok (ground : disk.Grounded base) (made : disk.createNew base path = .ok later) :
    disk.find (path.place base) = none ∧ Alters disk base (path.place base) (some (.file .empty)) later := by
  obtain ⟨parent,name,found,vacant,rfl⟩ := createNew_eq_ok_iff.mp made
  rw [place_of_name ground found]
  exact ⟨vacant,alters_put ground found (by rw [vacant]; nofun) nofun⟩

theorem openEnd_eq_ok (ground : disk.Grounded base) (made : disk.openEnd base path = .ok later) :
    later = disk ∨
      disk.find (path.place base) = none ∧ Alters disk base (path.place base) (some (.file .empty)) later := by
  refine (openEnd_cases made).imp_right ?_
  rintro ⟨parent,name,slash,found,vacant,rfl⟩
  rw [place_of_name ground found]
  exact ⟨vacant,alters_put ground found (by rw [vacant]; nofun) nofun⟩

theorem write_eq_ok (ground : disk.Grounded base) {bytes : ByteArray} (made : disk.write base path bytes = .ok later) :
    ∃ held, disk.find (path.place base) = some (.file held) ∧
      Alters disk base (path.place base) (some (.file (held ++ bytes))) later := by
  obtain ⟨parent,name,held,found,here,rfl⟩ := write_eq_ok_iff.mp made
  rw [place_of_name ground found]
  exact ⟨held,here,alters_put ground found (by rw [here]; nofun) nofun⟩

theorem makeFolder_eq_ok (ground : disk.Grounded base) (made : disk.makeFolder base path = .ok later) :
    disk.find (path.place base) = none ∧ Alters disk base (path.place base) (some .folder) later := by
  obtain ⟨parent,name,slash,found,vacant,rfl⟩ := makeFolder_eq_ok_iff.mp made
  rw [place_of_name ground found]
  exact ⟨vacant,alters_put ground found (by rw [vacant]; nofun) nofun⟩

theorem remove_eq_ok (ground : disk.Grounded base) (gone : disk.remove base path = .ok later) :
    Alters disk base (path.place base) none later := by
  obtain ⟨parent,name,entry,found,held,solid,rfl⟩ := remove_eq_ok_iff.mp gone
  rw [place_of_name ground found]
  exact alters_erase ground fun folder => solid (Option.some.inj (held.symm.trans folder))

/-- A renaming takes what is at one place away and puts it at another. -/
theorem rename_eq_ok (ground : disk.Grounded base) {source target : Path}
    (moved : disk.rename base source target = .ok later) :
    source.place base = target.place base ∧ later = disk ∨
      source.place base ≠ target.place base ∧ ∃ entry middle, disk.find (source.place base) = some entry ∧
        Alters disk base (source.place base) none middle ∧
        Alters middle base (target.place base) (some entry) later := by
  obtain ⟨parent,name,around,other,entry,left,right,held,solid,free,moved⟩ := rename_cases moved
  rw [place_of_name ground left,place_of_name ground right]
  refine moved.imp_right ?_
  rintro ⟨apart,rfl⟩
  have taken := alters_erase ground fun folder => solid (Option.some.inj (held.symm.trans folder))
  have onwards := spot_kept ground taken.ground taken.foldersKept right
  have vacant : (disk.erase (name :: parent)).find (other :: around) ≠ some .folder := by
    rwa [find_erase_of_ne apart.symm]
  have plain : ∀ target, entry ≠ .link target := by
    rintro target rfl
    exact ground.linkless _ _ held
  exact ⟨apart,entry,_,held,taken,alters_put taken.ground onwards vacant plain⟩

section

variable {bytes : ByteArray}

theorem read_kept (ground : disk.Grounded base) (next : later.Grounded base) (kept : FoldersKept disk later)
    (same : later.find (path.place base) = disk.find (path.place base)) (told : disk.read base path = .ok bytes) :
    later.read base path = .ok bytes := by
  obtain ⟨parent,name,found,here⟩ := read_eq_ok_iff.mp told
  refine read_eq_ok_iff.mpr ⟨parent,name,spot_kept ground next kept found,?_⟩
  rwa [← place_of_name ground found,same,place_of_name ground found]

theorem read_of_rename (ground : disk.Grounded base) {source target : Path}
    (apart : source.place base ≠ target.place base) (moved : disk.rename base source target = .ok later)
    (held : disk.find (source.place base) = some (.file bytes)) : later.read base target = .ok bytes := by
  obtain ⟨-,-,parent,name,-,-,goal,-⟩ := rename_cases moved
  have found := spot_follow (fun _ => ground.linkless _) goal
  rcases rename_eq_ok ground moved with ⟨same,-⟩ | ⟨-,entry,middle,old,taken,put⟩
  · exact absurd same apart
  · have kept := taken.foldersKept.trans put.foldersKept
    refine read_eq_ok_iff.mpr ⟨parent,name,spot_kept ground put.ground kept found,?_⟩
    rw [← place_of_name ground found,put.here,← held,old]

end

end StyleHoist.Disk
