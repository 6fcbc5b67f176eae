import StyleHoist.Disk.Operation
import StyleHoist.Proofs.Disk.Lookup
import StyleHoist.Proofs.Result

/-! What an operation has found and done if it succeeds, on any disk. Whatever it changes, it
changes at the spot of a path that it was given. -/
namespace StyleHoist.Disk

variable {disk later : Disk} {base parent : Place} {path : Path} {name : Text} {slash : Bool} {entry : Entry}
  {bytes : ByteArray}

theorem entryAt_name_eq_ok_iff : disk.entryAt (.name parent name slash) = .ok entry ↔
    disk.find (name :: parent) = some entry ∧ (slash = true → entry = .folder) := by
  rw [entryAt]
  cases disk.find (name :: parent) with
  | none => simp
  | some held =>
    constructor
    · intro told
      cases held <;> cases slash <;> cases told <;> simp
    · rintro ⟨same,closed⟩
      cases same
      cases entry with
      | folder => rfl
      | file bytes => exact if_neg fun slash => nomatch closed slash
      | link target => exact if_neg fun slash => nomatch closed slash

theorem kind_eq_ok_iff {kind : Kind} : disk.kind base path = .ok kind ↔ ∃ spot entry,
    disk.spot base .follow path = .ok spot ∧ disk.entryAt spot = .ok entry ∧ (kind = .folder ↔ entry = .folder) := by
  simp only [Disk.kind,bind_eq_ok_iff]
  refine exists_congr fun spot => ⟨fun ⟨found,entry,held,told⟩ => ⟨entry,found,held,?_⟩,
    fun ⟨entry,found,held,same⟩ => ⟨found,entry,held,?_⟩⟩
  · cases entry <;> cases told <;> simp
  · cases entry <;> cases kind <;> first | rfl | simp at same

theorem read_eq_ok_iff : disk.read base path = .ok bytes ↔ ∃ parent name,
    disk.spot base .follow path = .ok (.name parent name false) ∧ disk.find (name :: parent) = some (.file bytes) := by
  simp only [Disk.read,bind_eq_ok_iff]
  constructor
  · rintro ⟨spot,found,entry,held,told⟩
    cases entry <;> cases told
    cases spot with
    | folder place => cases held
    | name parent name slash =>
      obtain ⟨here,closed⟩ := entryAt_name_eq_ok_iff.mp held
      cases slash with
      | false => exact ⟨parent,name,found,here⟩
      | true => cases closed rfl
  · rintro ⟨parent,name,found,here⟩
    exact ⟨_,found,_,entryAt_name_eq_ok_iff.mpr ⟨here,nofun⟩,rfl⟩

theorem below_eq_ok_iff {files : List Path} : disk.below base path = .ok files ↔ ∃ spot,
    disk.spot base .follow path = .ok spot ∧ disk.entryAt spot = .ok .folder ∧
      files = disk.entries.filterMap fun
        | (place,.file _) => (namesBelow? spot.place place).map fun names => path.join ⟨Path.ofSegments names⟩
        | _ => none := by
  simp only [Disk.below,bind_eq_ok_iff]
  refine exists_congr fun spot => and_congr_right fun _ => ?_
  constructor
  · rintro ⟨entry,held,listed⟩
    cases entry <;> cases listed
    exact ⟨held,rfl⟩
  · rintro ⟨held,rfl⟩
    exact ⟨.folder,held,rfl⟩

theorem create_eq_ok_iff : disk.create base path = .ok later ↔ ∃ parent name slash,
    disk.spot base .create path = .ok (.name parent name slash) ∧ disk.find (name :: parent) ≠ some .folder ∧
      later = disk.put (name :: parent) (.file .empty) := by
  simp only [Disk.create,bind_eq_ok_iff]
  constructor
  · rintro ⟨spot,found,made⟩
    cases spot with
    | folder place => cases made
    | name parent name slash =>
      dsimp only at made
      split at made
      next => cases made
      next free =>
        cases made
        exact ⟨parent,name,slash,found,free,rfl⟩
  · rintro ⟨parent,name,slash,found,free,rfl⟩
    refine ⟨_,found,?_⟩
    dsimp only
    split
    next folder => exact absurd folder free
    next => rfl

theorem createNew_eq_ok_iff : disk.createNew base path = .ok later ↔ ∃ parent name,
    disk.spot base .bare path = .ok (.name parent name false) ∧ disk.find (name :: parent) = none ∧
      later = disk.put (name :: parent) (.file .empty) := by
  simp only [Disk.createNew,bind_eq_ok_iff]
  constructor
  · rintro ⟨spot,found,made⟩
    cases spot with
    | folder place => cases made
    | name parent name slash =>
      cases slash with
      | true => cases made
      | false =>
        simp only [Bool.false_eq_true,if_false] at made
        split at made
        next => cases made
        next vacant =>
          cases made
          exact ⟨parent,name,found,vacant,rfl⟩
  · rintro ⟨parent,name,found,vacant,rfl⟩
    exact ⟨_,found,by simp [vacant]⟩

theorem openEnd_cases (made : disk.openEnd base path = .ok later) :
    later = disk ∨ ∃ parent name slash, disk.spot base .create path = .ok (.name parent name slash) ∧
      disk.find (name :: parent) = none ∧ later = disk.put (name :: parent) (.file .empty) := by
  obtain ⟨spot,found,made⟩ := bind_eq_ok_iff.mp made
  cases spot with
  | folder place => cases made
  | name parent name slash =>
    dsimp only at made
    split at made
    next => cases made
    next =>
      cases made
      exact .inl rfl
    next vacant =>
      cases made
      exact .inr ⟨parent,name,slash,found,vacant,rfl⟩

theorem write_eq_ok_iff : disk.write base path bytes = .ok later ↔ ∃ parent name held,
    disk.spot base .follow path = .ok (.name parent name false) ∧ disk.find (name :: parent) = some (.file held) ∧
      later = disk.put (name :: parent) (.file (held ++ bytes)) := by
  simp only [Disk.write,bind_eq_ok_iff]
  constructor
  · rintro ⟨spot,found,entry,there,made⟩
    cases entry <;> cases made
    cases spot with
    | folder place => cases there
    | name parent name slash =>
      obtain ⟨here,closed⟩ := entryAt_name_eq_ok_iff.mp there
      cases slash with
      | false => exact ⟨parent,name,_,found,here,rfl⟩
      | true => cases closed rfl
  · rintro ⟨parent,name,held,found,here,rfl⟩
    exact ⟨_,found,_,entryAt_name_eq_ok_iff.mpr ⟨here,nofun⟩,rfl⟩

theorem makeFolder_eq_ok_iff : disk.makeFolder base path = .ok later ↔ ∃ parent name slash,
    disk.spot base .bare path = .ok (.name parent name slash) ∧ disk.find (name :: parent) = none ∧
      later = disk.put (name :: parent) .folder := by
  simp only [Disk.makeFolder,bind_eq_ok_iff]
  constructor
  · rintro ⟨spot,found,made⟩
    cases spot with
    | folder place => cases made
    | name parent name slash =>
      dsimp only at made
      split at made
      next => cases made
      next vacant =>
        cases made
        exact ⟨parent,name,slash,found,vacant,rfl⟩
  · rintro ⟨parent,name,slash,found,vacant,rfl⟩
    exact ⟨_,found,by simp [vacant]⟩

theorem remove_eq_ok_iff : disk.remove base path = .ok later ↔ ∃ parent name entry,
    disk.spot base .bare path = .ok (.name parent name false) ∧ disk.find (name :: parent) = some entry ∧
      entry ≠ .folder ∧ later = disk.erase (name :: parent) := by
  simp only [Disk.remove,bind_eq_ok_iff]
  constructor
  · rintro ⟨spot,found,gone⟩
    cases spot with
    | folder place => cases gone
    | name parent name slash =>
      dsimp only at gone
      split at gone
      next => cases gone
      next => cases gone
      next entry free held =>
        cases slash with
        | true => cases gone
        | false =>
          cases gone
          exact ⟨parent,name,entry,found,held,fun folder => free folder,rfl⟩
  · rintro ⟨parent,name,entry,found,held,free,rfl⟩
    refine ⟨_,found,?_⟩
    cases entry with
    | folder => exact absurd rfl free
    | file bytes => simp [held]
    | link target => simp [held]

theorem remove_file (found : disk.spot base .bare path = .ok (.name parent name false))
    (held : disk.find (name :: parent) = some (.file bytes)) :
    disk.remove base path = .ok (disk.erase (name :: parent)) :=
  remove_eq_ok_iff.mpr ⟨_,_,_,found,held,nofun,rfl⟩

theorem rename_cases {source target : Path} (moved : disk.rename base source target = .ok later) :
    ∃ parent name around other entry, disk.spot base .bare source = .ok (.name parent name false) ∧
      disk.spot base .bare target = .ok (.name around other false) ∧ disk.find (name :: parent) = some entry ∧
      entry ≠ .folder ∧ disk.find (other :: around) ≠ some .folder ∧
      (name :: parent = other :: around ∧ later = disk ∨
        name :: parent ≠ other :: around ∧ later = (disk.erase (name :: parent)).put (other :: around) entry) := by
  simp only [Disk.rename,bind_eq_ok_iff] at moved
  obtain ⟨first,found,second,found',moved⟩ := moved
  split at moved
  next parent name slash around other slash' =>
    split at moved
    next => cases moved
    next => cases moved
    next entry solid held =>
      split at moved
      next => cases moved
      next open' =>
        obtain ⟨rfl,rfl⟩ : slash = false ∧ slash' = false := by simpa using open'
        split at moved
        next => cases moved
        next free =>
          refine ⟨parent,name,around,other,entry,found,found',held,fun folder => solid folder,free,?_⟩
          split at moved
          next same =>
            cases moved
            exact .inl ⟨same,rfl⟩
          next apart =>
            cases moved
            exact .inr ⟨apart,rfl⟩
  next => cases moved

end StyleHoist.Disk
