import Mathlib.Logic.Function.Basic
import StyleHoist.Proofs.Disk.Operation
import StyleHoist.Proofs.Disk.Tree

/-! Where paths lead on a disk that may have links. A path goes on leading where
it leads as long as no folder is lost and the links stay what they are. -/
namespace StyleHoist.Disk

variable {disk middle later : Disk} {base here place : Place} {steps : List Text} {mode : Mode} {path : Path}
  {spot : Spot} {parent : Place} {name : Text} {slash : Bool}

/-- The place that a path leads to, its last name not followed. -/
def Leads (disk : Disk) (base : Place) (path : Path) (place : Place) : Prop :=
  ∃ spot, disk.spot base .bare path = .ok spot ∧ spot.place = place

/-- Whatever is passed on the way along a path is there on another disk too. -/
structure WaysKept (before after : Disk) : Prop where
  folders : FoldersKept before after
  links : ∀ place target, after.find place = some (.link target) ↔ before.find place = some (.link target)

theorem WaysKept.of_find_eq (same : later.find = disk.find) : WaysKept disk later where
  folders := fun place folder => by rw [same,folder]
  links := fun place target => by rw [same]

/-- Changing what is neither a folder nor a link to something like that leaves every way open. -/
theorem WaysKept.of_plain {entry : Option Entry} (free : disk.find place ≠ some .folder)
    (plain : ∀ target, disk.find place ≠ some (.link target)) (plain' : ∀ target, entry ≠ some (.link target))
    (put : later.find = Function.update disk.find place entry) : WaysKept disk later where
  folders := by
    intro other folder
    rw [put,Function.update_of_ne (by rintro rfl; exact free folder),folder]
  links := by
    intro other target
    rw [put]
    by_cases same : other = place
    · subst same
      simp [plain,plain']
    · rw [Function.update_of_ne same]

theorem WaysKept.of_update {entry : Entry} (vacant : disk.find place = none) (plain : ∀ target, entry ≠ .link target)
    (put : later.find = Function.update disk.find place (some entry)) : WaysKept disk later :=
  .of_plain (by rw [vacant]; nofun) (by rw [vacant]; nofun) (fun target same => plain target (Option.some.inj same)) put

theorem WaysKept.of_move {target : Place} {bytes : ByteArray} (here : disk.find place = some (.file bytes))
    (free : disk.find target ≠ some .folder) (plain : ∀ text, disk.find target ≠ some (.link text))
    (put : later.find = Function.update (Function.update disk.find place none) target (some (.file bytes))) :
    WaysKept disk later where
  folders := by
    intro other folder
    have kept : other ≠ target := by rintro rfl; exact free folder
    have apart : other ≠ place := by rintro rfl; cases here.symm.trans folder
    rw [put,Function.update_of_ne kept,Function.update_of_ne apart,folder]
  links := by
    intro other text
    rw [put]
    by_cases filled : other = target
    · subst filled
      simp [plain]
    · rw [Function.update_of_ne filled]
      by_cases left : other = place
      · subst left
        simp [here]
      · rw [Function.update_of_ne left]

theorem WaysKept.advance (kept : WaysKept disk later) {reach : Reach} (found : disk.advance here steps = .ok reach) :
    later.advance here steps = .ok reach := by
  rw [advance_eq_ok_iff] at found ⊢
  induction found with
  | here place => exact .here place
  | idle idle _ ih => exact .idle idle ih
  | up _ ih => exact .up ih
  | down enters more folder _ ih => exact .down enters more (kept.folders _ folder) ih
  | last enters last => exact .last enters last
  | link enters more there => exact .link enters more ((kept.links _ _).mpr there)

variable {links : ℕ}

theorem WaysKept.spotFrom (kept : WaysKept disk later) (found : disk.spotFrom mode links here steps = .ok spot) :
    later.spotFrom mode links here steps = .ok spot := by
  refine spotFrom_induct (motive := fun links here steps => later.spotFrom mode links here steps = .ok spot)
    (fun reached onwards => ?_) (fun reached same => ?_) (fun reached open' plain same => ?_)
    (fun reached open' other there onwards => ?_) found
  · rwa [spotFrom_of_link (kept.advance reached)]
  · rw [same,spotFrom_of_folder (kept.advance reached)]
  · rw [same,spotFrom_of_name (kept.advance reached) open' fun other target => by
      rw [ne_eq,kept.links]
      exact plain other target]
  · rwa [spotFrom_of_follow (kept.advance reached) open' other ((kept.links _ _).mpr there)]

theorem WaysKept.spot_ok (kept : WaysKept disk later) (found : disk.spot base mode path = .ok spot) :
    later.spot base mode path = .ok spot :=
  spot_eq_ok_iff.mpr ((spot_eq_ok_iff.mp found).imp_right kept.spotFrom)

theorem WaysKept.leads (kept : WaysKept disk later) (leads : disk.Leads base path place) :
    later.Leads base path place :=
  leads.imp fun _ ⟨found,same⟩ => ⟨kept.spot_ok found,same⟩

/-- However one looks for something that is not a link, it is found in the same place. -/
theorem spotFrom_follow (plain : mode = .bare → ∀ target, disk.find spot.place ≠ some (.link target))
    (found : disk.spotFrom mode links here steps = .ok spot) : disk.spotFrom .follow links here steps = .ok spot := by
  refine spotFrom_induct (motive := fun links here steps => disk.spotFrom .follow links here steps = .ok spot)
    (fun reached onwards => ?_) (fun reached same => ?_) (fun reached _ other same => ?_)
    (fun reached _ _ there onwards => ?_) found
  · rwa [spotFrom_of_link reached]
  · rw [same,spotFrom_of_folder reached]
  · subst same
    refine spotFrom_of_name reached nofun fun _ => ?_
    by_cases bare : mode = .bare
    · exact plain bare
    · exact other bare
  · exact (spotFrom_of_follow reached (by nofun) (by nofun) there).trans onwards

theorem spot_follow (plain : mode = .bare → ∀ target, disk.find spot.place ≠ some (.link target))
    (found : disk.spot base mode path = .ok spot) : disk.spot base .follow path = .ok spot :=
  spot_eq_ok_iff.mpr ((spot_eq_ok_iff.mp found).imp_right (spotFrom_follow plain))

theorem find_put (named : place ≠ []) (entry : Entry) :
    (disk.put place entry).find = Function.update disk.find place (some entry) := by
  funext other
  by_cases same : other = place
  · subst same
    rw [find_put_self named,Function.update_self]
  · rw [find_put_of_ne same,Function.update_of_ne same]

theorem find_erase (named : place ≠ []) : (disk.erase place).find = Function.update disk.find place none := by
  funext other
  by_cases same : other = place
  · subst same
    rw [find_erase_self named,Function.update_self]
  · rw [find_erase_of_ne same,Function.update_of_ne same]

/-! What the operations change, by the spot of the path they are given. -/

theorem makeFolder_update (made : disk.makeFolder base path = .ok later) :
    ∃ spot, disk.spot base .bare path = .ok spot ∧ disk.find spot.place = none ∧
      later.find = Function.update disk.find spot.place (some .folder) := by
  obtain ⟨parent,name,slash,found,vacant,rfl⟩ := makeFolder_eq_ok_iff.mp made
  exact ⟨_,found,vacant,find_put (List.cons_ne_nil _ _) _⟩

theorem openEnd_update (made : disk.openEnd base path = .ok later) :
    later = disk ∨ ∃ spot, disk.spot base .create path = .ok spot ∧ disk.find spot.place = none ∧
      later.find = Function.update disk.find spot.place (some (.file .empty)) := by
  refine (openEnd_cases made).imp_right ?_
  rintro ⟨parent,name,slash,found,vacant,rfl⟩
  exact ⟨_,found,vacant,find_put (List.cons_ne_nil _ _) _⟩

theorem write_update {bytes : ByteArray} (made : disk.write base path bytes = .ok later) :
    ∃ spot held, disk.spot base .follow path = .ok spot ∧ disk.find spot.place = some (.file held) ∧
      later.find = Function.update disk.find spot.place (some (.file (held ++ bytes))) := by
  obtain ⟨parent,name,held,found,here,rfl⟩ := write_eq_ok_iff.mp made
  exact ⟨_,held,found,here,find_put (List.cons_ne_nil _ _) _⟩

end StyleHoist.Disk
