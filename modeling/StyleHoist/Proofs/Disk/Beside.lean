import StyleHoist.Proofs.Disk.Alteration

/-! A tree, and the same tree with one more file. What can be found while the
file is there, and is not the file, is found in the same way without it. -/
namespace StyleHoist.Disk

variable {disk later : Disk} {base place here : Place} {steps : List Text} {path : Path}

/-- On one disk there is a file, behind everything else, where on the other is nothing. -/
structure Beside (disk : Disk) (place : Place) (later : Disk) : Prop where
  vacant : disk.find place = none
  added : ∃ bytes, later.entries = disk.entries ++ [(place,.file bytes)]

namespace Beside

theorem find_eq (beside : disk.Beside place later) {other : Place} (apart : other ≠ place) :
    later.find other = disk.find other := by
  obtain ⟨bytes,added⟩ := beside.added
  have elsewhere : (other == place) = false := by simpa using apart
  by_cases root : other = []
  · rw [root,find_root,find_root]
  · simp only [find,if_neg root,added,List.lookup_append,List.lookup_cons,elsewhere,List.lookup_nil,Option.or_none]

theorem find_self (beside : disk.Beside place later) : ∃ bytes, later.find place = some (.file bytes) := by
  obtain ⟨bytes,added⟩ := beside.added
  have vacant := beside.vacant
  by_cases root : place = []
  · rw [root,find_root] at vacant
    cases vacant
  · rw [find,if_neg root] at vacant
    exact ⟨bytes,by simp [find,root,added,List.lookup_append,vacant]⟩

theorem foldersKept (beside : disk.Beside place later) : FoldersKept disk later := by
  intro other folder
  rw [beside.find_eq (by rintro rfl; simp [beside.vacant] at folder),folder]

theorem lookup_eq_none (vacant : disk.find place = none) : place ≠ [] ∧ disk.entries.lookup place = none := by
  by_cases root : place = []
  · rw [root,find_root] at vacant
    cases vacant
  · exact ⟨root,by rwa [find,if_neg root] at vacant⟩

theorem erase_entries (vacant : disk.find place = none) : (disk.erase place).entries = disk.entries := by
  refine List.filter_eq_self.mpr fun held member => ?_
  obtain ⟨-,absent⟩ := lookup_eq_none vacant
  rw [List.lookup_eq_none_iff] at absent
  simpa using fun same : held.1 = place => absurd (absent held member) (by simp [same])

theorem of_put (vacant : disk.find place = none) (bytes : ByteArray) :
    disk.Beside place (disk.put place (.file bytes)) :=
  ⟨vacant,bytes,by rw [put,erase_entries vacant]⟩

theorem put (beside : disk.Beside place later) (bytes : ByteArray) :
    disk.Beside place (later.put place (.file bytes)) := by
  obtain ⟨held,added⟩ := beside.added
  have front := erase_entries beside.vacant
  rw [erase] at front
  refine ⟨beside.vacant,bytes,?_⟩
  rw [Disk.put,erase,added]
  simp only [List.filter_append]
  rw [show (disk.entries.filter fun entry => entry.1 ≠ place) = disk.entries from front]
  simp

section

variable (beside : disk.Beside place later)

include beside

theorem advance_eq (open' : later.advance here steps ≠ .error .notDirectory) :
    disk.advance here steps = later.advance here steps := by
  induction steps generalizing here with
  | nil => rfl
  | cons step rest ih =>
    rw [advance] at open' ⊢
    rw [advance]
    split
    next idle =>
      rw [if_pos idle] at open'
      exact ih open'
    next idle =>
      rw [if_neg idle] at open'
      split
      next upwards =>
        rw [if_pos upwards] at open'
        exact ih open'
      next upwards =>
        rw [if_neg upwards] at open'
        split
        next => rfl
        next short =>
          rw [if_neg short] at open'
          split
          next => rfl
          next last =>
            rw [if_neg last] at open'
            by_cases same : step :: here = place
            · obtain ⟨bytes,held⟩ := beside.find_self
              rw [same,held] at open'
              exact absurd rfl open'
            · rw [beside.find_eq same] at open' ⊢
              cases found : disk.find (step :: here) with
              | none => rfl
              | some entry =>
                cases entry with
                | folder =>
                  rw [found] at open'
                  exact ih open'
                | file bytes => rfl
                | link target => rfl

variable (ground : disk.Grounded base) (next : later.Grounded base)

include ground next

theorem spotFrom_eq {links : Nat} (folder : disk.find here = some .folder) (folder' : later.find here = some .folder)
    (open' : later.spotFrom .follow links here steps ≠ .error .notDirectory) :
    disk.spotFrom .follow links here steps = later.spotFrom .follow links here steps := by
  cases reached : later.advance here steps with
  | error cause =>
    have same := beside.advance_eq fun closed => by
      cases reached.symm.trans closed
      exact open' (spotFrom_error reached)
    rw [spotFrom_error reached,spotFrom_error (same.trans reached)]
  | ok reach =>
    obtain ⟨spot,rfl,-,-⟩ := advance_eq_ok next.toTree folder' reached
    have same := (beside.advance_eq (by rw [reached]; nofun)).trans reached
    rw [(spotFrom_eq_ok next.toTree folder').mpr ⟨reached,by nofun⟩,
      (spotFrom_eq_ok ground.toTree folder).mpr ⟨same,by nofun⟩]

theorem spot_eq (open' : later.spot base .follow path ≠ .error .notDirectory) :
    disk.spot base .follow path = later.spot base .follow path := by
  rw [spot,trace] at open' ⊢
  rw [spot,trace]
  split
  next => rfl
  next short =>
    rw [if_neg short] at open'
    split
    next => rfl
    next filled =>
      rw [if_neg filled] at open'
      split
      next => rfl
      next valid =>
        rw [if_neg valid] at open'
        exact beside.spotFrom_eq ground next (find_baseOf ground _) (find_baseOf next _) open'

variable (apart : path.place base ≠ place)

include apart

omit ground in
theorem entryAt_eq {spot : Spot} (found : later.spot base .follow path = .ok spot) :
    disk.entryAt spot = later.entryAt spot := by
  obtain ⟨here,-⟩ := spot_place next found
  cases spot with
  | folder other => rfl
  | name parent name slash => rw [entryAt,entryAt,beside.find_eq (by rw [← here] at apart; exact apart)]

/-- Whatever is told of an entry by looking it up. -/
theorem told_eq {α : Type} (told : Entry → Except FileError α)
    (open' : (do told (← later.entryAt (← later.spot base .follow path))) ≠ .error .notDirectory) :
    (do told (← disk.entryAt (← disk.spot base .follow path))) =
      (do told (← later.entryAt (← later.spot base .follow path))) := by
  cases found : later.spot base .follow path with
  | error cause =>
    have same := beside.spot_eq ground next fun closed => by
      cases found.symm.trans closed
      rw [found] at open'
      exact open' rfl
    rw [same,found]
    rfl
  | ok spot =>
    rw [beside.spot_eq ground next (by simp [found]),found]
    simp only [bind,Except.bind,beside.entryAt_eq next apart found]

theorem read_eq (open' : later.read base path ≠ .error .notDirectory) : disk.read base path = later.read base path := by
  unfold read at open' ⊢
  exact beside.told_eq ground next apart _ open'

theorem kind_eq (open' : later.kind base path ≠ .error .notDirectory) : disk.kind base path = later.kind base path := by
  unfold kind at open' ⊢
  exact beside.told_eq ground next apart _ open'

/-- The files below a folder are the same but for the one that is new. -/
theorem below_eq_ok {files : List Path} (told : later.below base path = .ok files) :
    ∃ others, disk.below base path = .ok others ∧
      files = others ++ ((namesBelow? (path.place base) place).map fun names => path.join ⟨Path.ofSegments names⟩).toList := by
  obtain ⟨bytes,added⟩ := beside.added
  obtain ⟨spot,found,folder,rfl⟩ := below_eq_ok_iff.mp told
  obtain ⟨here,-⟩ := spot_place next found
  have found' : disk.spot base .follow path = .ok spot := by
    rw [beside.spot_eq ground next (by rw [found]; nofun),found]
  refine ⟨_,below_eq_ok_iff.mpr ⟨spot,found',(beside.entryAt_eq next apart found).trans folder,rfl⟩,?_⟩
  rw [added,List.filterMap_append,← here]
  cases names : namesBelow? spot.place place <;> simp [names]

end

end Beside

end StyleHoist.Disk
