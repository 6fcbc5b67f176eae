import StyleHoist.Proofs.Disk.Lookup
import StyleHoist.Proofs.Disk.Tree

/-! Where paths lead on a tree without links: to the place that can be read off
the path alone, whatever else is on the disk. -/
namespace StyleHoist

namespace Disk

def walk (here : Place) : List Text → Place
  | [] => here
  | step :: rest =>
    if Path.isIdle step then walk here rest
    else if step = ['.','.'] then walk here.tail rest
    else walk (step :: here) rest

end Disk

/-- The place that a path names. -/
def Path.place (path : Path) (base : Place) : Place := Disk.walk (Disk.baseOf base path.text) path.segments

namespace Disk

variable {disk later : Disk} {base here : Place} {steps : List Text} {mode : Mode} {path : Path} {spot : Spot}

def Spot.around : Spot → Place
  | .folder place => place
  | .name parent _ _ => parent

def Spot.slash : Spot → Bool
  | .folder _ => false
  | .name _ _ slash => slash

/-- A tree in which the working directory is a folder. -/
structure Grounded (disk : Disk) (base : Place) : Prop extends disk.Tree where
  inside : disk.find base = some .folder

theorem walk_empty (here : Place) (empty : ∀ step ∈ steps, step = []) : walk here steps = here := by
  induction steps with
  | nil => rfl
  | cons step rest ih =>
    have idle : Path.isIdle step = true := by simp [Path.isIdle,empty step]
    rw [walk,if_pos idle]
    exact ih fun other member => empty other (List.mem_cons_of_mem _ member)

theorem find_tail (tree : disk.Tree) (folder : disk.find here = some .folder) :
    disk.find here.tail = some .folder := by
  cases here with
  | nil => exact folder
  | cons name place => exact tree.around name place .folder folder

theorem walk_of_enters {step : Text} (enters : Enters step) : walk here (step :: steps) = walk (step :: here) steps := by
  rw [walk,if_neg (by simp [enters.moving]),if_neg enters.down]

theorem advance_eq_ok (tree : disk.Tree) (folder : disk.find here = some .folder) {reach : Reach}
    (found : disk.advance here steps = .ok reach) :
    ∃ spot, reach = .spot spot ∧ spot.place = walk here steps ∧ disk.find spot.around = some .folder := by
  rw [advance_eq_ok_iff] at found
  induction found with
  | here place => exact ⟨.folder place,rfl,rfl,folder⟩
  | idle idle _ ih =>
    rw [walk,if_pos idle]
    exact ih folder
  | up _ ih =>
    rw [walk,if_neg (by decide),if_pos rfl]
    exact ih (find_tail tree folder)
  | down enters _ inside _ ih =>
    rw [walk_of_enters enters]
    exact ih inside
  | last enters last =>
    rw [walk_of_enters enters,walk_empty _ (by simpa using last)]
    exact ⟨_,rfl,rfl,folder⟩
  | link _ _ there => exact absurd there (tree.linkless _ _)

theorem advance_kept (kept : FoldersKept disk later) (found : disk.advance here steps = .ok (.spot spot)) :
    later.advance here steps = .ok (.spot spot) := by
  rw [advance_eq_ok_iff] at found ⊢
  generalize ended : Reach.spot spot = reach at found ⊢
  induction found with
  | here place => exact .here place
  | idle idle _ ih => exact .idle idle (ih ended)
  | up _ ih => exact .up (ih ended)
  | down enters more folder _ ih => exact .down enters more (kept _ folder) (ih ended)
  | last enters last => exact .last enters last
  | link => cases ended

theorem spotFrom_eq_ok (tree : disk.Tree) (folder : disk.find here = some .folder) {links : Nat} :
    disk.spotFrom mode links here steps = .ok spot ↔
      disk.advance here steps = .ok (.spot spot) ∧ (mode = .create → spot.slash = false) := by
  constructor
  · intro found
    refine spotFrom_induct (motive := fun _ here steps => disk.find here = some .folder →
      disk.advance here steps = .ok (.spot spot) ∧ (mode = .create → spot.slash = false))
      (fun reached _ folder => ?_) (fun reached same _ => ?_) (fun reached open' _ same _ => ?_)
      (fun _ _ _ there => absurd there (tree.linkless _ _)) found folder
    · obtain ⟨_,same,-⟩ := advance_eq_ok tree folder reached
      cases same
    · rw [same]
      exact ⟨reached,fun _ => rfl⟩
    · rw [same]
      exact ⟨reached,open'⟩
  · rintro ⟨reached,open'⟩
    cases spot with
    | folder place => exact spotFrom_of_folder reached
    | name parent name slash => exact spotFrom_of_name reached open' fun _ target => tree.linkless _ target

theorem find_baseOf (ground : disk.Grounded base) (text : Text) : disk.find (baseOf base text) = some .folder := by
  rw [baseOf]
  split
  · rfl
  · exact ground.inside

theorem spot_eq_ok (ground : disk.Grounded base) :
    disk.spot base mode path = .ok spot ↔
      Admissible path ∧ disk.advance (baseOf base path.text) path.segments = .ok (.spot spot) ∧
        (mode = .create → spot.slash = false) := by
  rw [spot_eq_ok_iff,spotFrom_eq_ok ground.toTree (find_baseOf ground path.text)]

theorem spot_place (ground : disk.Grounded base) (found : disk.spot base mode path = .ok spot) :
    spot.place = path.place base ∧ disk.find spot.around = some .folder := by
  obtain ⟨-,reached,-⟩ := (spot_eq_ok ground).mp found
  obtain ⟨other,same,place,around⟩ := advance_eq_ok ground.toTree (find_baseOf ground path.text) reached
  obtain rfl := Reach.spot.inj same
  exact ⟨place,around⟩

theorem spot_kept (ground : disk.Grounded base) (next : later.Grounded base) (kept : FoldersKept disk later)
    (found : disk.spot base mode path = .ok spot) : later.spot base mode path = .ok spot := by
  obtain ⟨valid,reached,free⟩ := (spot_eq_ok ground).mp found
  exact (spot_eq_ok next).mpr ⟨valid,advance_kept kept reached,free⟩

theorem Grounded.kept (ground : disk.Grounded base) (tree : later.Tree) (kept : FoldersKept disk later) :
    later.Grounded base :=
  ⟨tree,kept base ground.inside⟩

theorem grounded_of_files (flat : ∀ held ∈ disk.entries, ∃ name bytes, held = ([name],.file bytes)) :
    disk.Grounded [] := by
  have files : ∀ place entry, place ≠ [] → disk.find place = some entry →
      ∃ name bytes, place = [name] ∧ entry = .file bytes := by
    intro place entry named found
    rw [find,if_neg named] at found
    obtain ⟨front,back,split,-⟩ := List.lookup_eq_some_iff.mp found
    obtain ⟨name,bytes,same⟩ := flat (place,entry) (by simp [split])
    obtain ⟨rfl,rfl⟩ := Prod.mk.inj same
    exact ⟨name,bytes,rfl,rfl⟩
  refine ⟨⟨fun place target found => ?_,fun name place entry found => ?_⟩,rfl⟩
  · by_cases named : place = []
    · subst named
      cases found
    · obtain ⟨name,bytes,-,same⟩ := files place _ named found
      cases same
  · obtain ⟨other,bytes,same,-⟩ := files _ entry (List.cons_ne_nil _ _) found
    cases same
    rfl

end Disk

end StyleHoist
