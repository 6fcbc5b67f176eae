import StyleHoist.Disk.Walk
import StyleHoist.Proofs.Result

/-! How a path is looked up, step by step and link by link, with one case for everything that can
come next. What holds of a lookup is shown by induction on these cases. -/
namespace StyleHoist.Disk

variable {disk : Disk} {here place parent : Place} {steps rest : List Text} {step name target : Text} {slash : Bool}
  {reach : Reach} {spot : Spot} {mode : Mode} {links : Nat} {base : Place} {path : Path}

/-- A step to a name, whatever has it. -/
structure Enters (step : Text) : Prop where
  moving : Path.isIdle step = false
  down : step ≠ ['.','.']
  short : Text.byteSize step ≤ longestName

/-- What steps from a folder come to. -/
inductive Advances (disk : Disk) : Place → List Text → Reach → Prop
  | here (place : Place) : disk.Advances place [] (.spot (.folder place))
  | idle {here : Place} {step : Text} {rest : List Text} {reach : Reach} (idle : Path.isIdle step = true)
      (onwards : disk.Advances here rest reach) : disk.Advances here (step :: rest) reach
  | up {here : Place} {rest : List Text} {reach : Reach} (onwards : disk.Advances here.tail rest reach) :
      disk.Advances here (['.','.'] :: rest) reach
  | down {here : Place} {step : Text} {rest : List Text} {reach : Reach} (enters : Enters step)
      (more : rest.all (· = []) = false) (folder : disk.find (step :: here) = some .folder)
      (onwards : disk.Advances (step :: here) rest reach) : disk.Advances here (step :: rest) reach
  | last {here : Place} {step : Text} {rest : List Text} (enters : Enters step) (last : rest.all (· = []) = true) :
      disk.Advances here (step :: rest) (.spot (.name here step (!rest.isEmpty)))
  | link {here : Place} {step target : Text} {rest : List Text} (enters : Enters step)
      (more : rest.all (· = []) = false) (there : disk.find (step :: here) = some (.link target)) :
      disk.Advances here (step :: rest) (.link here target rest)

theorem advance_up : disk.advance here (['.','.'] :: rest) = disk.advance here.tail rest := by
  rw [advance,if_neg (by decide),if_pos rfl]

theorem advance_of_last (enters : Enters step) (last : rest.all (· = []) = true) :
    disk.advance here (step :: rest) = .ok (.spot (.name here step (!rest.isEmpty))) := by
  rw [advance,if_neg (by simp [enters.moving]),if_neg enters.down,if_neg (Nat.not_lt.mpr enters.short),if_pos last]

theorem advance_of_folder (enters : Enters step) (more : rest.all (· = []) = false)
    (folder : disk.find (step :: here) = some .folder) :
    disk.advance here (step :: rest) = disk.advance (step :: here) rest := by
  rw [advance,if_neg (by simp [enters.moving]),if_neg enters.down,if_neg (Nat.not_lt.mpr enters.short),
    if_neg (by simp [more]),folder]

theorem advance_of_link (enters : Enters step) (more : rest.all (· = []) = false)
    (there : disk.find (step :: here) = some (.link target)) :
    disk.advance here (step :: rest) = .ok (.link here target rest) := by
  rw [advance,if_neg (by simp [enters.moving]),if_neg enters.down,if_neg (Nat.not_lt.mpr enters.short),
    if_neg (by simp [more]),there]

theorem advance_eq_ok_iff : disk.advance here steps = .ok reach ↔ disk.Advances here steps reach := by
  constructor
  · intro found
    induction steps generalizing here with
    | nil =>
      cases found
      exact .here here
    | cons step rest ih =>
      by_cases idle : Path.isIdle step = true
      · rw [advance_of_idle idle] at found
        exact .idle idle (ih found)
      by_cases upwards : step = ['.','.']
      · subst upwards
        rw [advance_up] at found
        exact .up (ih found)
      by_cases long : longestName < Text.byteSize step
      · rw [advance,if_neg idle,if_neg upwards,if_pos long] at found
        cases found
      have enters : Enters step := ⟨by simpa using idle,upwards,Nat.not_lt.mp long⟩
      cases more : rest.all (· = []) with
      | true =>
        rw [advance_of_last enters more] at found
        cases found
        exact .last enters more
      | false =>
        rw [advance,if_neg idle,if_neg upwards,if_neg long,if_neg (by simp [more])] at found
        split at found
        next => cases found
        next folder => exact .down enters more folder (ih found)
        next => cases found
        next there =>
          cases found
          exact .link enters more there
  · intro advances
    induction advances with
    | here place => rfl
    | idle idle _ ih => rw [advance_of_idle idle,ih]
    | up _ ih => rw [advance_up,ih]
    | down enters more folder _ ih => rw [advance_of_folder enters more folder,ih]
    | last enters last => exact advance_of_last enters last
    | link enters more there => exact advance_of_link enters more there

theorem spotFrom_of_link (reached : disk.advance here steps = .ok (.link place target rest)) :
    disk.spotFrom mode (links + 1) here steps =
      disk.spotFrom mode links (baseOf place target) (target.splitOn '/' ++ rest) := by
  rw [Disk.spotFrom,reached]
  rfl

theorem spotFrom_of_folder (reached : disk.advance here steps = .ok (.spot (.folder place))) :
    disk.spotFrom mode links here steps = .ok (.folder place) := by
  rw [Disk.spotFrom,reached]
  rfl

theorem spotFrom_of_name (reached : disk.advance here steps = .ok (.spot (.name parent name slash)))
    (open' : mode = .create → slash = false)
    (plain : mode ≠ .bare → ∀ target, disk.find (name :: parent) ≠ some (.link target)) :
    disk.spotFrom mode links here steps = .ok (.name parent name slash) := by
  rw [Disk.spotFrom,reached]
  simp only [bind,Except.bind]
  rw [if_neg (by simpa using open')]
  split
  next target there =>
    split at there
    next => cases there
    next other => exact absurd there (plain other target)
  next => rfl

theorem spotFrom_of_follow (reached : disk.advance here steps = .ok (.spot (.name parent name slash)))
    (open' : mode = .create → slash = false) (other : mode ≠ .bare)
    (there : disk.find (name :: parent) = some (.link target)) : disk.spotFrom mode (links + 1) here steps =
      disk.spotFrom mode links (baseOf parent target) (target.splitOn '/' ++ if slash then [[]] else []) := by
  rw [Disk.spotFrom,reached]
  simp only [bind,Except.bind]
  rw [if_neg (by simpa using open')]
  simp only [if_neg other,there]

/-- What holds of all steps that lead to a spot: it holds where they end, and is carried back over every
link that is followed on the way or at the end. -/
theorem spotFrom_induct {motive : Nat → Place → List Text → Prop}
    (link : ∀ {links here steps place target rest}, disk.advance here steps = .ok (.link place target rest) →
      motive links (baseOf place target) (target.splitOn '/' ++ rest) → motive (links + 1) here steps)
    (folder : ∀ {links here steps place}, disk.advance here steps = .ok (.spot (.folder place)) → spot = .folder place →
      motive links here steps)
    (last : ∀ {links here steps parent name slash}, disk.advance here steps = .ok (.spot (.name parent name slash)) →
      (mode = .create → slash = false) → (mode ≠ .bare → ∀ target, disk.find (name :: parent) ≠ some (.link target)) →
      spot = .name parent name slash → motive links here steps)
    (follow : ∀ {links here steps parent name slash target},
      disk.advance here steps = .ok (.spot (.name parent name slash)) → (mode = .create → slash = false) →
      mode ≠ .bare → disk.find (name :: parent) = some (.link target) →
      motive links (baseOf parent target) (target.splitOn '/' ++ if slash then [[]] else []) →
      motive (links + 1) here steps)
    (found : disk.spotFrom mode links here steps = .ok spot) : motive links here steps := by
  induction links using Nat.strongRecOn generalizing here steps with
  | ind links ih =>
    rw [Disk.spotFrom] at found
    obtain ⟨reach,reached,onwards⟩ := bind_eq_ok_iff.mp found
    split at onwards
    next =>
      split at onwards
      next => cases onwards
      next fewer => exact link reached (ih fewer (Nat.lt_succ_self fewer) onwards)
    next =>
      cases onwards
      exact folder reached rfl
    next parent name slash =>
      split at onwards
      next => cases onwards
      next open' =>
        split at onwards
        next target there =>
          split at there
          next => cases there
          next other =>
            split at onwards
            next => cases onwards
            next fewer =>
              exact follow reached (by simpa using open') other there (ih fewer (Nat.lt_succ_self fewer) onwards)
        next plain =>
          cases onwards
          refine last reached (by simpa using open') (fun other target there => ?_) rfl
          rw [if_neg other] at plain
          exact plain target there

/-- Whether the text of a path is one at all. -/
def Admissible (path : Path) : Prop :=
  path.text ≠ [] ∧ path.text.contains '\x00' = false ∧ Text.byteSize path.text ≤ longestPath

theorem spot_eq_ok_iff : disk.spot base mode path = .ok spot ↔
    Admissible path ∧ disk.spotFrom mode mostLinks (baseOf base path.text) path.segments = .ok spot := by
  rw [Disk.spot,trace,Admissible]
  by_cases empty : path.text = []
  · simp [empty]
  cases cut : path.text.contains '\x00' with
  | true => simp [empty]
  | false =>
    by_cases long : longestPath < Text.byteSize path.text
    · simp [long,Nat.not_le.mpr long]
    · simp [empty,long,Nat.not_lt.mp long]

end StyleHoist.Disk
