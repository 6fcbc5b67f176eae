import StyleHoist.Proofs.Disk.Descent
import StyleHoist.Proofs.Disk.Place
import StyleHoist.Proofs.Disk.Ways

/-! What is changed by the operations that put a file where something may be, on a disk that may
have links. Paths with different last names lead to different places, whatever they pass. -/
namespace StyleHoist

namespace Disk

variable {disk later : Disk} {base here parent place : Place} {steps front back : List Text} {mode : Mode} {path : Path}
  {spot : Spot} {name : Text} {slash : Bool} {links : Nat}

/-- The last step that has a text. -/
def lastStep? (steps : List Text) : Option Text := (steps.filter (· ≠ [])).getLast?

theorem lastStep?_append (more : back.all (· = []) = false) : lastStep? (front ++ back) = lastStep? back := by
  have filled : back.filter (· ≠ []) ≠ [] := by
    intro none
    rw [List.filter_eq_nil_iff] at none
    have all : back.all (· = []) = true := List.all_eq_true.mpr fun step member => by simpa using none step member
    rw [all] at more
    cases more
  rw [lastStep?,List.filter_append,List.getLast?_append_of_ne_nil _ filled,lastStep?]

theorem lastStep?_cons_of_all (last : back.all (· = []) = true) (filled : name ≠ []) :
    lastStep? (name :: back) = some name := by
  have none : back.filter (· ≠ []) = [] := by
    rw [List.filter_eq_nil_iff]
    intro step member
    simpa using List.all_eq_true.mp last step member
  rw [lastStep?,List.filter_cons_of_pos (by simpa using filled),none]
  rfl

theorem lastStep?_cons (step : Text) (last : lastStep? back = some name) : lastStep? (step :: back) = some name := by
  rw [lastStep?,List.filter_cons]
  split
  · rw [List.getLast?_cons,← lastStep?,last]
    rfl
  · exact last

theorem lastStep?_of_advance (found : disk.advance here steps = .ok (.spot (.name parent name slash))) :
    lastStep? steps = some name ∧ Path.isIdle name = false := by
  rw [advance_eq_ok_iff] at found
  generalize ended : Reach.spot (.name parent name slash) = reach at found
  induction found with
  | here => cases ended
  | idle _ _ ih => exact (ih ended).imp_left (lastStep?_cons _)
  | up _ ih => exact (ih ended).imp_left (lastStep?_cons _)
  | down _ _ _ _ ih => exact (ih ended).imp_left (lastStep?_cons _)
  | last enters last =>
    cases ended
    refine ⟨lastStep?_cons_of_all last ?_,enters.moving⟩
    rintro rfl
    cases enters.moving
  | link => cases ended

theorem suffix_of_advance {target : Text} {rest : List Text}
    (found : disk.advance here steps = .ok (.link place target rest)) : rest <:+ steps ∧ rest.all (· = []) = false := by
  rw [advance_eq_ok_iff] at found
  generalize ended : Reach.link place target rest = reach at found
  have further : ∀ {step : Text} {steps : List Text}, rest <:+ steps ∧ rest.all (· = []) = false →
      rest <:+ step :: steps ∧ rest.all (· = []) = false :=
    And.imp_left fun suffix => suffix.trans (List.suffix_cons _ _)
  induction found with
  | here => cases ended
  | idle _ _ ih => exact further (ih ended)
  | up _ ih => exact further (ih ended)
  | down _ _ _ _ ih => exact further (ih ended)
  | last => cases ended
  | link _ more _ =>
    cases ended
    exact further ⟨List.suffix_refl _,more⟩

theorem lastStep?_of_spotFrom (found : disk.spotFrom .bare links here steps = .ok (.name parent name slash)) :
    lastStep? steps = some name ∧ Path.isIdle name = false := by
  refine spotFrom_induct (motive := fun _ _ steps => lastStep? steps = some name ∧ Path.isIdle name = false)
    (fun reached ends => ?_) (fun _ same => by cases same) (fun reached _ _ same => ?_)
    (fun _ _ other => absurd rfl other) found
  · obtain ⟨⟨front,rfl⟩,more⟩ := suffix_of_advance reached
    rw [lastStep?_append more] at ends ⊢
    exact ends
  · cases same
    exact lastStep?_of_advance reached

theorem lastStep?_of_spot (found : disk.spot base .bare path = .ok (.name parent name slash)) :
    lastStep? path.segments = some name ∧ Path.isIdle name = false :=
  lastStep?_of_spotFrom (spot_eq_ok_iff.mp found).2

theorem mem_of_lastStep? (last : lastStep? steps = some name) : name ∈ steps :=
  List.mem_of_mem_filter (List.mem_of_getLast? last)

/-- However a path is looked up, one that leads to no link leads to the same spot when its last
name is not followed. -/
theorem spotFrom_bare (found : disk.spotFrom mode links here steps = .ok spot) :
    (mode = .create → spot.slash = false) ∧ ∃ bare, disk.spotFrom .bare links here steps = .ok bare ∧
      ((∀ target, disk.find bare.place ≠ some (.link target)) → bare = spot) := by
  refine spotFrom_induct (motive := fun links here steps => (mode = .create → spot.slash = false) ∧
    ∃ bare, disk.spotFrom .bare links here steps = .ok bare ∧
      ((∀ target, disk.find bare.place ≠ some (.link target)) → bare = spot))
    (fun reached ends => ?_) (fun reached same => ?_) (fun reached open' _ same => ?_)
    (fun reached _ _ there ends => ?_) found
  · rwa [spotFrom_of_link reached]
  · exact same ▸ ⟨fun _ => rfl,_,spotFrom_of_folder reached,fun _ => rfl⟩
  · exact same ▸ ⟨open',_,spotFrom_of_name reached nofun (absurd rfl),fun _ => rfl⟩
  · exact ⟨ends.1,_,spotFrom_of_name reached nofun (absurd rfl),fun plain => absurd there (plain _)⟩

theorem spot_bare (found : disk.spot base mode path = .ok spot) :
    (mode = .create → spot.slash = false) ∧ ∃ bare, disk.spot base .bare path = .ok bare ∧
      ((∀ target, disk.find bare.place ≠ some (.link target)) → bare = spot) := by
  obtain ⟨valid,onwards⟩ := spot_eq_ok_iff.mp found
  obtain ⟨open',bare,found',same⟩ := spotFrom_bare onwards
  exact ⟨open',bare,spot_eq_ok_iff.mpr ⟨valid,found'⟩,same⟩

theorem create_update (made : disk.create base path = .ok later)
    (plain : ∀ spot target, disk.spot base .bare path = .ok spot → disk.find spot.place ≠ some (.link target)) :
    ∃ parent name, disk.spot base .bare path = .ok (.name parent name false) ∧
      (disk.find (name :: parent) = none ∨ ∃ held, disk.find (name :: parent) = some (.file held)) ∧
      later.find = Function.update disk.find (name :: parent) (some (.file .empty)) := by
  obtain ⟨parent,name,slash,found,free,rfl⟩ := create_eq_ok_iff.mp made
  obtain ⟨open',bare,found',same⟩ := spot_bare found
  obtain rfl := same fun target => plain bare target found'
  obtain rfl : slash = false := open' rfl
  refine ⟨parent,name,found',?_,find_put (List.cons_ne_nil _ _) _⟩
  cases here : disk.find (name :: parent) with
  | none => exact .inl rfl
  | some held =>
    cases held with
    | folder => exact absurd here free
    | file bytes => exact .inr ⟨bytes,rfl⟩
    | link target => exact absurd here (plain _ target found')

theorem rename_update {source target : Path} (moved : disk.rename base source target = .ok later) :
    ∃ parent name around other entry, disk.spot base .bare source = .ok (.name parent name false) ∧
      disk.spot base .bare target = .ok (.name around other false) ∧ disk.find (name :: parent) = some entry ∧
      disk.find (other :: around) ≠ some .folder ∧ (name ≠ other → later.find =
        Function.update (Function.update disk.find (name :: parent) none) (other :: around) (some entry)) := by
  obtain ⟨parent,name,around,other,entry,found,found',held,-,free,moved⟩ := rename_cases moved
  refine ⟨parent,name,around,other,entry,found,found',held,free,fun apart => ?_⟩
  rcases moved with ⟨same,-⟩ | ⟨-,rfl⟩
  · exact absurd (List.cons.inj same).1 apart
  · rw [find_put (List.cons_ne_nil _ _),find_erase (List.cons_ne_nil _ _)]

end Disk

namespace Path

open Disk Attempt

variable {path temporary : Path} {name other : Text}

theorem eq_of_fileName? (named : path.fileName? = some name) (last : lastStep? path.segments = some other)
    (moving : isIdle other = false) : other = name := by
  obtain ⟨above,steps,down,-⟩ := steps_of_fileName? named
  have whole : path.segments = above.reverse ++ name :: (path.segments.reverse.takeWhile isIdle).reverse := by
    have split := List.takeWhile_append_dropWhile (p := isIdle) (l := path.segments.reverse)
    rw [steps] at split
    have reversed := congrArg List.reverse split
    simpa using reversed.symm
  have filled : name ≠ [] := by
    rintro rfl
    cases down
  cases idle : (path.segments.reverse.takeWhile isIdle).reverse.all (· = []) with
  | true =>
    rw [whole,lastStep?_append (by simp [filled]),lastStep?_cons_of_all idle filled] at last
    exact (Option.some.inj last).symm
  | false =>
    rw [whole,List.append_cons,lastStep?_append idle] at last
    have behind := isIdle_of_mem_takeWhile (List.mem_reverse.mp (mem_of_lastStep? last))
    rw [behind] at moving
    cases moving

theorem lead_cases (path : Path) : path.lead = [] ∨ ∃ text, path.lead = text ++ ['/'] := by
  rw [lead]
  split
  next ends =>
    rcases Bool.or_eq_true_iff.mp ends with empty | slash
    · exact .inl (of_decide_eq_true empty)
    · obtain ⟨text,whole⟩ := List.getLast?_eq_some_iff.mp (of_decide_eq_true slash)
      exact .inr ⟨text,whole⟩
  next => exact .inr ⟨_,rfl⟩

theorem lastStep?_join (path : Path) (named : Names name) : lastStep? (path.join ⟨name⟩).segments = some name := by
  have relative : (⟨name⟩ : Path).isAbsolute = false := by simpa using isAbsolute_of_names named []
  have alone : name.splitOn '/' = [name] := List.splitOn_eq_singleton named.2
  have single : lastStep? [name] = some name := lastStep?_cons_of_all rfl named.1
  rw [join_of_relative path relative,segments]
  rcases path.lead_cases with none | ⟨text,whole⟩
  · rw [none,List.nil_append,alone,single]
  · rw [whole,List.append_assoc,List.singleton_append,List.splitOn_append_cons_self,alone,
      lastStep?_append (by simp [named.1]),single]

theorem ne_of_temporary? {disk later : Disk} {base base' parent around : Place} {slash slash' : Bool}
    (named : temporary? path = some temporary) (own : disk.spot base .bare path = .ok (.name parent name slash))
    (beside : later.spot base' .bare temporary = .ok (.name around other slash')) : name ≠ other := by
  simp only [temporary?,Option.bind_eq_bind,Option.bind_eq_some_iff] at named
  obtain ⟨file,last,same⟩ := named
  cases same
  obtain ⟨ends,moving⟩ := lastStep?_of_spot own
  obtain rfl := eq_of_fileName? last ends moving
  have plain : '/' ∉ name := notMem_of_mem_segments (mem_of_lastStep? ends)
  have draft := (lastStep?_of_spot beside).1
  rw [lastStep?_join _ ⟨by simp,by simp [plain]⟩] at draft
  cases Option.some.inj draft
  intro same
  have size := congrArg List.length same
  simp at size
  omega

end Path

end StyleHoist
