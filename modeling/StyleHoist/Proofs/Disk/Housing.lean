import StyleHoist.Proofs.Disk.Alteration
import StyleHoist.Proofs.Disk.Place

/-! The folder that a file is to be in. Where a file has been found or made the
folder is there too, and it leads there whatever else changes. -/
namespace StyleHoist

namespace Disk

variable {disk later : Disk} {base here parent : Place} {front back steps : List Text} {name : Text} {slash : Bool}
  {mode : Mode} {path : Path}

/-- The folder of a path, if it names one, is a folder. -/
def Houses (disk : Disk) (base : Place) (path : Path) : Prop :=
  ∀ folder, path.parent? = some folder → folder.text ≠ [] → disk.kind base folder = .ok .folder

/-- The front part of a walk leads to a folder, also if it ends in idle steps. -/
theorem advance_front (steps : List Text) (tree : disk.Tree) (folder : disk.find here = some .folder)
    (found : disk.advance here (front ++ back) = .ok (.spot (.name parent name slash))) (more : ∃ step ∈ back, step ≠ [])
    (idle : ∀ step ∈ steps, Path.isIdle step = true) :
    ∃ spot, disk.advance here (front ++ steps) = .ok (.spot spot) ∧ disk.find spot.place = some .folder := by
  simp only [advance_eq_ok_iff] at found ⊢
  induction front generalizing here with
  | nil =>
    clear found
    rw [List.nil_append]
    induction steps with
    | nil => exact ⟨.folder here,.here here,folder⟩
    | cons step rest ih =>
      obtain ⟨spot,onwards,held⟩ := ih fun other member => idle other (List.mem_cons_of_mem _ member)
      exact ⟨spot,.idle (idle step List.mem_cons_self) onwards,held⟩
  | cons step rest ih =>
    rw [List.cons_append] at found ⊢
    cases found with
    | idle resting onwards =>
      obtain ⟨spot,onwards,held⟩ := ih folder onwards
      exact ⟨spot,.idle resting onwards,held⟩
    | up onwards =>
      obtain ⟨spot,onwards,held⟩ := ih (find_tail tree folder) onwards
      exact ⟨spot,.up onwards,held⟩
    | down enters _ inside onwards =>
      cases ends : (rest ++ steps).all (· = []) with
      | true => exact ⟨_,.last enters ends,inside⟩
      | false =>
        obtain ⟨spot,onwards,held⟩ := ih inside onwards
        exact ⟨spot,.down enters ends inside onwards,held⟩
    | last _ last =>
      obtain ⟨other,member,filled⟩ := more
      have empty := List.all_eq_true.mp last other (List.mem_append_right _ member)
      exact absurd (of_decide_eq_true empty) filled

/-- The last name on a walk to a name that has no slash behind it. -/
theorem steps_of_advance (found : disk.advance here steps = .ok (.spot (.name parent name false))) :
    ∃ front, steps = front ++ [name] ∧ Path.isIdle name = false ∧ name ≠ ['.','.'] := by
  rw [advance_eq_ok_iff] at found
  generalize ended : Reach.spot (.name parent name false) = reach at found
  have further : ∀ {step : Text} {rest : List Text},
      (∃ front, rest = front ++ [name] ∧ Path.isIdle name = false ∧ name ≠ ['.','.']) →
      ∃ front, step :: rest = front ++ [name] ∧ Path.isIdle name = false ∧ name ≠ ['.','.'] := by
    rintro step _ ⟨front,rfl,named⟩
    exact ⟨step :: front,rfl,named⟩
  induction found with
  | here => cases ended
  | idle _ _ ih => exact further (ih ended)
  | up _ ih => exact further (ih ended)
  | down _ _ _ _ ih => exact further (ih ended)
  | last enters _ =>
    simp only [Reach.spot.injEq,Spot.name.injEq,Bool.false_eq,Bool.not_eq_false',List.isEmpty_iff] at ended
    obtain ⟨-,rfl,rfl⟩ := ended
    exact ⟨[],rfl,enters.moving,enters.down⟩
  | link => cases ended

theorem entryAt_of_folder {spot : Spot} (folder : disk.find spot.place = some .folder) :
    disk.entryAt spot = .ok .folder := by
  cases spot with
  | folder place => rfl
  | name parent name slash =>
    rw [Spot.place] at folder
    rw [entryAt,folder]

theorem kind_of_spot {spot : Spot} (found : disk.spot base .follow path = .ok spot)
    (folder : disk.find spot.place = some .folder) : disk.kind base path = .ok .folder := by
  exact kind_eq_ok_iff.mpr ⟨spot,.folder,found,entryAt_of_folder folder,iff_of_true rfl rfl⟩

/-- Where a file can be made and nothing is known of it there is nothing. -/
theorem vacant_of_create {cause : FileError} (ground : disk.Grounded base) (made : disk.create base path = .ok later)
    (missing : disk.kind base path = .error cause) : disk.find (path.place base) = none := by
  obtain ⟨parent,name,slash,found,-,-⟩ := create_eq_ok_iff.mp made
  obtain rfl : slash = false := ((spot_eq_ok ground).mp found).2.2 rfl
  have follows := spot_follow (fun _ => ground.linkless _) found
  rw [place_of_name ground found]
  cases held : disk.find (name :: parent) with
  | none => rfl
  | some entry =>
    cases entry <;> simp [kind,follows,entryAt,held,bind,Except.bind] at missing

theorem write_of_create (ground : disk.Grounded base) (made : disk.create base path = .ok later) (bytes : ByteArray) :
    ∃ last, later.write base path bytes = .ok last := by
  obtain ⟨parent,name,slash,found,free,rfl⟩ := create_eq_ok_iff.mp made
  obtain rfl : slash = false := ((spot_eq_ok ground).mp found).2.2 rfl
  have put := alters_put ground found free (show ∀ target, Entry.file .empty ≠ .link target from nofun)
  have onwards := spot_kept ground put.ground put.foldersKept (spot_follow (fun _ => ground.linkless _) found)
  exact ⟨_,write_eq_ok_iff.mpr ⟨parent,name,_,onwards,put.here,rfl⟩⟩

theorem kind_kept (ground : disk.Grounded base) (next : later.Grounded base) (kept : FoldersKept disk later)
    (told : disk.kind base path = .ok .folder) : later.kind base path = .ok .folder := by
  obtain ⟨spot,entry,found,held,same⟩ := kind_eq_ok_iff.mp told
  obtain rfl := same.mp rfl
  have here := entryAt_eq_ok ground found held
  rw [← (spot_place ground found).1] at here
  exact kind_of_spot (spot_kept ground next kept found) (kept _ here)

theorem Houses.kept (houses : disk.Houses base path) (ground : disk.Grounded base) (next : later.Grounded base)
    (kept : FoldersKept disk later) : later.Houses base path :=
  fun folder around named => kind_kept ground next kept (houses folder around named)

end Disk

namespace Path

open Disk

variable {path : Path} {base : Place} {front back : List Text} {name : Text}

theorem segments_ofSegments (first : front ≠ []) (whole : path.segments = front ++ back) (more : back ≠ []) :
    (⟨ofSegments front⟩ : Path).segments = front ∧ path.text = ofSegments front ++ '/' :: ofSegments back := by
  have plain : ∀ segment ∈ front, '/' ∉ segment := fun segment member =>
    notMem_of_mem_segments (whole ▸ List.mem_append_left _ member)
  refine ⟨List.splitOn_intercalate '/' plain first,?_⟩
  rw [ofSegments,ofSegments,← intercalate_append first more,← whole]
  exact (List.intercalate_splitOn '/').symm

theorem admissible_of_append {short rest : Text} (text : path.text = short ++ rest) (valid : Admissible path)
    (filled : short ≠ []) : Admissible ⟨short⟩ := by
  obtain ⟨-,plain,size⟩ := valid
  rw [text] at plain size
  refine ⟨filled,?_,?_⟩
  · simp only [List.contains_eq_mem,List.mem_append,decide_eq_false_iff_not,not_or] at plain ⊢
    exact plain.1
  · rw [Text.byteSize_append] at size
    exact (Nat.le_add_right _ _).trans size

theorem parent?_of_segments (whole : path.segments = front ++ [name]) (named : isIdle name = false) :
    path.parent? = if front.reverse.dropWhile isIdle = [] then some ⟨if path.isAbsolute then ['/'] else []⟩
      else some ⟨ofSegments (front.reverse.dropWhile isIdle).reverse⟩ := by
  have steps : path.segments.reverse.dropWhile isIdle = name :: front.reverse := by
    rw [whole,List.reverse_append,List.reverse_singleton,List.singleton_append,List.dropWhile_cons_of_neg (by simp [named])]
  rw [parent?,steps]
  dsimp only
  cases above : front.reverse.dropWhile isIdle <;> simp

theorem parent?_append {ending : Text} (plain : '/' ∉ ending) (whole : path.segments = front ++ [name])
    (moving : isIdle name = false) (longer : isIdle (name ++ ending) = false) :
    (⟨path.text ++ ending⟩ : Path).parent? = path.parent? := by
  obtain ⟨others,last,short,long⟩ := splitOn_append path.text plain
  obtain ⟨rfl,same⟩ := List.append_inj' (whole.symm.trans short) rfl
  obtain rfl := List.singleton_inj.mp same
  have absolute : (⟨path.text ++ ending⟩ : Path).isAbsolute = path.isAbsolute := by
    cases held : path.text with
    | nil =>
      rw [segments,held,List.splitOn_nil] at whole
      obtain ⟨-,same⟩ := List.append_inj' (show [] ++ [[]] = front ++ [name] from whole) rfl
      cases List.singleton_inj.mp same
      cases moving
    | cons c rest => simp [isAbsolute,held]
  rw [parent?_of_segments (show (⟨path.text ++ ending⟩ : Path).segments = _ from long) longer,
    parent?_of_segments whole moving,absolute]

end Path

namespace Disk

variable {disk : Disk} {base parent : Place} {name last : Text} {mode : Mode} {path folder : Path} {front : List Text}

theorem baseOf_of_append {short rest whole : Text} (text : whole = short ++ rest) (filled : short ≠ []) :
    baseOf base whole = baseOf base short := by
  obtain ⟨c,others,rfl⟩ := List.exists_cons_of_ne_nil filled
  rw [text]
  rfl

theorem front_split (front : List Text) : front = (front.reverse.dropWhile Path.isIdle).reverse ++
    (front.reverse.takeWhile Path.isIdle).reverse := by
  rw [← List.reverse_append,List.takeWhile_append_dropWhile,List.reverse_reverse]

theorem kind_root (disk : Disk) (base : Place) : disk.kind base ⟨['/']⟩ = .ok .folder := by
  cbv

theorem houses_of_spot (ground : disk.Grounded base) (found : disk.spot base mode path = .ok (.name parent name false)) :
    disk.Houses base path := by
  obtain ⟨valid,reached,-⟩ := (spot_eq_ok ground).mp found
  obtain ⟨front,whole,named,-⟩ := steps_of_advance reached
  intro folder around filled
  rw [Path.parent?_of_segments whole named] at around
  split at around
  next =>
    cases around
    by_cases absolute : path.isAbsolute = true
    · rw [if_pos absolute]
      exact kind_root disk base
    · exact absurd (if_neg absolute) filled
  next moving =>
    cases around
    have split := front_split front
    rw [split,List.append_assoc] at whole
    have first : (front.reverse.dropWhile Path.isIdle).reverse ≠ [] := by simpa using moving
    obtain ⟨segments,text⟩ := Path.segments_ofSegments first whole (by simp)
    rw [whole] at reached
    obtain ⟨spot,onwards,held⟩ := advance_front [] ground.toTree (find_baseOf ground _) reached
      ⟨name,by simp,by rintro rfl; cases named⟩ (List.forall_mem_nil _)
    rw [List.append_nil,baseOf_of_append text filled] at onwards
    refine kind_of_spot ((spot_eq_ok ground).mpr ⟨Path.admissible_of_append text valid filled,?_,nofun⟩) held
    rwa [segments]

/-- A path that ends in an idle step is that of a folder, once a longer last name has been found there. -/
theorem read_of_idle (ground : disk.Grounded base) {ending : Text} (plain : '/' ∉ ending) (filled : path.text ≠ [])
    (whole : path.segments = front ++ [last]) (idle : Path.isIdle last = true)
    (found : disk.spot base mode ⟨path.text ++ ending⟩ = .ok (.name parent name false)) :
    disk.read base path = .error .isDirectory := by
  obtain ⟨valid,reached,-⟩ := (spot_eq_ok ground).mp found
  obtain ⟨front',last',short,long⟩ := Path.splitOn_append path.text plain
  obtain ⟨rfl,same⟩ := List.append_inj' (whole.symm.trans short) rfl
  obtain rfl := List.singleton_inj.mp same
  obtain ⟨others,longer,named,-⟩ := steps_of_advance reached
  obtain ⟨-,same⟩ := List.append_inj' (long.symm.trans longer) rfl
  obtain rfl := List.singleton_inj.mp same
  have more : ∃ step ∈ [last ++ ending], step ≠ [] :=
    ⟨_,List.mem_cons_self,fun empty => by rw [empty] at named; cases named⟩
  rw [Path.segments,long] at reached
  obtain ⟨spot,onwards,held⟩ := advance_front [last] ground.toTree (find_baseOf ground _) reached more
    (List.forall_mem_singleton.mpr idle)
  rw [Path.baseOf_append base _ plain,← whole] at onwards
  have seen : disk.spot base .follow path = .ok spot :=
    (spot_eq_ok ground).mpr ⟨Path.admissible_of_append rfl valid filled,onwards,fun same => by cases same⟩
  have entry := entryAt_of_folder held
  simp [read,seen,entry,bind,Except.bind]

end Disk

end StyleHoist
