import StyleHoist.Lock
import StyleHoist.Proofs.Declaration.Canonical
import StyleHoist.Proofs.Disk.Spot

/-! The places of the files beside a file. A lock, a temporary and the file itself
are never the same. -/
namespace StyleHoist

namespace Disk

variable {here : Place} {front back : List Text}

theorem walk_append (here : Place) (front back : List Text) :
    walk here (front ++ back) = walk (walk here front) back := by
  induction front generalizing here with
  | nil => rfl
  | cons step rest ih =>
    rw [List.cons_append,walk,walk]
    split
    · exact ih here
    · split
      · exact ih here.tail
      · exact ih (step :: here)

theorem walk_idle (idle : ∀ step ∈ back, Path.isIdle step = true) : walk here back = here := by
  induction back with
  | nil => rfl
  | cons step rest ih =>
    rw [walk,if_pos (idle step List.mem_cons_self)]
    exact ih fun other member => idle other (List.mem_cons_of_mem _ member)

theorem walk_concat (here : Place) (front : List Text) {name : Text} (named : Path.isIdle name = false)
    (down : name ≠ ['.','.']) : walk here (front ++ [name]) = name :: walk here front := by
  rw [walk_append,walk,if_neg (by simp [named]),if_neg down,walk]

theorem walk_step (here : Place) (step : Text) :
    walk here [step] = here ∨ walk here [step] = here.tail ∨ walk here [step] = step :: here := by
  rw [walk]
  split
  · exact .inl rfl
  · split
    · exact .inr (.inl rfl)
    · exact .inr (.inr rfl)

end Disk

namespace Path

open Disk

variable {path : Path} {base : Place} {name : Text}

theorem isIdle_of_longer (name : Text) (long : 2 < name.length) : isIdle name = false ∧ name ≠ ['.','.'] := by
  constructor
  · rw [isIdle,Bool.or_eq_false_iff,decide_eq_false_iff_not,decide_eq_false_iff_not]
    constructor <;>
    · rintro rfl
      simp at long
  · rintro rfl
    simp at long

theorem splitOn_append (text : Text) {ending : Text} (plain : '/' ∉ ending) :
    ∃ front last, text.splitOn '/' = front ++ [last] ∧
      (text ++ ending).splitOn '/' = front ++ [last ++ ending] := by
  obtain ⟨front,last,short,long⟩ := Text.exists_splitOn_append '/' text
  refine ⟨front,last,short,?_⟩
  rw [long,List.splitOn_eq_singleton plain,List.modifyHead_cons]

theorem baseOf_append (base : Place) (text : Text) {ending : Text} (plain : '/' ∉ ending) :
    baseOf base (text ++ ending) = baseOf base text := by
  cases text with
  | nil =>
    have other : ending.head? ≠ some '/' := fun same => plain (List.mem_of_mem_head? same)
    simp [baseOf,other]
  | cons c text => rfl

theorem place_extend {ending : Text} (plain : '/' ∉ ending) (long : 2 < ending.length) (path : Path) (base : Place) :
    ∃ around last, (⟨path.text ++ ending⟩ : Path).place base = (last ++ ending) :: around ∧
      path.place base = walk around [last] := by
  obtain ⟨front,last,short,extended⟩ := splitOn_append path.text plain
  obtain ⟨named,down⟩ := isIdle_of_longer (last ++ ending) (by simp; omega)
  refine ⟨walk (baseOf base path.text) front,last,?_,?_⟩
  · rw [place,segments,extended,baseOf_append base path.text plain,walk_concat _ _ named down]
  · rw [place,segments,short,walk_append]

theorem place_extend_ne {ending : Text} (plain : '/' ∉ ending) (long : 2 < ending.length) (path : Path) :
    (⟨path.text ++ ending⟩ : Path).place base ≠ path.place base := by
  obtain ⟨around,last,extended,short⟩ := place_extend plain long path base
  intro same
  rw [extended,short] at same
  have size := congrArg List.length same
  rcases walk_step around last with stays | upwards | below
  · simp [stays] at size
  · simp only [upwards,List.length_cons,List.length_tail] at size
    omega
  · have ends := congrArg List.length (List.cons.inj (same.trans below)).1
    simp only [List.length_append] at ends
    omega

theorem place_join {tail : Text} (plain : '/' ∉ tail) (long : 2 < tail.length) (folder : Path) :
    (folder.join ⟨tail⟩).place base = tail :: folder.place base := by
  obtain ⟨named,down⟩ := isIdle_of_longer tail long
  have relative : (⟨tail⟩ : Path).isAbsolute = false := by
    rw [isAbsolute,decide_eq_false_iff_not]
    exact fun same => plain (List.mem_of_mem_head? same)
  have whole : tail.splitOn '/' = [tail] := List.splitOn_eq_singleton plain
  rw [join,if_neg (by simp [relative])]
  by_cases empty : folder.text = []
  · have under : baseOf base tail = baseOf base [] := baseOf_append base [] plain
    have single := walk_concat (baseOf base []) [] named down
    rw [if_pos (by simp [empty]),place,place,segments,segments,empty,List.nil_append,whole,under]
    exact single
  by_cases slash : folder.text.getLast? = some '/'
  · obtain ⟨text,ends⟩ := List.getLast?_eq_some_iff.mp slash
    have under : baseOf base (folder.text ++ tail) = baseOf base folder.text := baseOf_append base _ plain
    rw [if_pos (by simp [slash]),place,under,place,segments,segments,ends,List.append_assoc,List.singleton_append,
      List.splitOn_append_cons_self,List.splitOn_append_cons_self,whole,walk_concat _ _ named down,walk_append]
    rfl
  · have under : baseOf base (folder.text ++ '/' :: tail) = baseOf base folder.text := by
      cases held : folder.text with
      | nil => exact absurd held empty
      | cons c text => rfl
    rw [if_neg (by simp [empty,slash]),place,segments,List.splitOn_append_cons_self,whole,under,
      walk_concat _ _ named down]
    rfl

theorem component?_eq_none {step : Text} : component? step = none ↔ isIdle step = true := by
  rw [component?]
  split
  next idle => simp [idle]
  next moving =>
    split <;> simp [moving]

theorem head?_filterMap_component? {steps : List Text} {component : Component}
    (first : (steps.filterMap component?).head? = some component) :
    ∃ step rest, steps.dropWhile isIdle = step :: rest ∧ component? step = some component := by
  induction steps with
  | nil => cases first
  | cons step rest ih =>
    by_cases idle : isIdle step = true
    · rw [List.filterMap_cons_none (component?_eq_none.mpr idle)] at first
      rw [List.dropWhile_cons_of_pos idle]
      exact ih first
    · obtain ⟨other,some⟩ := Option.ne_none_iff_exists'.mp fun none => idle (component?_eq_none.mp none)
      rw [List.filterMap_cons_some some] at first
      rw [List.dropWhile_cons_of_neg idle]
      exact ⟨step,rest,rfl,some.trans first⟩

/-- The last step of a path with a file name. What follows it is idle. -/
theorem steps_of_fileName? (named : path.fileName? = some name) :
    ∃ above, path.segments.reverse.dropWhile isIdle = name :: above ∧ isIdle name = false ∧ name ≠ ['.','.'] := by
  have last : (path.segments.filterMap component?).getLast? = some (.name name) := by
    rw [fileName?,components,List.getLast?_append] at named
    cases ends : (path.segments.filterMap component?).getLast? with
    | none =>
      rw [ends] at named
      cases absolute : path.isAbsolute <;> simp [absolute] at named
    | some component =>
      rw [ends] at named
      cases component <;> simp_all
  rw [List.getLast?_eq_head?_reverse,← List.filterMap_reverse] at last
  obtain ⟨step,above,steps,moves⟩ := head?_filterMap_component? last
  rw [component?] at moves
  split at moves
  next => cases moves
  next moving =>
    split at moves
    next => cases moves
    next down =>
      cases moves
      exact ⟨above,steps,by simpa using moving,down⟩

theorem intercalate_append {front back : List Text} (first : front ≠ []) (second : back ≠ []) :
    ['/'].intercalate (front ++ back) = ['/'].intercalate front ++ '/' :: ['/'].intercalate back := by
  induction front with
  | nil => exact absurd rfl first
  | cons head rest ih =>
    cases rest with
    | nil => rw [List.singleton_append,List.intercalate_cons_of_ne_nil second]; simp
    | cons next rest =>
      have onwards := ih (List.cons_ne_nil _ _)
      rw [List.cons_append,List.intercalate_cons_of_ne_nil (by simp),onwards,
        List.intercalate_cons_of_ne_nil (List.cons_ne_nil _ _)]
      simp

theorem notMem_of_mem_segments {segment : Text} (member : segment ∈ path.segments) : '/' ∉ segment :=
  Text.notMem_of_mem_splitOn member

theorem isIdle_of_mem_takeWhile {steps : List Text} {step : Text} (member : step ∈ steps.takeWhile isIdle) :
    isIdle step = true :=
  List.all_eq_true.mp List.all_takeWhile step member

theorem place_ofSegments {front back : List Text} (first : front ≠ []) (moving : front ≠ [[]])
    (whole : path.segments = front ++ back) (more : back ≠ []) :
    (⟨ofSegments front⟩ : Path).place base = walk (baseOf base path.text) front := by
  have plain : ∀ segment ∈ front, '/' ∉ segment := fun segment member =>
    notMem_of_mem_segments (whole ▸ List.mem_append_left _ member)
  have parted : (ofSegments front).splitOn '/' = front := List.splitOn_intercalate '/' plain first
  have joined : path.text = ofSegments front ++ '/' :: ofSegments back := by
    rw [ofSegments,ofSegments,← intercalate_append first more,← whole]
    exact (List.intercalate_splitOn '/').symm
  have filled : ofSegments front ≠ [] := by
    intro empty
    rw [empty,List.splitOn_nil] at parted
    exact moving parted.symm
  have under : baseOf base path.text = baseOf base (ofSegments front) := by
    obtain ⟨c,rest,held⟩ := List.exists_cons_of_ne_nil filled
    rw [joined,held]
    rfl
  rw [place,segments,parted,under]

theorem place_fileName (named : path.fileName? = some name) :
    path.place base = name :: (path.parent?.getD ⟨['.']⟩).place base := by
  obtain ⟨above,steps,moving,down⟩ := steps_of_fileName? named
  have whole : path.segments = above.reverse ++ [name] ++ (path.segments.reverse.takeWhile isIdle).reverse := by
    have split := List.takeWhile_append_dropWhile (p := isIdle) (l := path.segments.reverse)
    rw [steps] at split
    have reversed := congrArg List.reverse split
    simpa using reversed.symm
  have idle : ∀ step ∈ (path.segments.reverse.takeWhile isIdle).reverse, isIdle step = true :=
    fun step member => isIdle_of_mem_takeWhile (List.mem_reverse.mp member)
  have place : path.place base = name :: walk (baseOf base path.text) above.reverse := by
    rw [Path.place,whole,walk_append,walk_concat _ _ moving down,walk_idle idle]
  -- idle steps before the name lead nowhere, so the parent may drop them
  have parts := List.takeWhile_append_dropWhile (p := isIdle) (l := above)
  have back : ∀ step ∈ (above.takeWhile isIdle).reverse, isIdle step = true :=
    fun step member => isIdle_of_mem_takeWhile (List.mem_reverse.mp member)
  rw [place,parent?,steps]
  dsimp only
  cases upper : above.dropWhile isIdle with
  | nil =>
    rw [upper,List.append_nil] at parts
    rw [← parts,walk_idle back,Option.getD_some]
    cases absolute : path.isAbsolute <;>
    · have leads : path.text.head? = some '/' ↔ path.isAbsolute = true := by simp [isAbsolute]
      simp only [baseOf,leads,absolute]
      rfl
  | cons step rest =>
    have halves : above.reverse = (step :: rest).reverse ++ (above.takeWhile isIdle).reverse := by
      rw [← List.reverse_append,← upper,parts]
    have onwards : isIdle step = false := by
      have first := List.head_dropWhile_not isIdle (l := above) (by simp [upper])
      simpa [upper] using first
    rw [halves,List.append_assoc,List.append_assoc] at whole
    rw [halves,walk_append,walk_idle back,Option.getD_some,place_ofSegments (by simp) (fun empty => ?_) whole (by simp)]
    have single : step :: rest = [[]] := by simpa using congrArg List.reverse empty
    rw [(List.cons.inj single).1] at onwards
    cases onwards

section

open Attempt

variable {temporary : Path}

theorem place_temporary (named : temporary? path = some temporary) (base : Place) :
    ∃ name around, path.place base = name :: around ∧
      temporary.place base = ('.' :: name ++ ".destyle.tmp".toList) :: around := by
  simp only [temporary?,Option.bind_eq_bind,Option.bind_eq_some_iff] at named
  obtain ⟨name,last,same⟩ := named
  cases same
  refine ⟨name,_,place_fileName last,place_join ?_ (by simp) _⟩
  obtain ⟨above,steps,-,-⟩ := steps_of_fileName? last
  have member : name ∈ path.segments := by
    have inside : name ∈ path.segments.reverse.dropWhile isIdle := by simp [steps]
    exact List.mem_reverse.mp ((List.dropWhile_sublist isIdle).subset inside)
  have plain := notMem_of_mem_segments member
  simp [plain]

theorem place_temporary_ne (named : temporary? path = some temporary) (base : Place) :
    temporary.place base ≠ path.place base := by
  obtain ⟨name,around,own,beside⟩ := place_temporary named base
  rw [own,beside]
  intro same
  have size := congrArg List.length (List.cons.inj same).1
  simp at size
  omega

theorem place_lock_ne (path : Path) (base : Place) : (Lock.pathFor path).place base ≠ path.place base :=
  place_extend_ne (by decide) (by decide) path

theorem place_lock_ne_temporary (named : temporary? path = some temporary) (base : Place) :
    (Lock.pathFor path).place base ≠ temporary.place base := by
  obtain ⟨name,around,own,beside⟩ := place_temporary named base
  obtain ⟨outer,last,lock,short⟩ := place_extend (show '/' ∉ ".lock".toList by decide) (by decide) path base
  rw [Lock.pathFor,extend,lock,beside]
  intro same
  obtain ⟨names,rfl⟩ := List.cons.inj same
  rw [own] at short
  rcases walk_step outer last with stays | upwards | below
  · have size := congrArg List.length (short.trans stays)
    simp at size
  · have size := congrArg List.length (short.trans upwards)
    simp at size
    omega
  · have size := congrArg List.length names
    rw [← (List.cons.inj (short.trans below)).1] at size
    simp at size

end

end Path

end StyleHoist
