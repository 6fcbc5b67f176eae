import StyleHoist.Proofs.Conversion.Replanning
import StyleHoist.Proofs.Discovery.Order
import StyleHoist.Proofs.Disk.Descent
import StyleHoist.Proofs.Result

/-! The documents that paths name: the files among the paths themselves, and the files below the
folders among them that the globs select. They come strictly ascending, so that neither the order
of the paths nor the order of the names in a folder counts. -/
namespace StyleHoist

open Procedure Attempt

/-- One of some globs stands for a path as it is shown. -/
def Glob.Any (globs : List Text) (shown : Text) : Prop :=
  ∃ glob ∈ globs, ∃ pattern, parse (String.ofList glob) = .ok pattern ∧ covers pattern (shown.flatMap encode) = true

/-- A path is included and not excluded. -/
def Project.Selects (project : Project) (path : Path) : Prop :=
  Glob.Any project.config.includes (project.relative path).toList ∧
    ¬Glob.Any project.config.excludes (project.relative path).toList

namespace Discovery

variable {project : Project} {world later : World} {argument file : Path} {paths others selected : List Path}
  {selector : Glob.Selector} {order : Place → List Text}

/-- What is wanted of a path argument: itself unless it is a folder, or else selected files below it. -/
inductive Wanted (project : Project) (world : World) (argument : Path) : Path → Prop
  | document (kind : world.disk.kind world.base argument = .ok .file) : Wanted project world argument argument
  | below {spot : Disk.Spot} {names : List Text} (kind : world.disk.kind world.base argument = .ok .folder)
      (leads : world.disk.spot world.base .follow argument = .ok spot) (reaches : world.disk.Reaches spot.place names)
      (selects : project.Selects (argument.under names)) : Wanted project world argument (argument.under names)

/-- The documents of a path argument as a descent meets them, with the names in each folder in a given order. -/
def met (project : Project) (selector : Glob.Selector) (world : World) (order : Place → List Text)
    (argument : Path) : List Path :=
  match world.disk.kind world.base argument,world.disk.spot world.base .follow argument with
  | .ok .file,_ => [argument]
  | .ok .folder,.ok spot =>
    world.disk.descend order (fun path => selector.matches (project.relative path).toList) spot.place argument
  | _,_ => []

theorem mapM_parse_of_compiled {globs : List Text} {patterns : List Glob.Pattern} {refuse : Text → Glob.Fault → Failure}
    (compiled : (globs.mapM fun glob =>
      match Glob.parse (String.ofList glob) with
      | .ok pattern => .ok pattern
      | .error fault => .error (refuse glob fault)) = Except.ok patterns) :
    globs.mapM (fun glob => Glob.parse (String.ofList glob)) = .ok patterns := by
  refine mapM_eq_ok_iff.mpr ((mapM_eq_ok_iff.mp compiled).imp fun glob pattern read => ?_)
  split at read
  next found => rw [found,Except.ok.inj read]
  next => cases read

theorem mapM_parse_of_selector (chosen : project.config.selector = .ok selector) :
    project.config.includes.mapM (fun glob => Glob.parse (String.ofList glob)) = .ok selector.included ∧
      project.config.excludes.mapM (fun glob => Glob.parse (String.ofList glob)) = .ok selector.excluded := by
  simp only [Config.selector,bind_eq_ok_iff] at chosen
  obtain ⟨included,⟨_,read,sound⟩,excluded,⟨_,read',sound'⟩,same⟩ := chosen
  cases same
  split at sound
  next =>
    cases sound
    split at sound'
    next =>
      cases sound'
      exact ⟨mapM_parse_of_compiled read,mapM_parse_of_compiled read'⟩
    next => cases sound'
  next => cases sound

theorem matches_iff (chosen : project.config.selector = .ok selector) (path : Path) :
    selector.matches (project.relative path).toList = true ↔ project.Selects path := by
  obtain ⟨included,excluded⟩ := mapM_parse_of_selector chosen
  rw [Glob.Selector.matches,Project.Selects,Glob.Any,Glob.Any,← exists_mem_of_mapM included,
    ← exists_mem_of_mapM excluded]
  simp

/-- What a path argument comes to in a world. -/
def told (world : World) (argument : Path) : Except Failure Target := ((target argument).toProcedure.run world).1

theorem run_mapM_target (arguments : List Path) (world : World) :
    (Attempt.toProcedure (arguments.mapM target)).run world = (arguments.mapM (told world),world) := by
  induction arguments with
  | nil => rfl
  | cons argument rest ih =>
    have first : (target argument).toProcedure.run world = (told world argument,world) := by
      rw [told,run_target]
    rw [List.mapM_cons,List.mapM_cons]
    cases one : told world argument with
    | error failure => exact run_bind_error (one ▸ first) _
    | ok found =>
      rw [run_bind_ok (one ▸ first)]
      cases all : rest.mapM (told world) with
      | error failure => exact run_bind_error (all ▸ ih) _
      | ok others => exact run_bind_ok (all ▸ ih) _

theorem run_documents_eq_ok : (documents project paths).toProcedure.run world = (.ok selected,later) ↔
    later = world ∧ ∃ selector targets, project.config.selector = .ok selector ∧
      (named project paths).mapM (told world) = .ok targets ∧
        arrange (targets.flatMap (chosen project selector)) = selected := by
  rw [documents,run_bind_eq_ok]
  constructor
  · rintro ⟨selector,middle,picked,onwards⟩
    obtain ⟨chosen,rfl⟩ := Prod.mk.inj picked
    obtain ⟨targets,last,asked,ended⟩ := run_bind_eq_ok.mp onwards
    obtain ⟨found,rfl⟩ := Prod.mk.inj ((run_mapM_target _ _).symm.trans asked)
    cases ended
    exact ⟨rfl,selector,targets,chosen,found,rfl⟩
  · rintro ⟨rfl,selector,targets,picked,found,rfl⟩
    refine ⟨selector,later,Prod.ext picked rfl,run_bind_eq_ok.mpr ⟨targets,later,?_,rfl⟩⟩
    exact (run_mapM_target _ _).trans (Prod.ext found rfl)

theorem wanted_iff_of_file (kind : world.disk.kind world.base argument = .ok .file) :
    Wanted project world argument file ↔ file = argument := by
  constructor
  · intro wanted
    cases wanted with
    | document => rfl
    | below kind' => cases kind.symm.trans kind'
  · rintro rfl
    exact .document kind

theorem wanted_iff_of_folder {spot : Disk.Spot} (kind : world.disk.kind world.base argument = .ok .folder)
    (leads : world.disk.spot world.base .follow argument = .ok spot) : Wanted project world argument file ↔
      ∃ names, world.disk.Reaches spot.place names ∧ argument.under names = file ∧ project.Selects file := by
  constructor
  · intro wanted
    cases wanted with
    | document kind' => cases kind.symm.trans kind'
    | below _ leads' reaches selects =>
      cases leads.symm.trans leads'
      exact ⟨_,reaches,rfl,selects⟩
  · rintro ⟨names,reaches,rfl,selects⟩
    exact .below kind leads reaches selects

theorem mem_chosen {target : Target} (proper : world.disk.Proper) (picked : project.config.selector = .ok selector)
    (done : told world argument = .ok target) :
    file ∈ chosen project selector target ↔ Wanted project world argument file := by
  rw [told,run_target] at done
  dsimp only at done
  split at done
  next => cases done
  next kind =>
    cases done
    rw [chosen,List.mem_singleton,wanted_iff_of_file kind]
  next kind =>
    split at done
    next => cases done
    next files listed =>
      cases done
      obtain ⟨spot,leads,-,-⟩ := Disk.below_eq_ok_iff.mp listed
      rw [chosen,List.mem_filter,Disk.mem_below proper leads listed,matches_iff picked,wanted_iff_of_folder kind leads]
      simp only [exists_and_right,← and_assoc]

theorem mem_met (lists : world.disk.Lists order) (picked : project.config.selector = .ok selector) :
    file ∈ met project selector world order argument ↔ Wanted project world argument file := by
  rw [met]
  split
  next kind => rw [List.mem_singleton,wanted_iff_of_file kind]
  next spot kind leads =>
    rw [Disk.mem_descend lists,wanted_iff_of_folder kind leads]
    simp only [matches_iff picked]
  next one two =>
    refine iff_of_false List.not_mem_nil fun wanted => ?_
    cases wanted with
    | document kind => exact one kind
    | below kind leads => exact two _ kind leads

theorem mem_flatMap_chosen {arguments : List Path} {targets : List Target} (proper : world.disk.Proper)
    (picked : project.config.selector = .ok selector) (found : arguments.mapM (told world) = .ok targets) :
    file ∈ targets.flatMap (chosen project selector) ↔ ∃ argument ∈ arguments, Wanted project world argument file := by
  rw [List.mem_flatMap,exists_mem_of_mapM found fun target => file ∈ chosen project selector target]
  constructor
  · rintro ⟨argument,among,target,done,member⟩
    exact ⟨argument,among,(mem_chosen proper picked done).mp member⟩
  · rintro ⟨argument,among,wanted⟩
    obtain ⟨target,done⟩ := exists_mapM_eq_ok_iff.mp ⟨targets,found⟩ argument among
    exact ⟨argument,among,target,done,(mem_chosen proper picked done).mpr wanted⟩

theorem mem_named_congr (same : ∀ path, path ∈ others ↔ path ∈ paths) (argument : Path) :
    argument ∈ named project others ↔ argument ∈ named project paths := by
  have empty : others = [] ↔ paths = [] := by
    simp only [List.eq_nil_iff_forall_not_mem,same]
  rw [named,named]
  simp only [empty]
  split
  next => rfl
  next => simp only [List.mem_map,same]

theorem samePaths_of_mem {one other : List Path} (same : ∀ file, file ∈ one ↔ file ∈ other) :
    SamePaths (arrange one) (arrange other) :=
  samePaths_arrange fun component => by simp only [List.mem_map,same]

/-- Discovery selects just what is wanted, strictly ascending. -/
theorem documents_exact (proper : world.disk.Proper)
    (done : (documents project paths).toProcedure.run world = (.ok selected,later)) :
    later = world ∧ selected.Pairwise Path.Before ∧
      (∀ path, (∃ found ∈ selected, found.same path = true) ↔
        ∃ argument ∈ named project paths, ∃ file, Wanted project world argument file ∧ file.same path = true) ∧
      ∀ others, (∀ path, path ∈ others ↔ path ∈ paths) →
        (∃ again, (documents project others).toProcedure.run world = (.ok again,world) ∧ SamePaths selected again) ∧
          ∃ selector, project.config.selector = .ok selector ∧ ∀ order, world.disk.Lists order →
            SamePaths selected (arrange ((named project others).flatMap (met project selector world order))) := by
  obtain ⟨rfl,selector,targets,picked,found,rfl⟩ := run_documents_eq_ok.mp done
  have wanted : ∀ file, file ∈ targets.flatMap (chosen project selector) ↔
      ∃ argument ∈ named project paths, Wanted project later argument file :=
    fun _ => mem_flatMap_chosen proper picked found
  refine ⟨rfl,pairwise_arrange _,fun path => ?_,fun others same => ⟨?_,selector,picked,fun order lists => ?_⟩⟩
  · rw [exists_mem_arrange]
    simp only [wanted]
    constructor
    · rintro ⟨file,⟨argument,among,wanted⟩,written⟩
      exact ⟨argument,among,file,wanted,written⟩
    · rintro ⟨argument,among,file,wanted,written⟩
      exact ⟨file,⟨argument,among,wanted⟩,written⟩
  -- the other list names the same arguments, of which each could be told
  · obtain ⟨targets',found'⟩ : ∃ targets', (named project others).mapM (told later) = .ok targets' := by
      rw [exists_mapM_eq_ok_iff]
      intro argument among
      exact exists_mapM_eq_ok_iff.mp ⟨targets,found⟩ argument ((mem_named_congr same argument).mp among)
    refine ⟨_,run_documents_eq_ok.mpr ⟨rfl,selector,targets',picked,found',rfl⟩,samePaths_of_mem fun file => ?_⟩
    rw [wanted,mem_flatMap_chosen proper picked found']
    simp only [mem_named_congr same]
  · refine samePaths_of_mem fun file => ?_
    rw [wanted,List.mem_flatMap]
    simp only [mem_met lists picked,mem_named_congr same]

/-- A file, and a folder with a file and a link to the folder around it. -/
def houseWorld : World :=
  { (default : World) with
    disk := ⟨[([['f']],.file .empty),([['e']],.folder),([['x'],['e']],.file .empty),([['l'],['e']],.link ['/'])]⟩
    base := [] }

theorem mem_house {place : Place} {entry : Entry} (held : (place,entry) ∈ houseWorld.disk.entries) :
    (place,entry) = ([['f']],.file .empty) ∨ (place,entry) = ([['e']],.folder) ∨
      (place,entry) = ([['x'],['e']],.file .empty) ∨ (place,entry) = ([['l'],['e']],.link ['/']) := by
  simpa only [houseWorld,List.mem_cons,List.not_mem_nil,or_false] using held

theorem proper_house : houseWorld.disk.Proper where
  held := by
    intro place entry held
    rcases mem_house held with same | same | same | same <;>
    · cases same
      rfl
  around := by
    intro name place entry found
    rcases mem_house (Disk.mem_of_find (List.cons_ne_nil name place) found) with same | same | same | same <;>
    · cases same
      rfl
  names := by
    intro place entry held
    rcases mem_house held with same | same | same | same <;>
    · cases same
      simp [Path.Names]

/-- All files are included. -/
def houseProject : Project := ⟨⟨['/']⟩,⟨[]⟩,{ Config.default with includes := [['*']], excludes := [] }⟩

/-- The folder and the file are named, and the folder again. -/
theorem documents_exact_house : ∃ selected,
    (documents houseProject [⟨['f']⟩,⟨['e']⟩,⟨['e']⟩]).toProcedure.run houseWorld = (.ok selected,houseWorld) ∧
      selected.map Path.display = ["/e/x","/f"] ∧ selected.Pairwise Path.Before ∧
      ∃ again, (documents houseProject [⟨['e']⟩,⟨['f']⟩]).toProcedure.run houseWorld = (.ok again,houseWorld) ∧
        SamePaths selected again := by
  have done : (documents houseProject [⟨['f']⟩,⟨['e']⟩,⟨['e']⟩]).toProcedure.run houseWorld =
      (.ok [⟨"/e/x".toList⟩,⟨"/f".toList⟩],houseWorld) := by cbv
  obtain ⟨-,strict,-,others⟩ := documents_exact proper_house done
  exact ⟨_,done,rfl,strict,(others [⟨['e']⟩,⟨['f']⟩] (by simp [or_comm])).1⟩

end Discovery

end StyleHoist
