import StyleHoist.Proofs.Conversion.Planning
import StyleHoist.Proofs.Procedure.Locking

/-! A plan that is made while the lock is held is the plan that would have been
made before, as long as the file of the lock is not selected. -/
namespace StyleHoist

open Procedure Attempt

variable {world locked later : World} {lock path : Path} {project : Project}

theorem Procedure.run_readText (path : Path) (world : World) :
    (readText path).run world = ((world.disk.read world.base path).bind decodeText?,world) := by
  have asked : (request (.read path)).run world = (world.disk.read world.base path,world) := rfl
  refine (Procedure.run_bind _ _ _).trans ?_
  rw [asked]
  cases world.disk.read world.base path <;> rfl

theorem Sources.run_readStylesheet (path : Path) (world : World) : (readStylesheet path).toProcedure.run world =
    (match (world.disk.read world.base path).bind decodeText? with
      | .ok text => .ok text
      | .error .notFound => .ok []
      | .error cause => .error (.file "read stylesheet" path cause),world) := by
  have asked := Attempt.run_lift (readText path) world
  rw [Procedure.run_readText] at asked
  refine (Attempt.run_bind_ok asked _).trans ?_
  cases (world.disk.read world.base path).bind decodeText? with
  | ok text => rfl
  | error cause => cases cause <;> rfl

theorem Discovery.run_target (path : Path) (world : World) : (target path).toProcedure.run world =
    (match world.disk.kind world.base path with
      | .error cause => .error (.misuse ("cannot read '" ++ path.display ++ "': " ++ cause.message))
      | .ok .file => .ok (.document path)
      | .ok .folder =>
        match world.disk.below world.base path with
        | .error cause => .error (.file "read directory" path cause)
        | .ok files => .ok (.folder files),world) := by
  have asked := Attempt.run_asked (request (.kind path))
    (fun cause => .misuse ("cannot read '" ++ path.display ++ "': " ++ cause.message)) world
  rw [show (request (.kind path)).run world = (world.disk.kind world.base path,world) from rfl] at asked
  cases told : world.disk.kind world.base path with
  | error cause =>
    rw [told] at asked
    exact Attempt.run_bind_error asked _
  | ok kind =>
    rw [told] at asked
    refine (Attempt.run_bind_ok asked _).trans ?_
    cases kind with
    | file => rfl
    | folder =>
      have listed := Attempt.run_asked (request (.below path)) (.file "read directory" path) world
      rw [show (request (.below path)).run world = (world.disk.below world.base path,world) from rfl] at listed
      cases found : world.disk.below world.base path with
      | error cause =>
        rw [found] at listed
        exact Attempt.run_bind_error listed _
      | ok files =>
        rw [found] at listed
        exact Attempt.run_bind_ok listed _

/-- A document as it can be read now. -/
def Sources.source (project : Project) (world : World) (path : Path) : Source :=
  ⟨path,project.relative path,(world.disk.read world.base path).bind decodeText?⟩

theorem Sources.run_readDocuments (project : Project) (list : List Path) (world : World) :
    (Attempt.toProcedure (list.mapM fun path => ExceptT.lift (readDocument project path))).run world =
      (.ok (list.map (source project world)),world) := by
  induction list with
  | nil => rfl
  | cons path rest ih =>
    have read : (readDocument project path).run world = (source project world path,world) := by
      refine (Procedure.run_bind _ _ _).trans ?_
      rw [Procedure.run_readText]
      rfl
    have first := Attempt.run_lift (readDocument project path) world
    rw [read] at first
    rw [List.mapM_cons,Attempt.run_bind_ok first,Attempt.run_bind_ok ih]
    rfl

section

variable (ground : world.Grounded) (holds : world.Holds lock locked)
  (apart : path.place world.base ≠ lock.place world.base)

include ground holds apart

theorem read_of_holds (open' : locked.disk.read locked.base path ≠ .error .notDirectory) :
    world.disk.read world.base path = locked.disk.read locked.base path := by
  have next := holds.ground
  rw [World.Grounded,holds.base] at next
  rw [holds.base] at open' ⊢
  exact holds.beside.read_eq ground next apart open'

theorem kind_of_holds (open' : locked.disk.kind locked.base path ≠ .error .notDirectory) :
    world.disk.kind world.base path = locked.disk.kind locked.base path := by
  have next := holds.ground
  rw [World.Grounded,holds.base] at next
  rw [holds.base] at open' ⊢
  exact holds.beside.kind_eq ground next apart open'

theorem readStylesheet_of_holds {css : Text}
    (done : (Sources.readStylesheet path).toProcedure.run locked = (.ok css,later)) :
    (Sources.readStylesheet path).toProcedure.run world = (.ok css,world) ∧ later = locked := by
  rw [Sources.run_readStylesheet] at done ⊢
  have open' : locked.disk.read locked.base path ≠ .error .notDirectory := by
    intro closed
    rw [closed] at done
    cases done
  rw [read_of_holds ground holds apart open']
  obtain ⟨told,rfl⟩ := Prod.mk.inj done
  exact ⟨Prod.ext told rfl,rfl⟩

theorem target_of_holds {selector : Glob.Selector} {target : Discovery.Target}
    (free : ∀ names, Disk.namesBelow? (path.place world.base) (lock.place world.base) = some names →
      selector.matches (project.relative (path.join ⟨Path.ofSegments names⟩)).toList = false)
    (done : (Discovery.target path).toProcedure.run locked = (.ok target,later)) :
    later = locked ∧ ∃ other, (Discovery.target path).toProcedure.run world = (.ok other,world) ∧
      Discovery.chosen project selector other = Discovery.chosen project selector target := by
  rw [Discovery.run_target] at done ⊢
  obtain ⟨told,rfl⟩ := Prod.mk.inj done
  refine ⟨rfl,?_⟩
  have open' : locked.disk.kind locked.base path ≠ .error .notDirectory := by
    intro closed
    rw [closed] at told
    cases told
  rw [kind_of_holds ground holds apart open']
  split at told
  next => cases told
  next =>
    cases told
    exact ⟨_,rfl,rfl⟩
  next =>
    split at told
    next => cases told
    next files listed =>
      cases told
      have next := holds.ground
      rw [World.Grounded,holds.base] at next
      rw [holds.base] at listed
      obtain ⟨others,there,rfl⟩ := holds.beside.below_eq_ok ground next apart listed
      refine ⟨.folder others,by rw [there],?_⟩
      rw [Discovery.chosen,Discovery.chosen,List.filter_append]
      cases names : Disk.namesBelow? (path.place world.base) (lock.place world.base) with
      | none => simp
      | some names' => simp [free names' names]

end

/-- The paths that a run is to work on. -/
def Discovery.named (project : Project) (paths : List Path) : List Path :=
  if paths = [] then [project.root] else paths.map project.resolve

/-- A file is neither named nor selected by the globs below a path that is. -/
def Discovery.Unselected (project : Project) (paths : List Path) (base : Place) (file : Path) : Prop :=
  ∀ selector, project.config.selector = .ok selector → ∀ path ∈ named project paths,
    path.place base ≠ file.place base ∧
      ∀ names, Disk.namesBelow? (path.place base) (file.place base) = some names →
        selector.matches (project.relative (path.join ⟨Path.ofSegments names⟩)).toList = false

section

variable (ground : world.Grounded) (holds : world.Holds lock locked)

include ground holds

theorem targets_of_holds {selector : Glob.Selector} {list : List Path} {targets : List Discovery.Target}
    (free : ∀ path ∈ list, path.place world.base ≠ lock.place world.base ∧
      ∀ names, Disk.namesBelow? (path.place world.base) (lock.place world.base) = some names →
        selector.matches (project.relative (path.join ⟨Path.ofSegments names⟩)).toList = false)
    (done : (list.mapM Discovery.target : Attempt _).toProcedure.run locked = (.ok targets,later)) :
    later = locked ∧ ∃ others, (list.mapM Discovery.target : Attempt _).toProcedure.run world = (.ok others,world) ∧
      others.flatMap (Discovery.chosen project selector) = targets.flatMap (Discovery.chosen project selector) := by
  induction list generalizing targets later with
  | nil =>
    cases done
    exact ⟨rfl,[],rfl,rfl⟩
  | cons path rest ih =>
    obtain ⟨⟨apart,alone⟩,free⟩ := List.forall_mem_cons.mp free
    rw [List.mapM_cons] at done ⊢
    obtain ⟨target,middle,first,rest'⟩ := run_bind_eq_ok.mp done
    obtain ⟨rfl,other,first',same⟩ := target_of_holds ground holds apart alone first
    obtain ⟨tail,last,second,ended⟩ := run_bind_eq_ok.mp rest'
    obtain ⟨rfl,others,second',same'⟩ := ih free second
    cases ended
    exact ⟨rfl,other :: others,run_bind_eq_ok.mpr ⟨_,_,first',run_bind_eq_ok.mpr ⟨_,_,second',rfl⟩⟩,
      by rw [List.flatMap_cons,List.flatMap_cons,same,same']⟩

theorem documents_of_holds {paths selected : List Path}
    (unselected : Discovery.Unselected project paths world.base lock)
    (done : (Discovery.documents project paths).toProcedure.run locked = (.ok selected,later)) :
    later = locked ∧ (Discovery.documents project paths).toProcedure.run world = (.ok selected,world) := by
  rw [Discovery.documents] at done ⊢
  obtain ⟨selector,middle,chosen,found⟩ := run_bind_eq_ok.mp done
  obtain ⟨picked,rfl⟩ := Prod.mk.inj chosen
  obtain ⟨targets,last,found,ended⟩ := run_bind_eq_ok.mp found
  obtain ⟨rfl,others,found',same⟩ := targets_of_holds ground holds (unselected selector picked) found
  cases ended
  refine ⟨rfl,run_bind_eq_ok.mpr ⟨selector,world,Prod.ext picked rfl,run_bind_eq_ok.mpr ⟨others,world,found',?_⟩⟩⟩
  rw [same]
  rfl

/-- What is read is the same as long as it can be read and is not the file of the lock. -/
theorem gather_of_holds {paths : List Path} {sources : Sources}
    (unselected : Discovery.Unselected project paths world.base lock)
    (sheet : project.stylesheetPath.place world.base ≠ lock.place world.base)
    (apart : ∀ selected later, (Discovery.documents project paths).toProcedure.run world = (.ok selected,later) →
      ∀ path ∈ selected, path.same project.stylesheetPath = false → path.place world.base ≠ lock.place world.base)
    (readable : ∀ source ∈ sources.documents, ∃ text, source.content = .ok text)
    (done : (Sources.gather project paths).toProcedure.run locked = (.ok sources,later)) :
    later = locked ∧ (Sources.gather project paths).toProcedure.run world = (.ok sources,world) := by
  rw [Sources.gather] at done ⊢
  obtain ⟨css,first,read,rest⟩ := run_bind_eq_ok.mp done
  obtain ⟨read',rfl⟩ := readStylesheet_of_holds ground holds sheet read
  obtain ⟨registry,second,seeded,rest'⟩ := run_bind_eq_ok.mp rest
  obtain ⟨known,rfl⟩ := Prod.mk.inj seeded
  obtain ⟨selected,third,found,last⟩ := run_bind_eq_ok.mp rest'
  obtain ⟨rfl,found'⟩ := documents_of_holds ground holds unselected found
  obtain ⟨documents,fourth,texts,ended⟩ := run_bind_eq_ok.mp last
  rw [Sources.run_readDocuments] at texts
  obtain ⟨listed,rfl⟩ := Prod.mk.inj texts
  cases ended
  -- a document reads the same, as the lock is none of those that are selected
  have same : ∀ path ∈ selected.filter fun path => !path.same project.stylesheetPath,
      Sources.source project later path = Sources.source project world path := by
    intro path member
    obtain ⟨among,other⟩ := List.mem_filter.mp member
    obtain ⟨text,content⟩ := readable (Sources.source project later path)
      (Except.ok.inj listed ▸ List.mem_map_of_mem member)
    have away := apart selected world found' path among (by simpa using other)
    rw [Sources.source,Sources.source,read_of_holds ground holds away fun closed => ?_]
    rw [Sources.source,closed] at content
    cases content
  refine ⟨rfl,run_bind_eq_ok.mpr ⟨css,world,read',run_bind_eq_ok.mpr ⟨registry,world,Prod.ext known rfl,
    run_bind_eq_ok.mpr ⟨selected,world,found',run_bind_eq_ok.mpr ⟨documents,world,?_,rfl⟩⟩⟩⟩⟩
  rw [Sources.run_readDocuments,← List.map_congr_left same,Except.ok.inj listed]

theorem plan_of_holds {paths : List Path} {conversion : Conversion}
    (unselected : Discovery.Unselected project paths world.base lock)
    (sheet : project.stylesheetPath.place world.base ≠ lock.place world.base)
    (apart : ∀ selected later, (Discovery.documents project paths).toProcedure.run world = (.ok selected,later) →
      ∀ path ∈ selected, path.same project.stylesheetPath = false → path.place world.base ≠ lock.place world.base)
    (done : (Conversion.plan project paths).toProcedure.run locked = (.ok conversion,later)) :
    later = locked ∧ (Conversion.plan project paths).toProcedure.run world = (.ok conversion,world) := by
  rw [Conversion.plan] at done ⊢
  obtain ⟨sources,middle,gathered,ended⟩ := run_bind_eq_ok.mp done
  obtain ⟨made,rfl⟩ := Prod.mk.inj ended
  have readable := (Conversion.documents_of_ofSources made).2
  obtain ⟨rfl,gathered'⟩ := gather_of_holds ground holds unselected sheet apart readable gathered
  exact ⟨rfl,run_bind_eq_ok.mpr ⟨sources,world,gathered',Prod.ext made rfl⟩⟩

end

theorem Discovery.documents_still {paths selected : List Path}
    (done : (documents project paths).toProcedure.run world = (.ok selected,later)) : later = world := by
  have targets : ∀ {list : List Path} {found : List Target} {before after : World},
      (list.mapM target : Attempt _).toProcedure.run before = (.ok found,after) → after = before := by
    intro list
    induction list with
    | nil =>
      intro found before after done
      cases done
      rfl
    | cons path rest ih =>
      intro found before after done
      rw [List.mapM_cons] at done
      obtain ⟨head,middle,first,onwards⟩ := run_bind_eq_ok.mp done
      obtain ⟨tail,last,second,ended⟩ := run_bind_eq_ok.mp onwards
      rw [run_target] at first
      cases ended
      exact (ih second).trans (Prod.mk.inj first).2.symm
  rw [documents] at done
  obtain ⟨selector,first,chosen,onwards⟩ := run_bind_eq_ok.mp done
  obtain ⟨-,rfl⟩ := Prod.mk.inj chosen
  obtain ⟨found,last,second,ended⟩ := run_bind_eq_ok.mp onwards
  cases ended
  exact targets second

theorem Sources.gather_eq_ok {paths : List Path} {sources : Sources}
    (done : (gather project paths).toProcedure.run world = (.ok sources,later)) :
    later = world ∧
      (readStylesheet project.stylesheetPath).toProcedure.run world = (.ok sources.stylesheet,world) ∧
      Stylesheet.seed project.config.classPrefix sources.stylesheet = .ok sources.registry ∧
      ∃ selected, (Discovery.documents project paths).toProcedure.run world = (.ok selected,world) ∧
        sources.documents =
          (selected.filter fun path => !path.same project.stylesheetPath).map (source project world) := by
  rw [gather] at done
  obtain ⟨css,first,read,onwards⟩ := run_bind_eq_ok.mp done
  obtain rfl : first = world := by
    rw [run_readStylesheet] at read
    exact (Prod.mk.inj read).2.symm
  obtain ⟨registry,second,seeded,onwards'⟩ := run_bind_eq_ok.mp onwards
  obtain ⟨known,rfl⟩ := Prod.mk.inj seeded
  obtain ⟨selected,third,found,last⟩ := run_bind_eq_ok.mp onwards'
  obtain rfl := Discovery.documents_still found
  obtain ⟨documents,fourth,contents,ended⟩ := run_bind_eq_ok.mp last
  rw [run_readDocuments] at contents
  obtain ⟨listed,rfl⟩ := Prod.mk.inj contents
  cases ended
  refine ⟨rfl,read,?_,selected,found,(Except.ok.inj listed).symm⟩
  rw [seed] at known
  split at known
  next seeded =>
    cases known
    exact seeded
  next => cases known

theorem Conversion.documents_of_plan {paths : List Path} {conversion : Conversion}
    (done : (plan project paths).toProcedure.run world = (.ok conversion,later)) :
    conversion.stylesheetPath = project.stylesheetPath ∧
      (∃ selected, (Discovery.documents project paths).toProcedure.run world = (.ok selected,later) ∧
        conversion.documents.map (·.path) = selected.filter fun path => !path.same project.stylesheetPath) ∧
      ∀ document ∈ conversion.documents, ∃ bytes, world.disk.read world.base document.path = .ok bytes := by
  rw [plan] at done
  obtain ⟨sources,middle,gathered,ended⟩ := run_bind_eq_ok.mp done
  obtain ⟨made,rfl⟩ := Prod.mk.inj ended
  obtain ⟨same,readable⟩ := documents_of_ofSources made
  obtain ⟨texts,outcomes,grown,-,-,assembled⟩ := ofSources_eq_ok.mp made
  obtain ⟨rfl,-,-,selected,found,documents⟩ := Sources.gather_eq_ok gathered
  have paths : sources.documents.map (·.path) = selected.filter fun path => !path.same project.stylesheetPath := by
    rw [documents,List.map_map]
    exact List.map_id'' (fun _ => rfl) _
  refine ⟨congrArg Conversion.stylesheetPath assembled,⟨selected,found,same.trans paths⟩,fun document member => ?_⟩
  have among : document.path ∈ sources.documents.map (·.path) := same ▸ List.mem_map_of_mem member
  obtain ⟨source,inside,path⟩ := List.mem_map.mp among
  obtain ⟨text,content⟩ := readable source inside
  rw [documents] at inside
  obtain ⟨other,-,rfl⟩ := List.mem_map.mp inside
  rw [← path]
  cases told : middle.disk.read middle.base other with
  | ok bytes => exact ⟨bytes,told⟩
  | error cause =>
    rw [Sources.source,told] at content
    cases content

end StyleHoist
