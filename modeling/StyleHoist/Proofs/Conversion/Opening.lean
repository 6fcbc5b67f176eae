import StyleHoist.Proofs.Config.Default
import StyleHoist.Proofs.Conversion.Replanning

/-! How the project of a run is opened: the settings of its folder are read, and
checked once the arguments have had their say. -/
namespace StyleHoist

open Procedure Attempt

namespace Project

variable {world : World} {folder root : Path} {project : Project} {arguments : ProjectArguments}

theorem run_load (path : Path) (world : World) : (load path).toProcedure.run world =
    (match (world.disk.read world.base path).bind decodeText? with
      | .ok text => Config.ofText text
      | .error cause => .error (.misuse ("failed to read config file '" ++ path.display ++ "': " ++ cause.message)),
      world) := by
  have asked := run_asked (readText path)
    (fun cause => .misuse ("failed to read config file '" ++ path.display ++ "': " ++ cause.message)) world
  rw [run_readText] at asked
  cases found : (world.disk.read world.base path).bind decodeText? with
  | error cause =>
    rw [found] at asked
    exact run_bind_error asked _
  | ok text =>
    rw [found] at asked
    exact run_bind_ok asked _

theorem run_exists (path : Path) (world : World) :
    (exists? path).run world = ((world.disk.kind world.base path).isOk,world) := by
  have asked : (request (.kind path)).run world = (world.disk.kind world.base path,world) := rfl
  refine (Procedure.run_bind _ _ _).trans ?_
  rw [asked]
  cases world.disk.kind world.base path <;> rfl

theorem run_isFolder {path : Path} (folder : world.disk.kind world.base path = .ok .folder) :
    (isFolder? path).run world = (true,world) := by
  have asked : (request (.kind path)).run world = (world.disk.kind world.base path,world) := rfl
  refine (Procedure.run_bind _ _ _).trans ?_
  rw [asked,folder]
  rfl

theorem run_openAt {config : Config} (real : world.disk.realPath world.base folder = .ok root)
    (there : world.disk.kind world.base root = .ok .folder)
    (settled : if (world.disk.kind world.base (root.join configName)).isOk then
      (load (root.join configName)).toProcedure.run world = (.ok config,world) else config = Config.default) :
    (openAt folder).toProcedure.run world = (.ok ⟨root,root.join configName,config⟩,world) := by
  have asked := run_asked (request (.realPath folder))
    (fun cause => .misuse ("project root '" ++ folder.display ++ "' is not accessible: " ++ cause.message)) world
  rw [show (request (.realPath folder)).run world = (world.disk.realPath world.base folder,world) from rfl,real] at asked
  have opened := run_lift (isFolder? root) world
  rw [run_isFolder there] at opened
  have found := run_lift (exists? (root.join configName)) world
  rw [run_exists] at found
  refine (run_bind_ok asked _).trans ((run_bind_ok opened _).trans ((run_bind_ok found _).trans ?_))
  cases known : (world.disk.kind world.base (root.join configName)).isOk with
  | true =>
    rw [known,if_pos rfl] at settled
    exact run_bind_ok settled _
  | false =>
    rw [known,if_neg Bool.false_ne_true] at settled
    rw [settled]
    rfl

/-- Without a folder or a file of its own among the arguments, a run opens the working directory. -/
theorem run_ofArguments (here : arguments.root = none) (unnamed : arguments.config = none)
    (stands : Disk.pathOf world.base = folder) (opened : (openAt folder).toProcedure.run world = (.ok project,world))
    (valid : { project.config with
      stylesheet := (arguments.stylesheet.map Path.text).getD project.config.stylesheet
      classPrefix := (arguments.classPrefix.getD project.config.classPrefix) : Config }.validate = .ok ()) :
    (ofArguments arguments).toProcedure.run world = (.ok { project with
      config := { project.config with
        stylesheet := (arguments.stylesheet.map Path.text).getD project.config.stylesheet
        classPrefix := (arguments.classPrefix.getD project.config.classPrefix) } },world) := by
  have asked : workingFolder.toProcedure.run world = (.ok folder,world) := by
    rw [← stands]
    rfl
  rw [ofArguments,here,unnamed]
  refine (run_bind_ok asked _).trans ((run_bind_ok opened _).trans ?_)
  refine (run_bind_ok rfl _).trans ?_
  dsimp only
  rw [valid]
  rfl

theorem settings_root : (⟨['/']⟩ : Path).join configName = ⟨"/destyle.yaml".toList⟩ := by cbv

theorem run_openAt_root {config : Config}
    (settled : if (world.disk.kind world.base ⟨"/destyle.yaml".toList⟩).isOk then
      (load ⟨"/destyle.yaml".toList⟩).toProcedure.run world = (.ok config,world) else config = Config.default) :
    (openAt ⟨['/']⟩).toProcedure.run world = (.ok ⟨⟨['/']⟩,⟨"/destyle.yaml".toList⟩,config⟩,world) := by
  have real : world.disk.realPath world.base ⟨['/']⟩ = .ok ⟨['/']⟩ := by cbv
  rw [← settings_root] at settled ⊢
  exact run_openAt real (Disk.kind_root _ _) settled

theorem run_openAt_plain (missing : (world.disk.kind world.base ⟨"/destyle.yaml".toList⟩).isOk = false) :
    (openAt ⟨['/']⟩).toProcedure.run world = (.ok ⟨⟨['/']⟩,⟨"/destyle.yaml".toList⟩,Config.default⟩,world) :=
  run_openAt_root (by rw [missing]; rfl)

end Project

end StyleHoist
