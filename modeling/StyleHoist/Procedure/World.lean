import StyleHoist.Procedure.Basic

/-! Procedures carried out on files in memory. -/
namespace StyleHoist

structure World where
  disk : Disk
  /-- The working directory. -/
  base : Place
  clock : Timestamp
  /-- What has been printed, and the warnings. -/
  output : String
  warnings : String
deriving Inhabited

namespace World

/-- Changes the files unless the operation fails. -/
def change (world : World) (result : Except FileError Disk) : Except FileError Unit × World :=
  match result with
  | .ok disk => (.ok (),{ world with disk := disk })
  | .error cause => (.error cause,world)

/-- Answers a request. -/
def perform (world : World) : (request : Request) → request.Reply × World
  | .workingFolder => (.ok (Disk.pathOf world.base),world)
  | .clock => (world.clock,world)
  | .kind path => (world.disk.kind world.base path,world)
  | .read path => (world.disk.read world.base path,world)
  | .realPath path => (world.disk.realPath world.base path,world)
  | .below path => (world.disk.below world.base path,world)
  | .create path => world.change (world.disk.create world.base path)
  | .createNew path => world.change (world.disk.createNew world.base path)
  | .openEnd path => world.change (world.disk.openEnd world.base path)
  | .write path bytes => world.change (world.disk.write world.base path bytes)
  | .makeFolder path => world.change (world.disk.makeFolder world.base path)
  | .rename source target => world.change (world.disk.rename world.base source target)
  | .remove path => world.change (world.disk.remove world.base path)
  | .print text => ((),{ world with output := world.output ++ text })
  | .warn text => ((),{ world with warnings := world.warnings ++ text })

end World

namespace Procedure

variable {α β : Type}

/-- Carries out a procedure. -/
def run : Procedure α → World → α × World
  | .done value, world => (value,world)
  | .ask request next, world =>
    let (reply,world) := world.perform request
    (next reply).run world

@[simp] theorem run_done (value : α) (world : World) :
    (Procedure.done value).run world = (value,world) := rfl

@[simp] theorem run_ask (request : Request) (next : request.Reply → Procedure α) (world : World) :
    (Procedure.ask request next).run world =
      (next (world.perform request).1).run (world.perform request).2 := rfl

theorem run_bind (procedure : Procedure α) (next : α → Procedure β) (world : World) :
    (procedure.bind next).run world =
      (next (procedure.run world).1).run (procedure.run world).2 := by
  induction procedure generalizing world with
  | done value => rfl
  | ask request later ih => simp only [bind,run_ask,ih]

end Procedure

end StyleHoist
