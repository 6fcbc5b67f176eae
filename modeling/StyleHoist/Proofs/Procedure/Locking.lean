import StyleHoist.Lock
import StyleHoist.Proofs.Disk.Beside
import StyleHoist.Proofs.Disk.Ways
import StyleHoist.Proofs.Procedure.Performing

/-! A lock on a machine that carries everything out: while it is held there is
one more file, and when it is given back that file is gone. -/
namespace StyleHoist

open Procedure Attempt

variable {world now later : World} {lock : Path}

/-- There is the file of a lock that was not there before, and nothing else has changed. -/
structure World.Holds (world : World) (lock : Path) (now : World) : Prop where
  base : now.base = world.base
  ground : now.Grounded
  beside : world.disk.Beside (lock.place world.base) now.disk
  leads : ∃ parent name, world.disk.spot world.base .bare lock = .ok (.name parent name false)

theorem World.Holds.since (still : world.Still now) (holds : now.Holds lock later) : world.Holds lock later where
  base := holds.base.trans still.1
  ground := holds.ground
  beside := by
    have beside := holds.beside
    rwa [still.1,still.2] at beside
  leads := by
    have leads := holds.leads
    rwa [still.1,still.2] at leads

namespace Lock

theorem holds_of_createNew (ground : world.Grounded) (performs : world.Performs (.createNew lock) (.ok ()) now) :
    world.Holds lock now := by
  rcases world.change_cases (world.disk.createNew world.base lock) with ⟨cause,-,told⟩ | ⟨disk,made,told⟩
  · cases performs.symm.trans told
  obtain ⟨parent,name,found,vacant,rfl⟩ := Disk.createNew_eq_ok_iff.mp made
  cases performs.symm.trans told
  have place := Disk.place_of_name ground found
  exact {
    base := rfl
    ground := (Disk.createNew_eq_ok ground made).2.ground
    beside := place ▸ .of_put vacant .empty
    leads := ⟨parent,name,found⟩ }

theorem holds_of_write {bytes : ByteArray} (holds : world.Holds lock now)
    (performs : now.Performs (.write lock bytes) (.ok ()) later) : world.Holds lock later := by
  rcases now.change_cases (now.disk.write now.base lock bytes) with ⟨cause,-,told⟩ | ⟨disk,made,told⟩
  · cases performs.symm.trans told
  obtain ⟨held,-,alters⟩ := Disk.write_eq_ok holds.ground made
  obtain ⟨parent,name,old,found,-,rfl⟩ := Disk.write_eq_ok_iff.mp made
  cases performs.symm.trans told
  have place := (Disk.place_of_name holds.ground found).symm
  rw [holds.base] at place
  exact {
    base := holds.base
    ground := alters.ground
    beside := place ▸ (place ▸ holds.beside).put _
    leads := holds.leads }

theorem succeeds_acquire (identity : Identity) (stylesheet : Path) (action : Text) (ground : world.Grounded)
    (houses : world.disk.Houses world.base (pathFor stylesheet)) :
    (acquire identity stylesheet action).Succeeds world fun path later =>
      path = pathFor stylesheet ∧ world.Holds (pathFor stylesheet) later := by
  rw [acquire]
  refine (Succeeds.of_request _).bind fun time first performs => ?_
  obtain ⟨-,rfl⟩ := Prod.mk.inj performs
  refine (succeeds_ensureFolderOf houses).bind fun _ second still => ?_
  have start := still.becomes ground
  refine (Succeeds.of_request _).bind fun taken third performs => ?_
  split
  next => exact (Succeeds.unknown _ _).bind fun _ _ _ => .of_throw _
  next => exact .of_throw _
  next =>
    have holds := (holds_of_createNew start.ground performs).since still
    refine (Succeeds.of_request _).bind fun noted last performs => ?_
    split
    next => exact (Succeeds.of_request _).bind fun _ _ _ => .of_throw _
    next => exact .of_pure ⟨rfl,holds_of_write holds performs⟩

theorem succeeds_acquire_name (identity : Identity) (stylesheet : Path) (action : Text) (ground : world.Grounded) :
    (acquire identity stylesheet action).Succeeds world fun path later => path = pathFor stylesheet ∧ later.Grounded ∧ later.base = world.base ∧
      ∃ parent name, later.disk.spot later.base .bare (pathFor stylesheet) = .ok (.name parent name false) := by
  rw [acquire]
  refine (Succeeds.of_request _).bind fun time first performs => ?_
  obtain ⟨-,rfl⟩ := Prod.mk.inj performs
  refine (succeeds_quiet ground (asks_ensureFolderOf _)).bind fun _ second within => ?_
  refine (Succeeds.of_request _).bind fun taken third performs => ?_
  split
  next => exact (Succeeds.unknown _ _).bind fun _ _ _ => .of_throw _
  next => exact .of_throw _
  next =>
    have holds := holds_of_createNew within.ground performs
    refine (Succeeds.of_request _).bind fun noted last performs => ?_
    split
    next => exact (Succeeds.of_request _).bind fun _ _ _ => .of_throw _
    next =>
      have filled := holds_of_write holds performs
      have next := filled.ground
      obtain ⟨parent,name,found⟩ := filled.leads
      rw [World.Grounded,filled.base] at next
      refine .of_pure ⟨rfl,filled.ground,filled.base.trans within.base,parent,name,?_⟩
      rw [filled.base]
      exact Disk.spot_kept within.ground next filled.beside.foldersKept found

theorem ensures_release_performed {first last : World} {find : Place → Option Entry} (ground : world.Grounded)
    (holds : world.Holds lock first) (becomes : first.Becomes find last)
    (there : ∃ bytes, find (lock.place world.base) = some (.file bytes)) :
    (release lock).Ensures World.Performs (fun _ _ => True) last fun _ later =>
      first.Becomes (Function.update find (lock.place world.base) none) later := by
  obtain ⟨parent,name,found⟩ := holds.leads
  obtain ⟨bytes,held⟩ := there
  have place := Disk.place_of_name ground found
  have next := becomes.ground
  rw [World.Grounded,becomes.base,holds.base] at next
  have onwards := Disk.spot_kept ground next (holds.beside.foldersKept.trans becomes.folders) found
  have gone := Disk.remove_file onwards (by rw [becomes.find_eq,← place,held])
  refine (Procedure.ensures_bind _ _ _).mpr (.request trivial fun reply later performs => ?_)
  rcases World.answers_remove becomes.ground performs.answers with ⟨⟨cause,rfl⟩,-⟩ | ⟨rfl,alters⟩
  · rw [World.Performs,World.perform,becomes.base,holds.base,gone,World.change] at performs
    cases performs
  · have done := becomes.alters alters
    rwa [holds.base] at done

/-- Where the lock file can be made and filled the lock is taken, whatever is noted in it. -/
theorem run_acquire {identity : Identity} {stylesheet : Path} {action : Text} (opened : World) (made : Disk)
    (noted : ByteArray → Disk)
    (around : (ensureFolderOf (pathFor stylesheet)).toProcedure.run world = (.ok (),opened))
    (free : opened.disk.createNew opened.base (pathFor stylesheet) = .ok made)
    (filled : ∀ bytes, made.write opened.base (pathFor stylesheet) bytes = .ok (noted bytes)) :
    ∃ bytes, (acquire identity stylesheet action).toProcedure.run world =
      (.ok (pathFor stylesheet),{ opened with disk := noted bytes }) := by
  have created : opened.perform (.createNew (pathFor stylesheet)) = (.ok (),{ opened with disk := made }) := by
    rw [World.perform,free,World.change]
  have written (bytes : ByteArray) : ({ opened with disk := made } : World).perform (.write (pathFor stylesheet) bytes) =
      (.ok (),{ opened with disk := noted bytes }) := by
    rw [World.perform,filled,World.change]
  refine ⟨encodeText (LockNote.text ⟨identity.actor,some identity.pid,world.clock,action⟩),?_⟩
  rw [acquire]
  refine (run_bind_ok (run_lift (request .clock) world) _).trans ((run_bind_ok around _).trans ?_)
  refine (run_bind_ok (run_lift (request (.createNew (pathFor stylesheet))) opened) _).trans ?_
  rw [show (request (.createNew (pathFor stylesheet))).run opened = _ from created]
  refine (run_bind_ok (run_lift (request (.write (pathFor stylesheet) _)) { opened with disk := made }) _).trans ?_
  rw [show (request (.write (pathFor stylesheet) _)).run { opened with disk := made } = _ from written _]
  rfl

/-- What is done while a lock is held lies between its being taken and its being given back. -/
theorem run_holding_of_taken {α : Type} {identity : Identity} {stylesheet : Path} {action : Text} {locked : World}
    (taken : (acquire identity stylesheet action).toProcedure.run world = (.ok lock,locked)) (attempt : Attempt α) :
    (holding identity stylesheet action attempt).toProcedure.run world =
      ((attempt.toProcedure.run locked).1,((release lock).run (attempt.toProcedure.run locked).2).2) := by
  rw [holding,run_bind_ok taken,run_bind_ok (run_lift _ _)]
  exact run_bind_ok (run_lift (release lock) _) _

theorem run_holding {α : Type} {identity : Identity} {stylesheet : Path} {action : Text} {attempt : Attempt α} {value : α}
    {final : World} (done : (holding identity stylesheet action attempt).toProcedure.run world = (.ok value,final)) :
    ∃ path locked after, (acquire identity stylesheet action).toProcedure.run world = (.ok path,locked) ∧
      attempt.toProcedure.run locked = (.ok value,after) ∧ final = ((release path).run after).2 := by
  rcases taken : (acquire identity stylesheet action).toProcedure.run world with ⟨failure | path,locked⟩
  · rw [holding,run_bind_error taken] at done
    cases done
  · rw [run_holding_of_taken taken] at done
    obtain ⟨worked,rfl⟩ := Prod.mk.inj done
    exact ⟨path,locked,_,rfl,Prod.ext worked rfl,rfl⟩

end Lock

end StyleHoist
