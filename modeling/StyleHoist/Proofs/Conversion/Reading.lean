import StyleHoist.Conversion.Plan
import StyleHoist.Lock
import StyleHoist.Proofs.Procedure.Replacing

/-! Planning only reads. Whatever is answered, nothing is asked for that could
change a file. -/
namespace StyleHoist

open Procedure

variable {ways : Path → Prop}

theorem Procedure.asks_readText (path : Path) : (readText path).Asks (Request.Quiet ways) := by
  refine (Procedure.ensures_bind _ _ _).mpr (.request trivial fun reply _ _ => ?_)
  cases reply <;> trivial

theorem Lock.asks_holder (path : Path) : (holder path).Asks (Request.Quiet ways) := by
  refine (Procedure.ensures_bind _ _ _).mpr ?_
  rw [Attempt.ensures_toProcedure,readNote]
  simp only [Attempt.ensures_bind,Attempt.ensures_ask]
  refine (asks_readText path).mono fun content _ _ => ?_
  cases content with
  | error cause => trivial
  | ok text =>
    simp only [Except.mapError,Attempt.continues_ok]
    split
    · exact (Procedure.ensures_bind _ _ _).mpr (.request trivial fun _ _ _ => trivial)
    · trivial

theorem Project.asks_load (path : Path) : (load path).toProcedure.Asks (Request.Quiet ways) :=
  Attempt.asks_bind (Attempt.asks_ask (asks_readText path) _) fun _ => trivial

theorem Project.asks_openAt (folder : Path) : (openAt folder).toProcedure.Asks (Request.Quiet ways) := by
  refine Attempt.asks_bind (Attempt.asks_ask (asks_request trivial) _) fun root => ?_
  refine Attempt.asks_bind (Attempt.asks_liftM (asks_isFolder root)) fun folder => ?_
  split
  · refine Attempt.asks_bind (Attempt.asks_liftM (asks_exists _)) fun there => ?_
    split
    · exact Attempt.asks_bind (asks_load _) fun _ => trivial
    · trivial
  · trivial

theorem Project.asks_workingFolder : workingFolder.toProcedure.Asks (Request.Quiet ways) :=
  Attempt.asks_ask (asks_request trivial) _

theorem Project.asks_ofArguments (arguments : ProjectArguments) :
    (ofArguments arguments).toProcedure.Asks (Request.Quiet ways) := by
  rw [ofArguments]
  split <;> [refine Attempt.asks_bind (Attempt.asks_pure _) fun folder => ?_;
    refine Attempt.asks_bind asks_workingFolder fun folder => ?_]
  all_goals
    refine Attempt.asks_bind (asks_openAt folder) fun project => ?_
    dsimp only
    split
    · refine Attempt.asks_bind (asks_load _) fun config => Attempt.asks_bind (Attempt.asks_pure _) fun project => ?_
      split <;> trivial
    · refine Attempt.asks_bind (Attempt.asks_pure _) fun project => ?_
      split <;> trivial

theorem Discovery.asks_target (path : Path) : (target path).toProcedure.Asks (Request.Quiet ways) := by
  rw [Asks,Attempt.ensures_toProcedure,target,Attempt.ensures_bind,Attempt.ensures_ask]
  refine .request trivial fun kind _ _ => ?_
  rcases kind with cause | _ | _
  · trivial
  · simp only [Except.mapError,Attempt.continues_ok,Attempt.ensures_bind,Attempt.ensures_ask]
    refine .request trivial fun files _ _ => ?_
    cases files <;> trivial
  · trivial

theorem Discovery.asks_documents (project : Project) (paths : List Path) :
    (documents project paths).toProcedure.Asks (Request.Quiet ways) := by
  rw [Asks,Attempt.ensures_toProcedure,documents]
  simp only [Attempt.ensures_bind,Attempt.ensures_mk]
  cases project.config.selector with
  | error failure => trivial
  | ok selector =>
    refine (Attempt.ensures_mapM (fun _ _ _ => True) (fun _ _ => True) ?_ trivial).mono fun targets _ _ => ?_
    · intro path rest made state _
      exact (asks_target path).mono fun result _ _ => by cases result <;> trivial
    · cases targets <;> trivial

theorem Sources.asks_readStylesheet (path : Path) : (readStylesheet path).toProcedure.Asks (Request.Quiet ways) := by
  rw [Asks,Attempt.ensures_toProcedure,readStylesheet,Attempt.ensures_bind,Attempt.ensures_liftM]
  refine (asks_readText path).mono fun content _ _ => ?_
  rw [Attempt.continues_ok]
  split <;> trivial

theorem Sources.asks_gather (project : Project) (paths : List Path) :
    (gather project paths).toProcedure.Asks (Request.Quiet ways) := by
  rw [Asks,Attempt.ensures_toProcedure,gather]
  simp only [Attempt.ensures_bind,Attempt.ensures_mk]
  refine (asks_readStylesheet _).mono fun stylesheet _ _ => ?_
  cases stylesheet with
  | error failure => trivial
  | ok text =>
    rw [Attempt.continues_ok]
    cases seed project text with
    | error failure => trivial
    | ok registry =>
      refine (Discovery.asks_documents project paths).mono fun selected _ _ => ?_
      cases selected with
      | error failure => trivial
      | ok selected =>
        refine (Attempt.ensures_mapM (fun _ _ _ => True) (fun _ _ => True) ?_ trivial).mono fun read _ _ => ?_
        · intro path rest made state _
          rw [Attempt.ensures_lift,readDocument,Procedure.ensures_bind]
          exact (asks_readText path).mono fun _ _ _ => trivial
        · cases read <;> trivial

theorem Conversion.asks_plan (project : Project) (paths : List Path) :
    (plan project paths).toProcedure.Asks (Request.Quiet ways) := by
  rw [Asks,Attempt.ensures_toProcedure,plan,Attempt.ensures_bind]
  refine (Sources.asks_gather project paths).mono fun sources _ _ => ?_
  cases sources <;> trivial

end StyleHoist
