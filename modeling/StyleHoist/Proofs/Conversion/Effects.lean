import StyleHoist.Proofs.Conversion.Commit
import StyleHoist.Proofs.Conversion.Course
import StyleHoist.Proofs.Procedure.Performing

/-! What is found, place by place, once a plan has been carried out, and that
writing the plan comes to that. -/
namespace StyleHoist

open Procedure Attempt

/-- What is found everywhere, once a file has been replaced. -/
def replaced (path : Path) (content : Text) (base : Place) (find : Place → Option Entry) : Place → Option Entry :=
  Function.update (match temporary? path with
    | some temporary => Function.update find (temporary.place base) none
    | none => find) (path.place base) (some (.file (encodeText content)))

namespace DocumentPlan

/-- What is found everywhere, once a document has been backed up, if it is to be. -/
def backedUp (document : DocumentPlan) (backup : Bool) (suffix : Text) (base : Place)
    (find : Place → Option Entry) : Place → Option Entry :=
  let copy := (backupPath document.path suffix).place base
  if backup then Function.update find copy ((find copy).or (find (document.path.place base))) else find

/-- What is found everywhere, once a document has been replaced after its backup. -/
def rewritten (document : DocumentPlan) (backup : Bool) (suffix : Text) (base : Place)
    (find : Place → Option Entry) : Place → Option Entry :=
  replaced document.path document.outcome.text base (document.backedUp backup suffix base find)

end DocumentPlan

section

variable {path : Path} {content suffix : Text} {base place : Place} {find : Place → Option Entry} {backup : Bool}
  {document : DocumentPlan}

theorem replaced_of_not_replacing (away : ¬ replacing path base place) :
    replaced path content base find place = find place := by
  rw [replacing,not_or] at away
  rw [replaced,Function.update_of_ne (Ne.symm away.1)]
  cases named : temporary? path with
  | none => rfl
  | some temporary => exact Function.update_of_ne (fun same => away.2 ⟨temporary,named,same.symm⟩) _ _

@[simp] theorem replaced_self : replaced path content base find (path.place base) = some (.file (encodeText content)) :=
  Function.update_self _ _ _

theorem replaced_temporary {temporary : Path} (named : temporary? path = some temporary) :
    replaced path content base find (temporary.place base) = none := by
  rw [replaced,Function.update_of_ne (Path.place_temporary_ne named base),named]
  exact Function.update_self _ _ _

section

variable {other : Place → Option Entry} {hole : Place} (same : ∀ place, place ≠ hole → find place = other place)

include same

theorem replaced_congr : ∀ place, place ≠ hole →
    replaced path content base find place = replaced path content base other place := by
  intro place away
  by_cases hit : replacing path base place
  · rcases hit with rfl | ⟨temporary,named,rfl⟩
    · rw [replaced_self,replaced_self]
    · rw [replaced_temporary named,replaced_temporary named]
  · rw [replaced_of_not_replacing hit,replaced_of_not_replacing hit,same place away]

theorem DocumentPlan.rewritten_congr (apart : ∀ path ∈ document.paths suffix, path.place base ≠ hole) :
    ∀ place, place ≠ hole →
      document.rewritten backup suffix base find place = document.rewritten backup suffix base other place := by
  refine replaced_congr fun place away => ?_
  rw [backedUp,backedUp]
  split
  · have own := apart _ List.mem_cons_self
    have beside := apart (backupPath document.path suffix) (by simp [paths])
    rw [same _ own,same _ beside,Function.update_apply,Function.update_apply,same _ away]
  · exact same place away

end

namespace DocumentPlan

/-- The places that are written for a document. -/
def Writes (backup : Bool) (suffix : Text) (base : Place) (document : DocumentPlan) (place : Place) : Prop :=
  replacing document.path base place ∨ backup = true ∧ (backupPath document.path suffix).place base = place

theorem Writes.places (writes : Writes backup suffix base document place) : Conversion.DocumentPlan.places suffix base document place := by
  rcases writes with hit | ⟨-,copy⟩
  · exact Conversion.places_of_replacing suffix hit
  · exact ⟨_,by simp [paths],copy⟩

theorem rewritten_of_not_writes (away : ¬ document.Writes backup suffix base place) :
    document.rewritten backup suffix base find place = find place := by
  rw [Writes,not_or,not_and] at away
  rw [rewritten,replaced_of_not_replacing away.1,backedUp]
  split
  next on => exact Function.update_of_ne (Ne.symm (away.2 on)) _ _
  next => rfl

theorem rewritten_backup (distinct : ((document.paths suffix).map (·.place base)).Nodup) :
    let copy := (backupPath document.path suffix).place base
    document.rewritten backup suffix base find copy =
      if backup then (find copy).or (find (document.path.place base)) else find copy := by
  intro copy
  simp only [paths,List.map_cons,List.nodup_cons,List.mem_cons,List.mem_map,Option.mem_toList,not_or] at distinct
  obtain ⟨⟨own,-⟩,beside,-⟩ := distinct
  have away : ¬ replacing document.path base copy := not_or.mpr ⟨own,beside⟩
  rw [rewritten,replaced_of_not_replacing away,backedUp]
  split
  · exact Function.update_self _ _ _
  · rfl

end DocumentPlan

end

namespace Conversion

open Sharing

variable {conversion : Conversion} {project : Project} {arguments : ConvertArguments} {identity : Identity}
  {world : World} {suffix : Text} {backup : Bool} {base : Place} {document : DocumentPlan}
  {documents : List DocumentPlan} {find : Place → Option Entry} {place : Place} {line : String}

/-- What is found everywhere, once the stylesheet has been written, if it has new rules. -/
def restyled (conversion : Conversion) (base : Place) (find : Place → Option Entry) : Place → Option Entry :=
  if conversion.added = [] then find else replaced conversion.stylesheetPath conversion.stylesheet base find

/-- What is found everywhere, once a plan has been carried out. -/
def carriedOut (conversion : Conversion) (backup : Bool) (suffix : Text) (base : Place)
    (find : Place → Option Entry) : Place → Option Entry :=
  conversion.modified.foldl (fun find document => document.rewritten backup suffix base find)
    (conversion.restyled base find)

theorem foldl_of_not_writes (away : ∀ document ∈ documents, ¬ document.Writes backup suffix base place) :
    documents.foldl (fun find document => document.rewritten backup suffix base find) find place = find place := by
  induction documents generalizing find with
  | nil => rfl
  | cons document rest ih =>
    obtain ⟨first,others⟩ := List.forall_mem_cons.mp away
    rw [List.foldl_cons,ih others,DocumentPlan.rewritten_of_not_writes first]

theorem foldl_eq_rewritten (distinct : ((documents.flatMap (·.paths suffix)).map (·.place base)).Nodup)
    (member : document ∈ documents) : ∃ middle : Place → Option Entry,
      (∀ path ∈ document.paths suffix, middle (path.place base) = find (path.place base)) ∧
      ∀ path ∈ document.paths suffix,
        documents.foldl (fun find document => document.rewritten backup suffix base find) find (path.place base) =
          document.rewritten backup suffix base middle (path.place base) := by
  obtain ⟨front,back,rfl⟩ := List.append_of_mem member
  rw [List.map_flatMap,List.flatMap_append,List.flatMap_cons] at distinct
  obtain ⟨-,onwards,before⟩ := List.nodup_append.mp distinct
  obtain ⟨-,-,behind⟩ := List.nodup_append.mp onwards
  refine ⟨front.foldl (fun find document => document.rewritten backup suffix base find) find,fun path own => ?_,
    fun path own => ?_⟩
  · refine foldl_of_not_writes fun other among writes => ?_
    obtain ⟨written,inside,same⟩ := writes.places
    exact before _ (List.mem_flatMap.mpr ⟨other,among,List.mem_map_of_mem inside⟩) _
      (List.mem_append_left _ (List.mem_map_of_mem own)) same
  · rw [List.foldl_append,List.foldl_cons]
    refine foldl_of_not_writes fun other among writes => ?_
    obtain ⟨written,inside,same⟩ := writes.places
    exact behind _ (List.mem_map_of_mem own) _ (List.mem_flatMap.mpr ⟨other,among,List.mem_map_of_mem inside⟩) same.symm

/-- The places that are written when a plan is carried out. -/
def Writes (conversion : Conversion) (backup : Bool) (suffix : Text) (base : Place) (place : Place) : Prop :=
  conversion.added ≠ [] ∧ replacing conversion.stylesheetPath base place ∨
    ∃ document ∈ conversion.modified, document.Writes backup suffix base place

theorem Writes.mem_paths (writes : conversion.Writes backup suffix base place) :
    ∃ path ∈ conversion.paths suffix, path.place base = place := by
  rcases writes with ⟨-,hit⟩ | ⟨document,modified,writes⟩
  · rcases hit with same | ⟨temporary,named,same⟩
    · exact ⟨_,List.mem_cons_self,same⟩
    · exact ⟨temporary,by simp [paths,named],same⟩
  · obtain ⟨path,own,same⟩ := writes.places
    exact ⟨path,Conversion.mem_paths (List.mem_filter.mp modified).1 own,same⟩

theorem carriedOut_of_not_writes (away : ¬ conversion.Writes backup suffix base place) :
    conversion.carriedOut backup suffix base find place = find place := by
  simp only [Writes,not_or,not_and,not_exists] at away
  rw [carriedOut,foldl_of_not_writes away.2,restyled]
  split
  next => rfl
  next filled => exact replaced_of_not_replacing (away.1 filled)

theorem foldl_congr {other : Place → Option Entry} {hole : Place}
    (apart : ∀ document ∈ documents, ∀ path ∈ document.paths suffix, path.place base ≠ hole)
    (same : ∀ place, place ≠ hole → find place = other place) : ∀ place, place ≠ hole →
      documents.foldl (fun find document => document.rewritten backup suffix base find) find place =
        documents.foldl (fun find document => document.rewritten backup suffix base find) other place := by
  induction documents generalizing find other with
  | nil => exact same
  | cons document rest ih =>
    obtain ⟨first,others⟩ := List.forall_mem_cons.mp apart
    exact ih others (document.rewritten_congr same first)

theorem carriedOut_congr {other : Place → Option Entry} {hole : Place}
    (apart : ∀ path ∈ conversion.paths suffix, path.place base ≠ hole)
    (same : ∀ place, place ≠ hole → find place = other place) : ∀ place, place ≠ hole →
      conversion.carriedOut backup suffix base find place = conversion.carriedOut backup suffix base other place := by
  refine foldl_congr (fun document member path own => ?_) fun place away => ?_
  · exact apart path (mem_paths (List.mem_filter.mp member).1 own)
  · rw [restyled,restyled]
    split
    · exact same place away
    · exact replaced_congr same place away

section

variable (distinct : ((conversion.paths suffix).map (·.place base)).Nodup)

include distinct

theorem not_writes_of_replacing (hit : replacing conversion.stylesheetPath base place) :
    ∀ document ∈ conversion.documents, ¬ Conversion.DocumentPlan.places suffix base document place := by
  rintro document member ⟨path,own,same⟩
  rw [paths,List.map_append] at distinct
  have inside : place ∈ (conversion.documents.flatMap (·.paths suffix)).map (·.place base) :=
    List.mem_map.mpr ⟨path,List.mem_flatMap.mpr ⟨document,member,own⟩,same⟩
  have front : place ∈ (conversion.stylesheetPath :: (temporary? conversion.stylesheetPath).toList).map (·.place base) := by
    rcases hit with here | ⟨temporary,named,here⟩
    · exact List.mem_map.mpr ⟨_,List.mem_cons_self,here⟩
    · exact List.mem_map.mpr ⟨temporary,by simp [named],here⟩
  exact (List.nodup_append.mp distinct).2.2 place front place inside rfl

theorem not_writes_of_unchanged (member : document ∈ conversion.documents) (unchanged : document.outcome.changed = false)
    {path : Path} (own : path ∈ document.paths suffix) : ¬ conversion.Writes backup suffix base (path.place base) := by
  rintro (⟨-,hit⟩ | ⟨other,modified,writes⟩)
  · exact not_writes_of_replacing distinct hit document member ⟨path,own,rfl⟩
  · obtain ⟨among,changed⟩ := List.mem_filter.mp modified
    have different : other ≠ document := by
      rintro rfl
      rw [unchanged] at changed
      cases changed
    obtain ⟨written,inside,same⟩ := writes.places
    obtain rfl := List.inj_on_of_nodup_map distinct (mem_paths among inside) (mem_paths member own) same
    exact disjoint_paths (.of_map _ distinct) member among different inside own

theorem carriedOut_stylesheet (filled : conversion.added ≠ []) (hit : replacing conversion.stylesheetPath base place) :
    conversion.carriedOut backup suffix base find place =
      replaced conversion.stylesheetPath conversion.stylesheet base find place := by
  rw [carriedOut,foldl_of_not_writes,restyled,if_neg filled]
  intro document member writes
  exact not_writes_of_replacing distinct hit document (List.mem_filter.mp member).1 writes.places

theorem carriedOut_document (member : document ∈ conversion.modified) :
    let carried := conversion.carriedOut backup suffix base find
    let copy := (backupPath document.path suffix).place base
    carried (document.path.place base) = some (.file (encodeText document.outcome.text)) ∧
      (∀ temporary, temporary? document.path = some temporary → carried (temporary.place base) = none) ∧
      carried copy = if backup then (find copy).or (find (document.path.place base)) else find copy := by
  intro carried copy
  have among := (List.mem_filter.mp member).1
  have onwards : ((conversion.documents.flatMap (·.paths suffix)).map (·.place base)).Nodup := by
    rw [paths,List.map_append] at distinct
    exact (List.nodup_append.mp distinct).2.1
  have modified : ((conversion.modified.flatMap (·.paths suffix)).map (·.place base)).Nodup := by
    exact onwards.sublist ((List.filter_sublist.flatMap _).map _)
  have single : ((document.paths suffix).map (·.place base)).Nodup := by
    rw [List.map_flatMap] at onwards
    exact (List.nodup_flatMap.mp onwards).1 document among
  have restyled : ∀ path ∈ document.paths suffix,
      conversion.restyled base find (path.place base) = find (path.place base) := by
    intro path own
    rw [Conversion.restyled]
    split
    next => rfl
    next => exact replaced_of_not_replacing fun hit => not_writes_of_replacing distinct hit document among ⟨path,own,rfl⟩
  -- the places of one document are not written for any other
  obtain ⟨middle,same,ends⟩ := foldl_eq_rewritten modified member
  have own : document.path ∈ document.paths suffix := List.mem_cons_self
  have beside : backupPath document.path suffix ∈ document.paths suffix := by simp [DocumentPlan.paths]
  refine ⟨(ends _ own).trans replaced_self,fun temporary named => ?_,?_⟩
  · exact (ends temporary (by simp [DocumentPlan.paths,named])).trans (replaced_temporary named)
  · refine (ends _ beside).trans ((DocumentPlan.rewritten_backup single).trans ?_)
    rw [same _ beside,same _ own,restyled _ beside,restyled _ own]

end

theorem succeeds_say (ground : world.Grounded) (line : String) :
    Succeeds (liftM (say line)) world fun _ later => world.Becomes world.disk.find later := by
  refine (Succeeds.of_request _).mono fun _ later performs => ?_
  obtain ⟨-,rfl⟩ := Prod.mk.inj performs
  exact World.Still.becomes ⟨rfl,rfl⟩ ground

theorem succeeds_commitStylesheet (ground : world.Grounded)
    (houses : world.disk.Houses world.base conversion.stylesheetPath) :
    (commitStylesheet project conversion).Succeeds world fun _ later =>
      world.Becomes (conversion.restyled world.base world.disk.find) later := by
  rw [commitStylesheet]
  split
  next none =>
    rw [restyled,if_pos (List.isEmpty_iff.mp none)]
    exact .of_pure ((World.Still.refl world).becomes ground)
  next filled =>
    rw [restyled,if_neg fun none => filled (List.isEmpty_iff.mpr none)]
    refine (succeeds_replace ground houses).bind fun _ middle ends => ?_
    obtain ⟨temporary,named,becomes⟩ := ends
    refine (succeeds_say becomes.ground _).bind fun _ last said => .of_pure ?_
    rw [becomes.find_eq] at said
    rw [replaced,named]
    exact becomes.trans said

theorem succeeds_rewrite {made : Option Path} {middle : World} (ground : world.Grounded)
    (houses : world.disk.Houses world.base document.path)
    (becomes : world.Becomes (document.backedUp backup suffix world.base world.disk.find) middle) :
    Succeeds (do replace document.path document.outcome.text; liftM (say line); pure made) middle fun _ later =>
      world.Becomes (document.rewritten backup suffix world.base world.disk.find) later := by
  refine (succeeds_replace becomes.ground (becomes.houses ground houses)).bind fun _ third ⟨temporary,named,replaced⟩ => ?_
  refine (succeeds_say replaced.ground _).bind fun _ last said => .of_pure ?_
  have done := becomes.trans (replaced.trans said)
  rw [replaced.find_eq,becomes.find_eq,becomes.base] at done
  rw [DocumentPlan.rewritten,StyleHoist.replaced,named]
  exact done

theorem succeeds_commitDocument (ground : world.Grounded) (houses : world.disk.Houses world.base document.path) :
    (commitDocument project backup document).Succeeds world fun _ later =>
      world.Becomes (document.rewritten backup project.config.backupSuffix world.base world.disk.find) later := by
  rw [commitDocument]
  cases backup with
  | false => exact succeeds_rewrite ground houses ((World.Still.refl world).becomes ground)
  | true =>
    refine (succeeds_backUp ground).bind fun made middle ends => succeeds_rewrite ground houses ?_
    simp only [DocumentPlan.backedUp,if_true]
    rcases ends with ⟨there,still⟩ | ⟨vacant,bytes,original,becomes⟩
    · obtain ⟨entry,held⟩ := Option.ne_none_iff_exists'.mp there
      rw [World.entry] at held
      rw [held,Option.some_or,← held,Function.update_eq_self]
      exact still.becomes ground
    · rw [World.entry] at vacant original
      rwa [vacant,Option.none_or,original]

theorem succeeds_commitDocuments (ground : world.Grounded)
    (houses : ∀ document ∈ documents, world.disk.Houses world.base document.path) :
    (documents.mapM (commitDocument project backup)).Succeeds world fun _ later => world.Becomes
      (documents.foldl (fun find document => document.rewritten backup project.config.backupSuffix world.base find)
        world.disk.find) later := by
  induction documents generalizing world with
  | nil => exact .of_pure ((World.Still.refl world).becomes ground)
  | cons document rest ih =>
    obtain ⟨first,others⟩ := List.forall_mem_cons.mp houses
    rw [List.mapM_cons]
    refine (succeeds_commitDocument ground first).bind fun _ middle becomes => ?_
    have onwards := ih becomes.ground fun document member => becomes.houses ground (others document member)
    refine onwards.bind fun _ last done => .of_pure ?_
    rw [becomes.find_eq,becomes.base] at done
    exact becomes.trans done

theorem succeeds_commit (ground : world.Grounded) (sheet : world.disk.Houses world.base conversion.stylesheetPath)
    (houses : ∀ document ∈ conversion.documents, world.disk.Houses world.base document.path) :
    (commit project conversion backup).Succeeds world fun _ later =>
      world.Becomes (conversion.carriedOut backup project.config.backupSuffix world.base world.disk.find) later := by
  rw [commit]
  refine (succeeds_commitStylesheet ground sheet).bind fun _ middle becomes => ?_
  have housed : ∀ document ∈ conversion.modified, middle.disk.Houses middle.base document.path :=
    fun document member => becomes.houses ground (houses document (List.mem_filter.mp member).1)
  refine (succeeds_commitDocuments becomes.ground housed).bind fun _ last done => .of_pure ?_
  rw [becomes.find_eq,becomes.base] at done
  exact becomes.trans done

theorem carriedOut_of_not_hasChanges (none : conversion.hasChanges = false) :
    conversion.carriedOut backup suffix base find = find := by
  simp only [hasChanges,Bool.or_eq_false_iff,Bool.not_eq_false',List.isEmpty_iff] at none
  rw [carriedOut,none.1,restyled,if_pos none.2,List.foldl_nil]

/-- The line of the log for a plan that has been carried out. -/
def ranLine (identity : Identity) (project : Project) (conversion : Conversion) (written : Option Written)
    (time : Timestamp) : Text :=
  Event.line ⟨time,.convert,identity.actor,(conversion.details project written false).sorted⟩

/-- What is found everywhere is known, and then there is a line more in the log. -/
def Carries (identity : Identity) (project : Project) (arguments : ConvertArguments) (conversion : Conversion)
    (find : Place → Option Entry) (world later : World) : Prop :=
  ∃ middle, world.Becomes find middle ∧
    match logOf project arguments with
    | none => middle.Still later
    | some log => ∃ written time,
        middle.Logs log (encodeText (ranLine identity project conversion written time ++ ['\n'])) later

theorem succeeds_closing {middle : World} {written : Option Written} (real : arguments.dryRun = false)
    (becomes : world.Becomes find middle) :
    (closing identity project arguments conversion written).Succeeds middle fun _ later =>
      Carries identity project arguments conversion find world later := by
  rw [closing,real]
  have noted : ∀ {last : World}, middle.Still last → Succeeds
      (match logOf project arguments with
        | none => pure ()
        | some log => EventLog.record identity log .convert (conversion.details project written false)) last
      fun _ later => Carries identity project arguments conversion find world later := by
    intro last still
    cases noted : logOf project arguments with
    | none => exact .of_pure ⟨middle,becomes,by rwa [noted]⟩
    | some log =>
      have here := becomes.still still
      refine (succeeds_record here.ground identity log .convert _).mono fun _ later logs => ⟨last,here,?_⟩
      rw [noted]
      exact ⟨written,_,logs⟩
  simp only [Bool.false_eq_true,if_false]
  split
  next => exact (succeeds_still (quiet_sayAll _)).bind fun _ last still => noted still
  next => exact noted (.refl middle)

theorem succeeds_follow (real : arguments.dryRun = false) (ground : world.Grounded)
    (sheet : world.disk.Houses world.base conversion.stylesheetPath)
    (houses : ∀ document ∈ conversion.documents, world.disk.Houses world.base document.path) :
    (follow identity project arguments conversion).Succeeds world fun _ later =>
      Carries identity project arguments conversion (conversion.carriedOut (backsUp project arguments)
        project.config.backupSuffix world.base world.disk.find) world later := by
  rw [follow]
  refine (succeeds_still (quiet_warnAll _)).bind fun _ first warned => ?_
  refine (succeeds_still (quiet_sayAll _)).bind fun _ second said => ?_
  have start := (warned.trans said).becomes ground
  rw [real,Bool.false_or]
  cases changes : conversion.hasChanges with
  | false =>
    rw [carriedOut_of_not_hasChanges changes]
    exact succeeds_closing real start
  | true =>
    have housed : ∀ path, world.disk.Houses world.base path → second.disk.Houses second.base path :=
      fun path => start.houses ground
    have done : (commit project conversion (backsUp project arguments)).Succeeds second _ :=
      succeeds_commit start.ground (housed _ sheet) fun document member => housed _ (houses document member)
    rw [start.find_eq,start.base] at done
    simp only [Bool.not_true,Bool.false_eq_true,if_false,map_eq_pure_bind,bind_assoc,pure_bind]
    exact done.bind fun written third becomes => succeeds_closing real (start.trans becomes)

end Conversion

end StyleHoist
