import StyleHoist.Proofs.Disk.Ways
import StyleHoist.Proofs.Procedure.Machine
import StyleHoist.Proofs.Procedure.Replacing

/-! What becomes of a disk with links when folders are made on the way to a
file, when a line is added to a log, and when a lock is taken and given back. -/
namespace StyleHoist

open Procedure Attempt

namespace World

variable {world middle later : World} {ways : Path → Prop} {carried : Request → Prop} {path : Path}

/-- Worlds that differ only by folders made on certain ways. -/
structure Paved (world : World) (ways : Path → Prop) (later : World) : Prop where
  base : later.base = world.base
  elsewhere : ∀ place, later.disk.find place = world.disk.find place ∨
    world.disk.find place = none ∧ later.disk.find place = some .folder ∧
      ∃ folder, ways folder ∧ later.disk.Leads later.base folder place

theorem Still.paved (still : world.Still later) : world.Paved ways later :=
  ⟨still.1,fun _ => .inl (by rw [still.2])⟩

theorem Paved.waysKept (paved : world.Paved ways later) : Disk.WaysKept world.disk later.disk where
  folders := by
    intro place folder
    rcases paved.elsewhere place with same | ⟨vacant,-,-⟩
    · exact same.trans folder
    · rw [folder] at vacant
      cases vacant
  links := by
    intro place target
    rcases paved.elsewhere place with same | ⟨vacant,folder,-⟩
    · rw [same]
    · simp [vacant,folder]

theorem Paved.trans (front : world.Paved ways middle) (back : middle.Paved ways later) : world.Paved ways later where
  base := back.base.trans front.base
  elsewhere := by
    intro place
    rcases front.elsewhere place with same | ⟨vacant,folder,path,way,leads⟩
    · rw [← same]
      exact back.elsewhere place
    · refine .inr ⟨vacant,back.waysKept.folders place folder,path,way,?_⟩
      rw [back.base]
      exact back.waysKept.leads leads

theorem Paved.of_find_eq (paved : world.Paved ways middle) (base : later.base = middle.base)
    (same : later.disk.find = middle.disk.find) : world.Paved ways later where
  base := base.trans paved.base
  elsewhere := by
    intro place
    rw [same]
    refine (paved.elsewhere place).imp_right fun ⟨vacant,folder,path,way,leads⟩ => ⟨vacant,folder,path,way,?_⟩
    rw [base]
    exact (Disk.WaysKept.of_find_eq same).leads leads

theorem answers_makeFolder_paved {reply : Except FileError Unit} (way : ways path)
    (answered : world.Answers (.makeFolder path) reply later) : world.Paved ways later := by
  cases answered with
  | refused refusal => exact (Still.refl world).paved
  | performed =>
    rcases world.change_cases (world.disk.makeFolder world.base path) with ⟨cause,-,told⟩ | ⟨disk,made,told⟩
    · rw [perform,told]
      exact (Still.refl world).paved
    · obtain ⟨spot,found,vacant,put⟩ := Disk.makeFolder_update made
      have kept := Disk.WaysKept.of_update vacant (fun _ same => by cases same) put
      rw [perform,told]
      refine ⟨rfl,fun place => ?_⟩
      by_cases same : place = spot.place
      · subst same
        exact .inr ⟨vacant,by simp [put],path,way,spot,kept.spot_ok found,rfl⟩
      · exact .inl (by simp [put,same])

theorem answers_quiet_paved {request : Request} {reply : request.Reply} (quiet : request.Quiet ways)
    (answered : world.Answers request reply later) : world.Paved ways later := by
  rcases quiet.cases with ⟨path,rfl,way⟩ | still
  · exact answers_makeFolder_paved way answered
  · exact (answers_still request still answered).paved

/-- A part of a line, or all of it, is at the end of a log, which is new if there was none. No
more than folders on its way have been made beside that. -/
def Noted (world : World) (log : Path) (line : ByteArray) (later : World) : Prop :=
  ∃ middle spot held part rest, world.Paved log.Above middle ∧ middle.disk.spot middle.base .follow log = .ok spot ∧
    (middle.disk.find spot.place = some (.file held) ∨ middle.disk.find spot.place = none ∧ held = .empty) ∧
    line = part ++ rest ∧ later.base = middle.base ∧
    later.disk.find = Function.update middle.disk.find spot.place (some (.file (held ++ part)))

theorem Noted.since {line : ByteArray} (still : world.Still middle) (noted : middle.Noted path line later) :
    world.Noted path line later := by
  obtain ⟨first,spot,held,part,rest,paved,found⟩ := noted
  exact ⟨first,spot,held,part,rest,still.paved.trans paved,found⟩

/-- The file of a log is there, or has been made empty, if it is a file at all. -/
def Opened (world : World) (log : Path) (now : World) : Prop :=
  ∃ middle, world.Paved log.Above middle ∧ (middle.Still now ∨ ∃ spot,
    middle.disk.spot middle.base .create log = .ok spot ∧ middle.disk.find spot.place = none ∧
      now.base = middle.base ∧ now.disk.find = Function.update middle.disk.find spot.place (some (.file .empty)))

theorem Opened.still (opened : world.Opened path middle) (still : middle.Still later) : world.Opened path later := by
  obtain ⟨first,paved,same | ⟨spot,found,vacant,base,new⟩⟩ := opened
  · exact ⟨first,paved,.inl (same.trans still)⟩
  · exact ⟨first,paved,.inr ⟨spot,found,vacant,still.1.trans base,by rw [still.2,new]⟩⟩

theorem Opened.noted (opened : world.Opened path middle) {line part rest : ByteArray} (whole : line = part ++ rest)
    (base : later.base = middle.base) (written : middle.disk.write middle.base path part = .ok later.disk) :
    world.Noted path line later := by
  obtain ⟨first,paved,made⟩ := opened
  obtain ⟨spot,held,found,here,put⟩ := Disk.write_update written
  rcases made with still | ⟨spot',found',vacant,base',new⟩
  · rw [still.1,still.2] at found
    rw [still.2] at here put
    exact ⟨first,spot,held,part,rest,paved,found,.inl here,whole,base.trans still.1,put⟩
  · have onwards := (Disk.WaysKept.of_update vacant (by nofun) new).spot_ok found'
    rw [base',Disk.spot_follow (by nofun) onwards] at found
    cases found
    rw [new,Function.update_self] at here
    cases here
    rw [new,Function.update_idem] at put
    exact ⟨first,spot,.empty,part,rest,paved,Disk.spot_follow (by nofun) found',.inr ⟨vacant,rfl⟩,whole,base.trans base',put⟩

theorem Opened.paved_or_noted (opened : world.Opened path later) (line : ByteArray) :
    world.Paved path.Above later ∨ world.Noted path line later := by
  obtain ⟨first,paved,still | ⟨spot,found,vacant,base,new⟩⟩ := opened
  · exact .inl (paved.trans still.paved)
  · refine .inr ⟨first,spot,.empty,.empty,line,paved,Disk.spot_follow (by nofun) found,.inr ⟨vacant,rfl⟩,?_,base,?_⟩
    · simp
    · simpa using new

theorem opened_of_answers (paved : world.Paved path.Above middle) {reply : Except FileError Unit}
    (answered : middle.Answers (.openEnd path) reply later) : world.Opened path later := by
  cases answered with
  | refused refusal => exact ⟨middle,paved,.inl (.refl middle)⟩
  | performed =>
    rcases middle.change_cases (middle.disk.openEnd middle.base path) with ⟨cause,-,told⟩ | ⟨disk,made,told⟩
    · rw [perform,told]
      exact ⟨middle,paved,.inl (.refl middle)⟩
    · rw [perform,told]
      rcases Disk.openEnd_update made with same | ⟨spot,found,vacant,put⟩
      · exact ⟨middle,paved,.inl ⟨rfl,same⟩⟩
      · exact ⟨middle,paved,.inr ⟨spot,found,vacant,rfl,put⟩⟩

theorem answers_write_part {bytes : ByteArray} {reply : Except FileError Unit}
    (answered : world.Answers (.write path bytes) reply later) :
    world.Still later ∨ ∃ part rest, bytes = part ++ rest ∧ later.base = world.base ∧
      world.disk.write world.base path part = .ok later.disk := by
  cases answered with
  | refused refusal => exact .inl (.refl world)
  | performed =>
    rcases world.change_cases (world.disk.write world.base path bytes) with ⟨cause,-,told⟩ | ⟨disk,made,told⟩
    · rw [perform,told]
      exact .inl (.refl world)
    · rw [perform,told]
      exact .inr ⟨bytes,.empty,by simp,rfl,made⟩
  | cut path part rest reason =>
    rcases world.change_cases (world.disk.write world.base path part) with ⟨cause,-,told⟩ | ⟨disk,made,told⟩
    · rw [perform,told]
      exact .inl (.refl world)
    · rw [perform,told]
      exact .inr ⟨part,rest,rfl,rfl,made⟩

/-- The file of a lock has been made where nothing was. -/
def Locked (world : World) (lock : Path) (now : World) : Prop :=
  ∃ middle parent name bytes, world.Paved lock.Above middle ∧
    middle.disk.spot middle.base .bare lock = .ok (.name parent name false) ∧
    middle.disk.find (name :: parent) = none ∧ now.base = middle.base ∧
    now.disk.find = Function.update middle.disk.find (name :: parent) (some (.file bytes))

theorem Locked.still (locked : world.Locked path middle) (still : middle.Still later) : world.Locked path later := by
  obtain ⟨first,parent,name,bytes,paved,found,vacant,base,put⟩ := locked
  exact ⟨first,parent,name,bytes,paved,found,vacant,still.1.trans base,by rw [still.2,put]⟩

theorem locked_of_answers (paved : world.Paved path.Above middle) {reply : Except FileError Unit}
    (answered : middle.Answers (.createNew path) reply later) :
    (∃ cause, reply = .error cause) ∧ world.Paved path.Above later ∨ reply = .ok () ∧ world.Locked path later := by
  cases answered with
  | refused refusal =>
    cases refusal
    exact .inl ⟨⟨_,rfl⟩,paved⟩
  | performed =>
    rcases middle.change_cases (middle.disk.createNew middle.base path) with ⟨cause,-,told⟩ | ⟨disk,made,told⟩
    · rw [perform,told]
      exact .inl ⟨⟨cause,rfl⟩,paved⟩
    · obtain ⟨parent,name,found,vacant,rfl⟩ := Disk.createNew_eq_ok_iff.mp made
      rw [perform,told]
      exact .inr ⟨rfl,middle,parent,name,.empty,paved,found,vacant,rfl,Disk.find_put (List.cons_ne_nil _ _) _⟩

theorem Locked.removed (locked : world.Locked path middle) :
    ∃ later, middle.perform (.remove path) = (.ok (),later) ∧ world.Paved path.Above later := by
  obtain ⟨first,parent,name,bytes,paved,found,vacant,base,put⟩ := locked
  have kept := Disk.WaysKept.of_update vacant (by nofun) put
  have onwards := kept.spot_ok found
  rw [← base] at onwards
  have gone := Disk.remove_file onwards (by rw [put,Function.update_self])
  refine ⟨{ middle with disk := middle.disk.erase (name :: parent) },by rw [perform,gone,change],?_⟩
  refine paved.of_find_eq base ?_
  rw [Disk.find_erase (List.cons_ne_nil _ _),put,Function.update_idem,← vacant,Function.update_eq_self]

end World

variable {α : Type} {carried : Request → Prop} {may : World → Request → Prop} {world : World} {ways : Path → Prop}

theorem Procedure.Asks.still {procedure : Procedure α} (quiet : procedure.Asks (Request.Quiet fun _ => False)) :
    procedure.Ensures (World.Obliges carried) (fun _ _ => True) world fun _ later => world.Still later :=
  quiet.ensures (fun _ _ _ _ => trivial)
    (fun _ _ _ _ still quiet answered => still.trans (World.answers_still _ quiet answered.1)) (.refl world)

theorem Procedure.Asks.paved {procedure : Procedure α} (quiet : procedure.Asks (Request.Quiet ways)) :
    procedure.Ensures (World.Obliges carried) (fun _ _ => True) world fun _ later => world.Paved ways later :=
  quiet.ensures (fun _ _ _ _ => trivial)
    (fun _ _ _ _ paved quiet answered => paved.trans (World.answers_quiet_paved quiet answered.1))
    (World.Still.refl world).paved

end StyleHoist
