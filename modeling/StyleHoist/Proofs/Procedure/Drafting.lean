import StyleHoist.Proofs.Disk.Settling
import StyleHoist.Proofs.Procedure.Paving

/-! A file is replaced as a whole or not at all, on a disk that may have links and on a machine
that may refuse whatever it is asked. The new content is drafted in the temporary, and nothing
but that is touched before the temporary takes the place of the file. -/
namespace StyleHoist

open Procedure Attempt

namespace World

variable {world middle now later : World} {path temporary : Path} {parent : Place} {draft : Text} {bytes : ByteArray}
  {carried : Request → Prop}

/-- What there is at a spot. Where no name is left that is a folder. -/
def held (world : World) : Disk.Spot → Option Entry
  | .folder _ => some .folder
  | .name parent name _ => world.disk.find (name :: parent)

/-- Nothing, or a regular file. -/
def Loose (entry : Option Entry) : Prop := entry = none ∨ ∃ bytes, entry = some (.file bytes)

theorem Loose.plain {entry : Option Entry} (loose : Loose entry) :
    entry ≠ some .folder ∧ ∀ target, entry ≠ some (.link target) := by
  rcases loose with rfl | ⟨bytes,rfl⟩ <;> exact ⟨nofun,nofun⟩

/-- The temporary of a path is not a link, whichever folders are made around it. -/
def PlainBeside (world : World) (path : Path) : Prop :=
  ∀ temporary middle, temporary? path = some temporary → world.Paved path.Above middle →
    ∀ spot target, middle.disk.spot middle.base .bare temporary = .ok spot →
      middle.disk.find spot.place ≠ some (.link target)

/-- A temporary file has some content, where nothing or a file was. -/
structure Drafts (middle : World) (temporary : Path) (parent : Place) (draft : Text) (bytes : ByteArray)
    (now : World) : Prop where
  base : now.base = middle.base
  spot : middle.disk.spot middle.base .bare temporary = .ok (.name parent draft false)
  loose : Loose (middle.disk.find (draft :: parent))
  put : now.disk.find = Function.update middle.disk.find (draft :: parent) (some (.file bytes))

/-- A file that has been replaced as a whole. -/
structure Replaced (middle : World) (path temporary : Path) (bytes : ByteArray) (target beside : Place)
    (later : World) : Prop where
  leads : middle.disk.Leads middle.base path target
  aside : middle.disk.Leads middle.base temporary beside
  full : later.disk.find target = some (.file bytes)
  gone : later.disk.find beside = none
  others : ∀ place, place ≠ target → place ≠ beside → later.disk.find place = middle.disk.find place
  read : (∀ text, middle.disk.find target ≠ some (.link text)) → later.disk.read later.base path = .ok bytes

/-- No more than the temporary has changed, which is gone if it can be taken away. -/
def Littered (carried : Request → Prop) (middle : World) (path : Path) (later : World) : Prop :=
  later.disk.find = middle.disk.find ∨ ∃ temporary parent draft, temporary? path = some temporary ∧
    middle.disk.spot middle.base .bare temporary = .ok (.name parent draft false) ∧
      Loose (middle.disk.find (draft :: parent)) ∧ Loose (later.disk.find (draft :: parent)) ∧
        (carried (.remove temporary) → later.disk.find (draft :: parent) = none) ∧
          ∀ place, place ≠ draft :: parent → later.disk.find place = middle.disk.find place

/-- A file that has been left alone. It has become a folder only if that was missing on the way to it. -/
structure Unreplaced (carried : Request → Prop) (world middle : World) (path : Path) (later : World) : Prop where
  target : ∀ spot, middle.disk.spot middle.base .bare path = .ok spot → later.held spot = world.held spot ∨
    world.held spot = none ∧ later.held spot = some .folder ∧
      ∃ folder, path.Above folder ∧ middle.disk.Leads middle.base folder spot.place
  others : Littered carried middle path later

theorem Paved.held (paved : world.Paved path.Above middle) (spot : Disk.Spot) :
    middle.held spot = world.held spot ∨ world.held spot = none ∧ middle.held spot = some .folder ∧
      ∃ folder, path.Above folder ∧ middle.disk.Leads middle.base folder spot.place := by
  cases spot with
  | folder place => exact .inl rfl
  | name parent name slash => exact paved.elsewhere (name :: parent)

theorem Littered.held (littered : Littered carried middle path later) {spot : Disk.Spot}
    (found : middle.disk.spot middle.base .bare path = .ok spot) : later.held spot = middle.held spot := by
  cases spot with
  | folder place => rfl
  | name around name slash =>
    rcases littered with same | ⟨temporary,parent,draft,named,beside,-,-,-,others⟩
    · exact congrFun same _
    · have apart := Path.ne_of_temporary? named found beside
      exact others _ fun same => apart (List.cons.inj same).1

theorem Littered.unreplaced (littered : Littered carried middle path later) (paved : world.Paved path.Above middle) :
    Unreplaced carried world middle path later where
  target := fun spot found => by
    rw [littered.held found]
    exact paved.held spot
  others := littered

theorem plainBeside_of_linkless (linkless : ∀ place target, world.disk.find place ≠ some (.link target)) (path : Path) :
    world.PlainBeside path := by
  intro temporary middle _ paved spot target _ link
  rcases paved.elsewhere spot.place with same | ⟨-,folder,-⟩
  · exact linkless _ target (same.symm.trans link)
  · rw [folder] at link
    cases link

namespace Drafts

section

variable (drafts : middle.Drafts temporary parent draft bytes now)

include drafts

theorem forth : Disk.WaysKept middle.disk now.disk :=
  .of_plain drafts.loose.plain.1 drafts.loose.plain.2 (by nofun) drafts.put

theorem back : Disk.WaysKept now.disk middle.disk := by
  have here : now.disk.find (draft :: parent) = some (.file bytes) := by rw [drafts.put,Function.update_self]
  refine .of_plain (by rw [here]; nofun) (by rw [here]; nofun) drafts.loose.plain.2 ?_
  rw [drafts.put,Function.update_idem,Function.update_eq_self]

theorem still (still : now.Still later) : middle.Drafts temporary parent draft bytes later :=
  ⟨still.1.trans drafts.base,drafts.spot,drafts.loose,by rw [still.2,drafts.put]⟩

theorem spot_now : now.disk.spot now.base .bare temporary = .ok (.name parent draft false) := by
  rw [drafts.base]
  exact drafts.forth.spot_ok drafts.spot

end

theorem of_create (plain : ∀ spot target, middle.disk.spot middle.base .bare temporary = .ok spot →
    middle.disk.find spot.place ≠ some (.link target)) {reply : Except FileError Unit}
    (answered : middle.Answers (.create temporary) reply later) :
    (∃ cause, reply = .error cause) ∧ middle.Still later ∨
      reply = .ok () ∧ ∃ parent draft, middle.Drafts temporary parent draft .empty later := by
  cases answered with
  | refused refusal =>
    cases refusal
    exact .inl ⟨⟨_,rfl⟩,.refl middle⟩
  | performed =>
    rcases middle.change_cases (middle.disk.create middle.base temporary) with ⟨cause,-,told⟩ | ⟨disk,made,told⟩
    · rw [perform,told]
      exact .inl ⟨⟨cause,rfl⟩,.refl middle⟩
    · obtain ⟨parent,draft,found,loose,put⟩ := Disk.create_update made plain
      rw [perform,told]
      exact .inr ⟨rfl,parent,draft,rfl,found,loose,put⟩

theorem write_part {part : ByteArray} (drafts : middle.Drafts temporary parent draft .empty now)
    (base : later.base = now.base) (written : now.disk.write now.base temporary part = .ok later.disk) :
    middle.Drafts temporary parent draft part later := by
  have here : now.disk.find (draft :: parent) = some (.file .empty) := by rw [drafts.put,Function.update_self]
  have followed := Disk.spot_follow (fun _ target => by rw [Disk.Spot.place,here]; nofun) drafts.spot_now
  obtain ⟨spot,held,found,there,put⟩ := Disk.write_update written
  cases followed.symm.trans found
  rw [Disk.Spot.place,here] at there
  cases there
  refine ⟨base.trans drafts.base,drafts.spot,drafts.loose,?_⟩
  rw [put,drafts.put,Disk.Spot.place,Function.update_idem,ByteArray.empty_append]

theorem write (drafts : middle.Drafts temporary parent draft .empty now) {reply : Except FileError Unit}
    (answered : now.Answers (.write temporary bytes) reply later) :
    ∃ part, middle.Drafts temporary parent draft part later ∧ (reply = .ok () → part = bytes) := by
  cases answered with
  | refused refusal =>
    cases refusal
    exact ⟨_,drafts,nofun⟩
  | performed =>
    rcases now.change_cases (now.disk.write now.base temporary bytes) with ⟨cause,-,told⟩ | ⟨disk,made,told⟩
    · rw [perform,told]
      refine ⟨_,drafts,fun fine => ?_⟩
      cases fine
    · rw [perform,told]
      exact ⟨bytes,drafts.write_part rfl made,fun _ => rfl⟩
  | cut path part rest reason =>
    rcases now.change_cases (now.disk.write now.base temporary part) with ⟨cause,-,told⟩ | ⟨disk,made,told⟩
    · rw [perform,told]
      exact ⟨_,drafts,nofun⟩
    · rw [perform,told]
      exact ⟨part,drafts.write_part rfl made,nofun⟩

theorem replaced (drafts : middle.Drafts temporary parent draft bytes now) (named : temporary? path = some temporary)
    (base : later.base = now.base) (moved : now.disk.rename now.base temporary path = .ok later.disk) :
    ∃ target, middle.Replaced path temporary bytes target (draft :: parent) later := by
  obtain ⟨parent',draft',around,name,entry,found,own,there,free,put⟩ := Disk.rename_update moved
  cases drafts.spot_now.symm.trans found
  have here : now.disk.find (draft :: parent) = some (.file bytes) := by rw [drafts.put,Function.update_self]
  cases here.symm.trans there
  have apart : name ≠ draft := Path.ne_of_temporary? named own found
  have aside : name :: around ≠ draft :: parent := fun same => apart (List.cons.inj same).1
  replace put := put apart.symm
  have before : now.disk.find (name :: around) = middle.disk.find (name :: around) := by
    rw [drafts.put,Function.update_of_ne aside]
  have target : middle.disk.spot middle.base .bare path = .ok (.name around name false) := by
    rw [← drafts.base]
    exact drafts.back.spot_ok own
  have full : later.disk.find (name :: around) = some (.file bytes) := by rw [put,Function.update_self]
  refine ⟨name :: around,⟨_,target,rfl⟩,⟨_,drafts.spot,rfl⟩,full,?_,fun place one other => ?_,fun plain => ?_⟩
  · rw [put,Function.update_of_ne aside.symm,Function.update_self]
  · rw [put,Function.update_of_ne one,Function.update_of_ne other,drafts.put,Function.update_of_ne other]
  · have kept := Disk.WaysKept.of_move here free (by rwa [before]) put
    have followed := Disk.spot_follow (fun _ text => by rw [Disk.Spot.place,full]; nofun) (kept.spot_ok own)
    rw [base]
    exact Disk.read_eq_ok_iff.mpr ⟨around,name,followed,full⟩

theorem rename (drafts : middle.Drafts temporary parent draft bytes now) (named : temporary? path = some temporary)
    {reply : Except FileError Unit} (answered : now.Answers (.rename temporary path) reply later) :
    (∃ cause, reply = .error cause) ∧ now.Still later ∨
      reply = .ok () ∧ ∃ target, middle.Replaced path temporary bytes target (draft :: parent) later := by
  cases answered with
  | refused refusal =>
    cases refusal
    exact .inl ⟨⟨_,rfl⟩,.refl now⟩
  | performed =>
    rcases now.change_cases (now.disk.rename now.base temporary path) with ⟨cause,-,told⟩ | ⟨disk,moved,told⟩
    · rw [perform,told]
      exact .inl ⟨⟨cause,rfl⟩,.refl now⟩
    · rw [perform,told]
      exact .inr ⟨rfl,drafts.replaced named rfl moved⟩

theorem remove (drafts : middle.Drafts temporary parent draft bytes now) (named : temporary? path = some temporary)
    {reply : Except FileError Unit} (answered : now.Obliges carried (.remove temporary) reply later) :
    Littered carried middle path later := by
  have here : now.disk.find (draft :: parent) = some (.file bytes) := by rw [drafts.put,Function.update_self]
  have left : ∀ stray : Option Entry, Loose stray → (carried (.remove temporary) → stray = none) →
      later.disk.find = Function.update middle.disk.find (draft :: parent) stray → Littered carried middle path later :=
    fun stray loose taken put => .inr ⟨temporary,parent,draft,named,drafts.spot,drafts.loose,
      by rwa [put,Function.update_self],by rwa [put,Function.update_self],
      fun place apart => by rw [put,Function.update_of_ne apart]⟩
  have gone := Disk.remove_file drafts.spot_now here
  obtain ⟨answered,carriedOut⟩ := answered
  have performed : (reply,later) = now.perform (.remove temporary) → Littered carried middle path later := by
    intro done
    rw [perform,gone] at done
    cases done
    refine left none (.inl rfl) (fun _ => rfl) ?_
    rw [show World.disk _ = now.disk.erase (draft :: parent) from rfl,Disk.find_erase (List.cons_ne_nil _ _),
      drafts.put,Function.update_idem]
  cases answered with
  | performed => exact performed rfl
  | refused refusal =>
    by_cases carries : carried (.remove temporary)
    · exact performed (carriedOut carries)
    · exact left _ (.inr ⟨bytes,rfl⟩) (fun carries' => absurd carries' carries) drafts.put

end Drafts

end World

namespace Attempt

variable {world middle now : World} {path : Path} {content : ByteArray} {carried : Request → Prop}

/-- How the attempt to replace a file ends, with the folders made that were missing on its way. -/
def Ends (carried : Request → Prop) (world : World) (path : Path) (content : ByteArray) (result : Except Failure Unit)
    (later : World) : Prop :=
  ∃ middle, world.Paved path.Above middle ∧
    match result with
    | .ok _ => ∃ temporary target beside, temporary? path = some temporary ∧
        middle.Replaced path temporary content target beside later
    | .error _ => World.Unreplaced carried world middle path later

theorem ends_of_littered (paved : world.Paved path.Above middle) (littered : World.Littered carried middle path now)
    (failure : Failure) : Ends carried world path content (.error failure) now :=
  ⟨middle,paved,littered.unreplaced paved⟩

/-- A file is drafted beside its place, behind folders that are made on the way. -/
def drafting (carried : Request → Prop) (world : World) (path : Path) (content : ByteArray) : Course World where
  folders := world.Paved path.Above
  empty temporary now := ∃ middle parent draft, world.Paved path.Above middle ∧
    middle.Drafts temporary parent draft .empty now
  full temporary now := ∃ middle parent draft, world.Paved path.Above middle ∧
    middle.Drafts temporary parent draft content now
  littered temporary now := ∃ middle parent draft bytes, world.Paved path.Above middle ∧
    middle.Drafts temporary parent draft bytes now
  failed now := ∃ middle, world.Paved path.Above middle ∧ World.Littered carried middle path now

theorem ensures_replace_whole (plain : world.PlainBeside path) :
    Attempt.Ensures (World.Obliges carried) (fun _ _ => True) (replaceBytes path content) world
      (Ends carried world path content) := by
  refine ensures_replaceBytes (drafting carried world path content)
    (fun failure now ⟨middle,paved,littered⟩ => ends_of_littered paved littered failure)
    ?folder (fun _ later paved => ⟨later,paved,.inl rfl⟩) ?create ?write ?rename ?remove
  case folder =>
    refine (asks_ensureFolderOf path).paved.mono fun made middle paved => ?_
    cases made with
    | error failure => exact ⟨middle,paved,.inl rfl⟩
    | ok done => exact paved
  case create =>
    intro temporary named middle paved
    refine .request trivial fun created first answered => ?_
    rcases World.Drafts.of_create (plain temporary middle named paved) answered.1 with
      ⟨⟨cause,rfl⟩,still⟩ | ⟨rfl,parent,draft,drafts⟩
    · exact ⟨middle,paved,.inl (by rw [still.2])⟩
    · exact ⟨middle,parent,draft,paved,drafts⟩
  case write =>
    rintro temporary - now ⟨middle,parent,draft,paved,drafts⟩
    refine .request trivial fun written second answered => ?_
    obtain ⟨part,drafts,whole⟩ := drafts.write answered.1
    cases written with
    | error cause => exact ⟨middle,parent,draft,part,paved,drafts⟩
    | ok value =>
      obtain rfl := whole rfl
      exact ⟨middle,parent,draft,paved,drafts⟩
  case rename =>
    rintro temporary named now ⟨middle,parent,draft,paved,drafts⟩
    refine .request trivial fun renamed third answered => ?_
    rcases drafts.rename named answered.1 with ⟨⟨cause,rfl⟩,still⟩ | ⟨rfl,target,replaced⟩
    · exact ⟨middle,parent,draft,content,paved,drafts.still still⟩
    · exact ⟨middle,paved,temporary,target,_,named,replaced⟩
  case remove =>
    rintro temporary named now ⟨middle,parent,draft,bytes,paved,drafts⟩
    exact .request trivial fun reply later answered => ⟨middle,paved,drafts.remove named answered⟩

/-- Nothing at all but the root. -/
def bareWorld : World := { (default : World) with disk := .empty, base := [] }

/-- A path that goes through a folder that is missing, out of it, and on to that folder itself. The folder
is made on the way, and is then where the file was to be. -/
theorem replace_makes_folder : ∃ failure later,
    (replaceBytes ⟨"b/../b".toList⟩ (encodeText "x".toList)).toProcedure.run bareWorld = (.error failure,later) ∧
      bareWorld.Grounded ∧ bareWorld.entry ⟨"b/../b".toList⟩ = none ∧ later.entry ⟨"b/../b".toList⟩ = some .folder := by
  have failed : (replaceBytes ⟨"b/../b".toList⟩ (encodeText "x".toList)).toProcedure.run bareWorld =
      (.error (.file "replace" ⟨"b/../b".toList⟩ .isDirectory),
        { bareWorld with disk := ⟨[([['b']],.folder)]⟩ }) := by cbv
  exact ⟨_,_,failed,Disk.grounded_of_files (by simp [bareWorld,Disk.empty]),rfl,rfl⟩

end Attempt

open Attempt in
/-- On any machine a file is replaced as a whole or left alone. -/
theorem Machine.replace_whole {σ : Type} {carried : Request → Prop} (machine : Machine carried σ) (state : World × σ)
    (path : Path) (content : ByteArray) (plain : state.1.PlainBeside path) :
    Ends carried state.1 path content (machine.run (replaceBytes path content).toProcedure state).1
      (machine.run (replaceBytes path content).toProcedure state).2.1 :=
  machine.attempt_ensures state (ensures_replace_whole plain)

open Attempt in
/-- A file in a folder that is still to be made, with a content that is not text. -/
theorem Machine.replace_whole_bare : ∃ later,
    (sound fun _ => True).run (replaceBytes ⟨"d/f".toList⟩ ⟨#[255]⟩).toProcedure (bareWorld,()) = (.ok (),later,()) ∧
      Ends (fun _ => True) bareWorld ⟨"d/f".toList⟩ ⟨#[255]⟩ (.ok ()) later := by
  have done : (sound fun _ => True).run (replaceBytes ⟨"d/f".toList⟩ ⟨#[255]⟩).toProcedure (bareWorld,()) = (.ok (),
      { bareWorld with disk := ⟨[([['d']],.folder),([['f'],['d']],.file ⟨#[255]⟩)]⟩ },()) := by cbv
  have ends := replace_whole (sound fun _ => True) (bareWorld,()) ⟨"d/f".toList⟩ ⟨#[255]⟩
    (World.plainBeside_of_linkless (by simp [bareWorld,Disk.find,Disk.empty]) _)
  rw [done] at ends
  exact ⟨_,done,ends⟩

end StyleHoist
