import StyleHoist.Conversion.Run
import StyleHoist.Proofs.Conversion.Planning
import StyleHoist.Proofs.Conversion.Reading
import StyleHoist.Proofs.Plain.Refinement

/-! Writing a conversion, which may fail or be interrupted anywhere. No file is
seen half written, and no document names a class whose rule is not yet in the
stylesheet. -/
namespace StyleHoist

open Attempt Markup

/-- The paths that are written for a document: its own, its backup's and its temporary's. -/
def DocumentPlan.paths (suffix : Text) (document : DocumentPlan) : List Path :=
  document.path :: backupPath document.path suffix :: (temporary? document.path).toList

namespace Conversion

variable {project : Project} {conversion : Conversion} {suffix : Text} {backup : Bool} {base : Place}
  {document : DocumentPlan} {rest : List DocumentPlan} {start now later : World}

def paths (suffix : Text) (conversion : Conversion) : List Path :=
  conversion.stylesheetPath :: (temporary? conversion.stylesheetPath).toList ++
    conversion.documents.flatMap (·.paths suffix)

/-- What is written are different files, none of them a folder around another. -/
structure Apart (conversion : Conversion) (suffix : Text) (base : Place) : Prop where
  distinct : ((conversion.paths suffix).map (·.place base)).Nodup
  aside : ∀ path ∈ conversion.paths suffix, ∀ other ∈ conversion.paths suffix, ∀ folder, path.Above folder →
    folder.place base ≠ other.place base

/-- The stylesheet, as it is now, has a rule for a binding. -/
def Defined (conversion : Conversion) (now : World) (binding : Binding) : Prop :=
  ∃ sheet, now.entry conversion.stylesheetPath = some (.file (encodeText sheet)) ∧ Stylesheet.States sheet binding

/-- There is a backup of a document, made from what was there at the start unless it is older. -/
def Kept (suffix : Text) (start now : World) (document : DocumentPlan) : Prop :=
  (∃ entry, now.entry (backupPath document.path suffix) = some entry) ∧
    (start.entry (backupPath document.path suffix) = none →
      now.entry (backupPath document.path suffix) = start.entry document.path)

/-- What may be seen of the files at any time. Each is as at the start or as planned, and what a
changed document needs is there. -/
structure Intact (conversion : Conversion) (suffix : Text) (backup : Bool) (start now : World) : Prop where
  stylesheet : now.entry conversion.stylesheetPath = start.entry conversion.stylesheetPath ∨
    now.entry conversion.stylesheetPath = some (.file (encodeText conversion.stylesheet))
  documents : ∀ document ∈ conversion.documents, now.entry document.path = start.entry document.path ∨
    now.entry document.path = some (.file (encodeText document.outcome.text)) ∧
      (∀ binding ∈ conversion.added, conversion.Defined now binding) ∧
      (backup = true → Kept suffix start now document)

/-- The state between two documents: those that are left have not been touched. -/
structure Ready (conversion : Conversion) (suffix : Text) (backup : Bool) (start : World)
    (rest : List DocumentPlan) (now : World) : Prop where
  ground : now.Grounded
  base : now.base = start.base
  intact : conversion.Intact suffix backup start now
  defined : ∀ binding ∈ conversion.added, conversion.Defined now binding
  untouched : ∀ document ∈ rest, now.entry document.path = start.entry document.path ∧
    now.entry (backupPath document.path suffix) = start.entry (backupPath document.path suffix)

theorem disjoint_paths (nodup : (conversion.paths suffix).Nodup) (member : document ∈ conversion.documents)
    {other : DocumentPlan} (among : other ∈ conversion.documents) (different : other ≠ document) {path : Path}
    (own : path ∈ other.paths suffix) : path ∉ document.paths suffix := by
  have parts := (List.nodup_append.mp nodup).2.1
  have symmetric : Std.Symm (Function.onFun List.Disjoint fun document : DocumentPlan => document.paths suffix) :=
    ⟨fun _ _ disjoint _ first second => disjoint second first⟩
  have disjoint := (List.nodup_flatMap.mp parts).2.forall among member different
  exact fun shared => disjoint own shared

theorem mem_paths {path : Path} (member : document ∈ conversion.documents) (own : path ∈ document.paths suffix) :
    path ∈ conversion.paths suffix :=
  List.mem_append_right _ (List.mem_flatMap.mpr ⟨document,member,own⟩)

namespace Apart

theorem eq_of_place (apart : conversion.Apart suffix base) {path other : Path} (first : path ∈ conversion.paths suffix)
    (second : other ∈ conversion.paths suffix) (same : path.place base = other.place base) : path = other :=
  List.inj_on_of_nodup_map apart.distinct first second same

theorem nodup (apart : conversion.Apart suffix base) : (conversion.paths suffix).Nodup :=
  .of_map _ apart.distinct

theorem entry_eq (apart : conversion.Apart suffix base) (here : now.base = base) {touched : Place → Prop}
    {ways : Path → Prop} (within : now.Within touched ways later) {own : List Path}
    (touches : ∀ place, touched place → ∃ path ∈ own, path.place base = place)
    (inside : own ⊆ conversion.paths suffix)
    (leads : ∀ folder, ways folder → ∃ path ∈ conversion.paths suffix, path.Above folder)
    {path : Path} (member : path ∈ conversion.paths suffix) (other : path ∉ own) :
    later.entry path = now.entry path := by
  subst here
  refine within.entry (fun hit => ?_) fun folder way => ?_
  · obtain ⟨written,among,same⟩ := touches _ hit
    exact other (apart.eq_of_place (inside among) member same ▸ among)
  · obtain ⟨written,among,above⟩ := leads folder way
    exact apart.aside written among path member folder above

theorem nodup_documents (apart : conversion.Apart suffix base) : conversion.documents.Nodup := by
  have parts := (List.nodup_append.mp apart.nodup).2.1
  refine (List.nodup_flatMap.mp parts).2.imp fun {first second} disjoint same => ?_
  exact disjoint (a := first.path) List.mem_cons_self (same ▸ List.mem_cons_self)

theorem stylesheet_notMem (apart : conversion.Apart suffix base) (member : document ∈ conversion.documents) :
    conversion.stylesheetPath ∉ document.paths suffix := by
  intro own
  have parts := (List.nodup_append.mp apart.nodup).2.2
  exact parts _ List.mem_cons_self _ (List.mem_flatMap.mpr ⟨document,member,own⟩) rfl

theorem notMem_of_ne (apart : conversion.Apart suffix base) (member : document ∈ conversion.documents)
    {other : DocumentPlan} (among : other ∈ conversion.documents) (different : other ≠ document) {path : Path}
    (own : path ∈ other.paths suffix) : path ∉ document.paths suffix :=
  disjoint_paths apart.nodup member among different own

theorem nodup_paths (apart : conversion.Apart suffix base) (member : document ∈ conversion.documents) :
    (document.paths suffix).Nodup :=
  (List.nodup_flatMap.mp (List.nodup_append.mp apart.nodup).2.1).1 document member

theorem temporary_ne_stylesheet (apart : conversion.Apart suffix base) {temporary : Path}
    (named : temporary? conversion.stylesheetPath = some temporary) :
    temporary.place base ≠ conversion.stylesheetPath.place base := by
  intro same
  have beside : temporary ∈ (temporary? conversion.stylesheetPath).toList := by simp [named]
  have equal := apart.eq_of_place (List.mem_append_left _ (List.mem_cons_of_mem _ beside)) List.mem_cons_self same
  exact (List.nodup_cons.mp (List.nodup_append.mp apart.nodup).1).1 (equal ▸ beside)

/-- The backup and the temporary of a document are files of their own. -/
theorem beside_ne (apart : conversion.Apart suffix base) (member : document ∈ conversion.documents) {path : Path}
    (beside : path ∈ backupPath document.path suffix :: (temporary? document.path).toList) :
    path.place base ≠ document.path.place base := by
  intro same
  have equal := apart.eq_of_place (mem_paths member (List.mem_cons_of_mem _ beside)) (mem_paths member List.mem_cons_self) same
  exact (List.nodup_cons.mp (apart.nodup_paths member)).1 (equal ▸ beside)

end Apart

/-- The places at which something is written for a document. -/
def DocumentPlan.places (suffix : Text) (base : Place) (document : DocumentPlan) (place : Place) : Prop :=
  ∃ path ∈ document.paths suffix, path.place base = place

theorem places_of_replacing (suffix : Text) {place : Place} (hit : replacing document.path base place) :
    DocumentPlan.places suffix base document place := by
  rcases hit with same | ⟨temporary,named,same⟩
  · exact ⟨_,List.mem_cons_self,same⟩
  · exact ⟨temporary,by simp [DocumentPlan.paths,named],same⟩

theorem Intact.still (intact : conversion.Intact suffix backup start now) (still : now.Still later) :
    conversion.Intact suffix backup start later := by
  have same := still.entry
  constructor
  · rw [same]
    exact intact.stylesheet
  · intro document member
    rw [same]
    refine (intact.documents document member).imp_right fun ⟨written,defined,kept⟩ => ⟨written,?_,?_⟩
    · simpa only [Defined,same] using defined
    · simpa only [Kept,same] using kept

theorem Ready.still (ready : conversion.Ready suffix backup start rest now) (still : now.Still later) :
    conversion.Ready suffix backup start rest later where
  ground := by
    rw [World.Grounded,still.1,still.2]
    exact ready.ground
  base := still.1.trans ready.base
  intact := ready.intact.still still
  defined := by simpa only [Defined,still.entry] using ready.defined
  untouched := by simpa only [still.entry] using ready.untouched

section

variable (apart : conversion.Apart suffix start.base)

include apart

theorem entry_document (within : start.Within (replacing conversion.stylesheetPath start.base)
      conversion.stylesheetPath.Above later) {path : Path} (member : document ∈ conversion.documents)
    (own : path ∈ document.paths suffix) : later.entry path = start.entry path := by
  have inside : conversion.stylesheetPath :: (temporary? conversion.stylesheetPath).toList ⊆ conversion.paths suffix :=
    fun path among => List.mem_append_left _ among
  refine apart.entry_eq rfl within ?_ inside ?_ (mem_paths member own) ?_
  · rintro place (same | ⟨temporary,named,same⟩)
    · exact ⟨_,List.mem_cons_self,same⟩
    · exact ⟨temporary,List.mem_cons_of_mem _ (by simp [named]),same⟩
  · exact fun folder above => ⟨_,inside List.mem_cons_self,above⟩
  · intro among
    exact (List.nodup_append.mp apart.nodup).2.2 _ among _ (List.mem_flatMap.mpr ⟨document,member,own⟩) rfl

theorem ensures_commitStylesheet (ground : start.Grounded)
    (stated : ∀ binding ∈ conversion.added, Stylesheet.States conversion.stylesheet binding) :
    Attempt.Ensures World.Answers (fun now _ => conversion.Intact suffix backup start now)
      (commitStylesheet project conversion) start
      (continues (fun _ later => conversion.Ready suffix backup start conversion.modified later)
        fun _ later => conversion.Intact suffix backup start later) := by
  have own : conversion.stylesheetPath ∈ conversion.paths suffix := List.mem_cons_self
  -- as long as the stylesheet alone is written, no document has changed
  have intact : ∀ later, start.Within (replacing conversion.stylesheetPath start.base)
      conversion.stylesheetPath.Above later →
      later.entry conversion.stylesheetPath = start.entry conversion.stylesheetPath ∨
        later.entry conversion.stylesheetPath = some (.file (encodeText conversion.stylesheet)) →
      conversion.Intact suffix backup start later := by
    intro later within sheet
    exact ⟨sheet,fun document member => .inl (entry_document apart within member List.mem_cons_self)⟩
  have ready : ∀ later, start.Within (replacing conversion.stylesheetPath start.base)
      conversion.stylesheetPath.Above later → conversion.Intact suffix backup start later →
      (∀ binding ∈ conversion.added, conversion.Defined later binding) →
      conversion.Ready suffix backup start conversion.modified later := by
    intro later within intact defined
    refine ⟨within.ground,within.base,intact,defined,fun document member => ?_⟩
    have among := (List.mem_filter.mp member).1
    exact ⟨entry_document apart within among List.mem_cons_self,
      entry_document apart within among (List.mem_cons_of_mem _ List.mem_cons_self)⟩
  rw [commitStylesheet]
  split
  next none =>
    have unchanged := World.Within.refl ground (replacing conversion.stylesheetPath start.base)
      conversion.stylesheetPath.Above
    have nothing : conversion.added = [] := List.isEmpty_iff.mp none
    refine ready start unchanged (intact start unchanged (.inl rfl)) fun binding member => ?_
    rw [nothing] at member
    cases member
  next =>
    simp only [ensures_bind,ensures_liftM]
    refine (ensures_replace ground ?_ ?_ intact).mono ?_
    · exact fun folder above => apart.aside _ own _ own folder above
    · exact fun temporary named => apart.temporary_ne_stylesheet named
    · rintro result later ⟨within,sheet⟩
      cases result with
      | error failure => exact intact later within (.inl sheet)
      | ok done =>
        have written := intact later within (.inr sheet)
        refine Procedure.ensures_say written fun last still => ?_
        exact (ready later within written fun binding member => ⟨_,sheet,stated binding member⟩).still still

theorem Ready.step (ready : conversion.Ready suffix backup start (document :: rest) now)
    (member : document ∈ conversion.documents)
    (same : ∀ path ∈ conversion.paths suffix, path ∉ document.paths suffix → later.entry path = now.entry path)
    (own : later.entry document.path = start.entry document.path ∨
      later.entry document.path = some (.file (encodeText document.outcome.text)) ∧
        (backup = true → Kept suffix start later document)) :
    conversion.Intact suffix backup start later ∧ ∀ binding ∈ conversion.added, conversion.Defined later binding := by
  have sheet := same _ List.mem_cons_self (apart.stylesheet_notMem member)
  have defined : ∀ binding ∈ conversion.added, conversion.Defined later binding := by
    simpa only [Defined,sheet] using ready.defined
  refine ⟨⟨?_,fun other among => ?_⟩,defined⟩
  · rw [sheet]
    exact ready.intact.stylesheet
  · by_cases this : other = document
    · subst this
      exact own.imp_right fun ⟨written,kept⟩ => ⟨written,defined,kept⟩
    · have apart' : ∀ path ∈ other.paths suffix, later.entry path = now.entry path :=
        fun path inside => same path (mem_paths among inside) (apart.notMem_of_ne member among this inside)
      have text := apart' other.path List.mem_cons_self
      have copy := apart' (backupPath other.path suffix) (List.mem_cons_of_mem _ List.mem_cons_self)
      rw [text]
      refine (ready.intact.documents other among).imp_right fun ⟨written,_,kept⟩ => ⟨written,defined,?_⟩
      simpa only [Kept,copy] using kept

/-- Once a document is done, those that are left are as they were. -/
theorem Ready.onwards (ready : conversion.Ready suffix backup start (document :: rest) now)
    (member : document ∈ conversion.documents)
    (others : ∀ other ∈ rest, other ∈ conversion.documents ∧ other ≠ document)
    (ground : later.Grounded) (base : later.base = start.base)
    (same : ∀ path ∈ conversion.paths suffix, path ∉ document.paths suffix → later.entry path = now.entry path)
    (intact : conversion.Intact suffix backup start later)
    (defined : ∀ binding ∈ conversion.added, conversion.Defined later binding) :
    conversion.Ready suffix backup start rest later := by
  refine ⟨ground,base,intact,defined,fun other among => ?_⟩
  obtain ⟨planned,different⟩ := others other among
  have own : ∀ path ∈ other.paths suffix, later.entry path = now.entry path := fun path belongs =>
    same path (mem_paths planned belongs) (apart.notMem_of_ne member planned different belongs)
  obtain ⟨text,copy⟩ := ready.untouched other (List.mem_cons_of_mem _ among)
  exact ⟨(own _ List.mem_cons_self).trans text,(own _ (List.mem_cons_of_mem _ List.mem_cons_self)).trans copy⟩

theorem entry_others (member : document ∈ conversion.documents) (here : now.base = start.base)
    (within : now.Within (DocumentPlan.places suffix now.base document) document.path.Above later) {path : Path}
    (among : path ∈ conversion.paths suffix) (other : path ∉ document.paths suffix) :
    later.entry path = now.entry path := by
  have inside : document.paths suffix ⊆ conversion.paths suffix := fun _ => mem_paths member
  refine apart.entry_eq here within ?_ inside (fun folder above => ?_) among other
  · rw [here]
    exact fun _ => id
  · exact ⟨_,inside List.mem_cons_self,above⟩

theorem entry_backup (member : document ∈ conversion.documents) (here : now.base = start.base)
    (within : now.Within (replacing document.path now.base) document.path.Above later) :
    later.entry (backupPath document.path suffix) = now.entry (backupPath document.path suffix) := by
  have inside : document.paths suffix ⊆ conversion.paths suffix := fun _ => mem_paths member
  have own := inside List.mem_cons_self
  obtain ⟨fresh,rest⟩ := List.nodup_cons.mp (apart.nodup_paths member)
  have touches : ∀ place, replacing document.path now.base place →
      ∃ path ∈ document.path :: (temporary? document.path).toList, path.place start.base = place := by
    rw [here]
    rintro place (same | ⟨temporary,named,same⟩)
    · exact ⟨_,List.mem_cons_self,same⟩
    · exact ⟨temporary,by simp [named],same⟩
  refine apart.entry_eq here within touches ?_ (fun folder above => ⟨_,own,above⟩)
    (inside (List.mem_cons_of_mem _ List.mem_cons_self)) ?_
  · exact List.cons_subset.mpr ⟨own,fun path among =>
      inside (List.mem_cons_of_mem _ (List.mem_cons_of_mem _ among))⟩
  · intro among
    rcases List.mem_cons.mp among with equal | among
    · exact fresh (List.mem_cons.mpr (.inl equal.symm))
    · exact (List.nodup_cons.mp rest).1 among

/-- While a document is replaced, and once it has been, nothing that belongs to the others has changed. -/
theorem entry_rewriting (member : document ∈ conversion.documents) (here : now.base = start.base) {first : World}
    (within : now.Within (DocumentPlan.places suffix now.base document) document.path.Above first)
    (replaced : first.Within (replacing document.path first.base) document.path.Above later) {path : Path}
    (among : path ∈ conversion.paths suffix) (other : path ∉ document.paths suffix) :
    later.entry path = now.entry path := by
  have onwards := replaced.widen (fun place => places_of_replacing suffix) fun _ => id
  rw [within.base] at onwards
  exact entry_others apart member here (within.trans onwards) among other

theorem Ready.rewriting (ready : conversion.Ready suffix backup start (document :: rest) now)
    (member : document ∈ conversion.documents) {first : World}
    (within : now.Within (DocumentPlan.places suffix now.base document) document.path.Above first)
    (original : first.entry document.path = start.entry document.path)
    (kept : backup = true → Kept suffix start first document)
    (replaced : first.Within (replacing document.path first.base) document.path.Above later)
    (text : later.entry document.path = first.entry document.path ∨
      later.entry document.path = some (.file (encodeText document.outcome.text))) :
    conversion.Intact suffix backup start later ∧ ∀ binding ∈ conversion.added, conversion.Defined later binding := by
  have here : first.base = start.base := within.base.trans ready.base
  refine ready.step apart member (fun path => entry_rewriting apart member ready.base within replaced) ?_
  refine text.imp (fun unchanged => unchanged.trans original) fun written => ⟨written,fun on => ?_⟩
  simpa only [Kept,entry_backup apart member here replaced] using kept on

theorem ensures_rewrite (member : document ∈ conversion.documents)
    (others : ∀ other ∈ rest, other ∈ conversion.documents ∧ other ≠ document)
    (ready : conversion.Ready suffix backup start (document :: rest) now) {first : World}
    (within : now.Within (DocumentPlan.places suffix now.base document) document.path.Above first)
    (original : first.entry document.path = start.entry document.path)
    (kept : backup = true → Kept suffix start first document) (made : Option Path) :
    Attempt.Ensures World.Answers (fun now _ => conversion.Intact suffix backup start now)
      (do replace document.path document.outcome.text
          Procedure.say ("Rewrote: " ++ document.name)
          pure made) first
      (continues (fun _ later => conversion.Ready suffix backup start rest later)
        fun _ later => conversion.Intact suffix backup start later) := by
  have here : first.base = start.base := within.base.trans ready.base
  have own : document.path ∈ conversion.paths suffix := mem_paths member List.mem_cons_self
  have step {later : World} := @Ready.rewriting conversion suffix backup document rest start now later apart ready member
    first within original kept
  simp only [ensures_bind,ensures_liftM]
  refine (ensures_replace within.ground ?_ ?_ fun later replaced text => (step replaced text).1).mono ?_
  · intro folder above
    rw [here]
    exact apart.aside _ own _ own folder above
  · intro temporary named
    rw [here]
    exact apart.beside_ne member (by simp [named])
  · rintro result later ⟨replaced,text⟩
    cases result with
    | error failure => exact (step replaced (.inl text)).1
    | ok done =>
      obtain ⟨intact,defined⟩ := step replaced (.inr text)
      have onwards := ready.onwards apart member others replaced.ground (replaced.base.trans here)
        (fun path => entry_rewriting apart member ready.base within replaced) intact defined
      exact Procedure.ensures_say intact fun last still => onwards.still still

/-- While the backup of a document is made, the document itself is as it was. -/
theorem Ready.backingUp (ready : conversion.Ready suffix backup start (document :: rest) now)
    (member : document ∈ conversion.documents)
    (within : now.Within ((backupPath document.path suffix).place now.base = ·) (fun _ => False) later) :
    now.Within (DocumentPlan.places suffix now.base document) document.path.Above later ∧
      later.entry document.path = start.entry document.path ∧ conversion.Intact suffix backup start later := by
  obtain ⟨text,-⟩ := ready.untouched document List.mem_cons_self
  have wide : now.Within (DocumentPlan.places suffix now.base document) document.path.Above later := by
    refine within.widen (fun place same => ?_) fun _ => False.elim
    exact ⟨_,List.mem_cons_of_mem _ List.mem_cons_self,same⟩
  have original : later.entry document.path = start.entry document.path := by
    refine (within.entry ?_ fun _ => False.elim).trans text
    rw [ready.base]
    exact apart.beside_ne member List.mem_cons_self
  have same {path : Path} := @entry_others conversion suffix document start now later apart member ready.base wide path
  exact ⟨wide,original,(ready.step apart member (fun path => same) (.inl original)).1⟩

theorem ensures_commitDocument (suffixed : project.config.backupSuffix = suffix)
    (member : document ∈ conversion.documents)
    (others : ∀ other ∈ rest, other ∈ conversion.documents ∧ other ≠ document)
    (ready : conversion.Ready suffix backup start (document :: rest) now) :
    Attempt.Ensures World.Answers (fun now _ => conversion.Intact suffix backup start now)
      (commitDocument project backup document) now
      (continues (fun _ later => conversion.Ready suffix backup start rest later)
        fun _ later => conversion.Intact suffix backup start later) := by
  obtain ⟨text,copy⟩ := ready.untouched document List.mem_cons_self
  have rewrites := fun first => @ensures_rewrite conversion suffix backup document rest start now apart member others
    ready first
  rw [commitDocument,suffixed]
  cases backup with
  | false =>
    simp only [Bool.false_eq_true,if_false]
    exact rewrites now (.refl ready.ground _ _) text nofun none
  | true =>
    simp only [if_true]
    rw [ensures_bind]
    refine (ensures_backUp ready.ground fun later within => (ready.backingUp apart member within).2.2).mono ?_
    rintro result first ⟨within,backed⟩
    obtain ⟨wide,original,intact⟩ := ready.backingUp apart member within
    cases result with
    | error failure => exact intact
    | ok made =>
      -- the backup is there before the document is replaced
      refine rewrites first wide original (fun _ => ?_) made
      obtain ⟨there,copied⟩ := backed made rfl
      refine ⟨there,fun vacant => ?_⟩
      rw [copied (copy.trans vacant),text]

theorem ensures_commit (suffixed : project.config.backupSuffix = suffix) (ground : start.Grounded)
    (stated : ∀ binding ∈ conversion.added, Stylesheet.States conversion.stylesheet binding) :
    Attempt.Ensures World.Answers (fun now _ => conversion.Intact suffix backup start now)
      (commit project conversion backup) start fun _ later => conversion.Intact suffix backup start later := by
  have nodup : conversion.modified.Nodup := apart.nodup_documents.filter _
  rw [commit]
  simp only [ensures_bind]
  refine (ensures_commitStylesheet apart ground stated).mono fun result first ends => ?_
  cases result with
  | error failure => exact ends
  | ok written =>
    rw [continues_ok]
    -- what is left of the documents is a part of them without repetition
    refine (ensures_mapM
      (fun rest _ now => (∀ document ∈ rest, document ∈ conversion.documents) ∧ rest.Nodup ∧
        conversion.Ready suffix backup start rest now)
      (fun _ now => conversion.Intact suffix backup start now) ?_ ⟨?_,nodup,ends⟩).mono fun result last ends => ?_
    · rintro document rest made state ⟨inside,distinct,ready⟩
      obtain ⟨fresh,distinct⟩ := List.nodup_cons.mp distinct
      have others : ∀ other ∈ rest, other ∈ conversion.documents ∧ other ≠ document := fun other among =>
        ⟨inside other (List.mem_cons_of_mem _ among),fun same => fresh (same ▸ among)⟩
      refine (ensures_commitDocument apart suffixed (inside document List.mem_cons_self) others ready).mono ?_
      intro result later ends
      cases result with
      | error failure => exact ends
      | ok made => exact ⟨fun other among => (others other among).1,distinct,ends⟩
    · exact fun document member => (List.mem_filter.mp member).1
    · cases result with
      | error failure => exact ends
      | ok made => exact ends.2.2.intact

end

theorem Intact.since {planned : World} (same : ∀ path, planned.entry path = start.entry path)
    (intact : conversion.Intact suffix backup planned now) : conversion.Intact suffix backup start now := by
  constructor
  · rw [← same]
    exact intact.stylesheet
  · intro document member
    rw [← same]
    refine (intact.documents document member).imp_right fun ⟨written,defined,kept⟩ => ⟨written,defined,?_⟩
    simpa only [Kept,same] using kept

/-- Wherever the writing of a plan stops or fails, each file is as it was when the plan was made or
as planned, and what is planned for a document is there only if what it needs is there too. -/
theorem commit_intact {paths : List Path} {planned : World} (ground : start.Grounded)
    (made : (plan project paths).toProcedure.run start = (.ok conversion,planned))
    (apart : conversion.Apart project.config.backupSuffix start.base)
    (reached : (commit project conversion backup).toProcedure.Reaches World.Answers planned now) :
    conversion.Intact project.config.backupSuffix backup start now := by
  have reading : (plan project paths).toProcedure.Ensures World.Answers (fun _ _ => True) start fun _ later =>
      start.Within (fun _ => False) (fun _ => False) later :=
    (asks_plan project paths).within ground fun _ _ => trivial
  have quiet := reading.run
  rw [made] at quiet
  have same : ∀ path, planned.entry path = start.entry path := fun path => quiet.entry id fun _ => False.elim
  obtain ⟨sources,drawn⟩ := ofSources_of_plan made
  rw [← show planned.base = start.base from quiet.base] at apart
  have safe : Attempt.Ensures World.Answers
      (fun now _ => conversion.Intact project.config.backupSuffix backup planned now)
      (commit project conversion backup) planned
      fun _ later => conversion.Intact project.config.backupSuffix backup planned later :=
    ensures_commit apart rfl quiet.ground fun binding => states_of_ofSources drawn
  exact Intact.since same (safe.reaches reached)

def loneProject : Project := ⟨⟨['/']⟩,⟨[]⟩,{ Config.default with stylesheet := ['s'],includes := [],excludes := [] }⟩

def loneText : Text := "<p style=\"a:1\">".toList

def loneWorld : World := { (default : World) with disk := ⟨[([['d']],.file (encodeText loneText))]⟩,base := [] }

theorem gather_lone : (Sources.gather loneProject [⟨['d']⟩]).toProcedure.run loneWorld =
    (.ok ⟨[],Registry.empty "inl-".toList,[⟨⟨"/d".toList⟩,"d",.ok loneText⟩]⟩,loneWorld) := by cbv

/-- A document in the root folder, beside a stylesheet that does not exist yet, and all of it written. -/
theorem commit_intact_root :
    ∃ conversion planned, (plan loneProject [⟨['d']⟩]).toProcedure.run loneWorld = (.ok conversion,planned) ∧
      conversion.modified.map (·.path) = [⟨"/d".toList⟩] ∧
      conversion.Intact "bak".toList true loneWorld
        ((commit loneProject conversion true).toProcedure.run planned).2 := by
  let registry := Registry.empty "inl-".toList
  let pieces : List Piece := [.tag ⟨"p".toList,[⟨[' '],"style".toList,some "a:1".toList⟩],[],false⟩]
  obtain ⟨others,last,restyled,different⟩ : ∃ others last, Piece.restyleAll registry pieces = .ok (others,last) ∧
      Piece.printAll others ≠ loneText := ⟨_,_,rfl,by decide⟩
  obtain ⟨outcome,hoisted,text,-⟩ := hoist_of_restyleAll (show Piece.arePlain pieces = true by decide) restyled
  rw [show Piece.printAll pieces = loneText by decide] at hoisted
  have changed : outcome.changed = true := by
    by_contra unchanged
    exact different (text.symm.trans (text_of_not_changed hoisted (by simpa using unchanged)))
  have run : hoistAll registry [loneText] = .ok ([outcome],last) := by simp only [hoistAll,hoisted]
  have made := (run_plan gather_lone).trans
    (congrArg (·,loneWorld) (ofSources_eq_ok.mpr ⟨[loneText],[outcome],last,rfl,run,rfl⟩))
  refine ⟨_,_,made,?_,commit_intact ?_ made ?_ (Procedure.reaches_run _ _)⟩
  · simp [modified,planned,changed]
  · exact Disk.grounded_of_files (by simp [loneWorld])
  · let files : List Path := ["/s","/.s.destyle.tmp","/d","/d.bak","/.d.destyle.tmp"].map Path.ofString
    have top : ∀ path ∈ files, path.parent? = some ⟨['/']⟩ := by decide
    refine ⟨show (files.map (·.place [])).Nodup by decide,fun path member other among folder above => ?_⟩
    cases above.eq_root (top path member)
    exact (show ∀ other ∈ files, [] ≠ other.place [] by decide) other among

end Conversion

end StyleHoist
