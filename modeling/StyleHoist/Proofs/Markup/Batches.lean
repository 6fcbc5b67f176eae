import StyleHoist.Proofs.Markup.Alongside
import StyleHoist.Proofs.Markup.Styles

/-! Documents taken in batches. Each batch starts from the stylesheet that the one
before has left. Neither the order of the documents nor the way they are cut into
batches matters to any document, or to what the stylesheet says in the end. -/
namespace StyleHoist.Markup

open Registry

variable {classPrefix comment css final : Text} {documents : List Text} {batches : List (List Text)}
  {registry last full : Registry} {outcomes : List Outcome}

/-- Hoists documents with the classes of a stylesheet, and appends to it the rules made. -/
def hoistBatch (classPrefix comment css : Text) (documents : List Text) :
    Except Obstacle (List Outcome × Text) :=
  match Stylesheet.seed classPrefix css with
  | .error collision => .error (.collision collision)
  | .ok registry =>
    match hoistAll registry documents with
    | .error obstacle => .error obstacle
    | .ok (outcomes,last) => .ok (outcomes,Stylesheet.extend css comment last.pending)

def hoistBatches (classPrefix comment css : Text) :
    List (List Text) → Except Obstacle (List Outcome × Text)
  | [] => .ok ([],css)
  | batch :: rest =>
    match hoistBatch classPrefix comment css batch with
    | .error obstacle => .error obstacle
    | .ok (outcomes,next) =>
      match hoistBatches classPrefix comment next rest with
      | .error obstacle => .error obstacle
      | .ok (others,final) => .ok (outcomes ++ others,final)

theorem hoistBatch_eq_ok (hoisted : hoistBatch classPrefix comment css documents = .ok (outcomes,final)) :
    ∃ registry last, Stylesheet.seed classPrefix css = .ok registry ∧
      hoistAll registry documents = .ok (outcomes,last) ∧
      final = Stylesheet.extend css comment last.pending := by
  unfold hoistBatch at hoisted
  split at hoisted
  next => contradiction
  next registry seeded =>
    split at hoisted
    next => contradiction
    next outcomes last run =>
      cases hoisted
      exact ⟨registry,last,seeded,run,rfl⟩

theorem hoistBatches_cons_ok {batch : List Text} :
    hoistBatches classPrefix comment css (batch :: batches) = .ok (outcomes,final) ↔
      ∃ front next back, hoistBatch classPrefix comment css batch = .ok (front,next) ∧
        hoistBatches classPrefix comment next batches = .ok (back,final) ∧ outcomes = front ++ back := by
  rw [hoistBatches]
  cases first : hoistBatch classPrefix comment css batch with
  | error obstacle => simp
  | ok result =>
    obtain ⟨front,next⟩ := result
    cases second : hoistBatches classPrefix comment next batches with
    | error obstacle => simp [second]
    | ok rest => simp [second,Prod.ext_iff,eq_comm,and_comm]

theorem seed_extend_of_hoistAll (valid : Config.isValidPrefix classPrefix = true)
    (oneLine : '\n' ∉ comment) (seeded : Stylesheet.seed classPrefix css = .ok registry)
    (hoisted : hoistAll registry documents = .ok (outcomes,last)) :
    Stylesheet.seed classPrefix (Stylesheet.extend css comment last.pending) =
      .ok { last with pending := [] } := by
  obtain ⟨-,⟨ids,replayed⟩,-⟩ := hoistAll_spec (Stylesheet.sound_of_seed seeded) hoisted
  obtain ⟨added,grown,fresh,-⟩ := Piece.growth_of_allocateAll replayed
  have printable : ∀ binding ∈ added, Stylesheet.Printable classPrefix binding := by
    intro binding member
    have derived := grown.derived member
    rw [Stylesheet.classPrefix_of_seed seeded] at derived
    have mapped := List.mem_map_of_mem (f := (·.declaration)) member
    rw [fresh,List.mem_eraseDups] at mapped
    exact ⟨derived,canonical_of_mem_declaredAll (List.mem_of_mem_filter mapped)⟩
  exact (Stylesheet.seed_extend_of_growth (Stylesheet.lineFeed_not_mem_of_isValidPrefix valid) seeded
    oneLine grown printable).2

theorem within_of_hoistAll (hoisted : hoistAll registry documents = .ok (outcomes,last)) :
    registry.Within last := by
  induction documents generalizing registry outcomes with
  | nil =>
    cases hoisted
    exact .refl _
  | cons document rest ih =>
    obtain ⟨outcome,next,later,first,second,rfl⟩ := hoistAll_cons_ok hoisted
    exact (within_of_hoist first).trans (ih second)

theorem settled_of_hoistAll (sound : full.Sound)
    (hoisted : hoistAll registry documents = .ok (outcomes,last)) (inside : last.Within full) :
    List.Forall₂ (Settled full) documents outcomes := by
  induction documents generalizing registry outcomes with
  | nil =>
    cases hoisted
    exact .nil
  | cons document rest ih =>
    obtain ⟨outcome,next,later,first,second,rfl⟩ := hoistAll_cons_ok hoisted
    exact .cons (settled_of_hoist sound first ((within_of_hoistAll second).trans inside)) (ih second)

theorem hoistAll_of_settled (sound : full.Sound) (within : registry.Within full)
    (settled : ∀ document ∈ documents, ∃ outcome, Settled full document outcome) :
    ∃ outcomes last, hoistAll registry documents = .ok (outcomes,last) ∧ last.Within full := by
  induction documents generalizing registry with
  | nil => exact ⟨[],registry,rfl,within⟩
  | cons document rest ih =>
    obtain ⟨outcome,known⟩ := settled document List.mem_cons_self
    obtain ⟨own,next,first,inner⟩ := hoist_of_settled sound within known
    obtain ⟨outcomes,last,second,inside⟩ :=
      ih inner fun other member => settled other (List.mem_cons_of_mem _ member)
    exact ⟨own :: outcomes,last,by simp only [hoistAll,first,second],inside⟩

def Outcome.written (outcome : Outcome) : Text × List AppliedEdit := (outcome.text,outcome.edits)

/-- What becomes of a document with every class known, if it can be hoisted. -/
def written (full : Registry) (document : Text) : Text × List AppliedEdit :=
  match (hoist document full).1 with
  | .ok outcome => outcome.written
  | .error _ => (document,[])

theorem map_written (settled : List.Forall₂ (Settled full) documents outcomes) :
    documents.map (written full) = outcomes.map Outcome.written := by
  induction settled with
  | nil => rfl
  | cons head _ ih =>
    obtain ⟨other,hoisted,text,edits⟩ := head
    simp only [List.map_cons,ih,written,hoisted,Outcome.written,text,edits]

section Batches

variable (valid : Config.isValidPrefix classPrefix = true) (oneLine : '\n' ∉ comment)

include valid oneLine

theorem seed_of_hoistBatches (seeded : Stylesheet.seed classPrefix css = .ok registry)
    (hoisted : hoistBatches classPrefix comment css batches = .ok (outcomes,final)) :
    ∃ last, Stylesheet.seed classPrefix final = .ok last ∧ registry.Within last := by
  induction batches generalizing css registry outcomes with
  | nil =>
    cases hoisted
    exact ⟨registry,seeded,.refl _⟩
  | cons batch rest ih =>
    obtain ⟨front,next,back,first,second,rfl⟩ := hoistBatches_cons_ok.mp hoisted
    obtain ⟨other,middle,same,run,rfl⟩ := hoistBatch_eq_ok first
    cases seeded.symm.trans same
    obtain ⟨last,reseeded,within⟩ := ih (seed_extend_of_hoistAll valid oneLine seeded run) second
    exact ⟨last,reseeded,(within_of_hoistAll run).trans within.of_cleared⟩

/-- Batches that succeed leave each document as hoisting it with every class known does. -/
theorem settled_of_hoistBatches (sound : full.Sound)
    (seeded : Stylesheet.seed classPrefix css = .ok registry)
    (hoisted : hoistBatches classPrefix comment css batches = .ok (outcomes,final))
    (reseeded : Stylesheet.seed classPrefix final = .ok last) (inside : last.Within full) :
    List.Forall₂ (Settled full) batches.flatten outcomes := by
  induction batches generalizing css registry outcomes with
  | nil =>
    cases hoisted
    exact .nil
  | cons batch rest ih =>
    obtain ⟨front,next,back,first,second,rfl⟩ := hoistBatches_cons_ok.mp hoisted
    obtain ⟨other,middle,same,run,rfl⟩ := hoistBatch_eq_ok first
    cases seeded.symm.trans same
    have between := seed_extend_of_hoistAll valid oneLine seeded run
    obtain ⟨finish,again,within⟩ := seed_of_hoistBatches valid oneLine between second
    cases reseeded.symm.trans again
    have settled := settled_of_hoistAll sound run (within.of_cleared.trans inside)
    exact List.rel_append settled (ih between second)

/-- Batches of documents that can be hoisted with every class known succeed. -/
theorem hoistBatches_of_settled (sound : full.Sound)
    (seeded : Stylesheet.seed classPrefix css = .ok registry) (within : registry.Within full)
    (settled : ∀ document ∈ batches.flatten, ∃ outcome, Settled full document outcome) :
    ∃ outcomes final last, hoistBatches classPrefix comment css batches = .ok (outcomes,final) ∧
      Stylesheet.seed classPrefix final = .ok last ∧ last.Within full := by
  induction batches generalizing css registry with
  | nil => exact ⟨[],css,registry,rfl,seeded,within⟩
  | cons batch rest ih =>
    obtain ⟨front,middle,run,inner⟩ := hoistAll_of_settled sound within fun document member =>
      settled document (List.mem_append_left _ member)
    have between := seed_extend_of_hoistAll valid oneLine seeded run
    obtain ⟨back,final,last,second,reseeded,inside⟩ := ih between inner.cleared fun document member =>
      settled document (List.mem_append_right _ member)
    have first : hoistBatch classPrefix comment css batch =
        .ok (front,Stylesheet.extend css comment middle.pending) := by
      simp only [hoistBatch,seeded,run]
    exact ⟨_,final,last,hoistBatches_cons_ok.mpr ⟨front,_,back,first,second,rfl⟩,reseeded,inside⟩

/-- If the batches succeed, so do others with the same documents, and they make nothing known
that the first ones did not. -/
theorem hoistBatches_within {others : List (List Text)} (seeded : Stylesheet.seed classPrefix css = .ok registry)
    (same : ∀ document ∈ others.flatten, document ∈ batches.flatten)
    (hoisted : hoistBatches classPrefix comment css batches = .ok (outcomes,final))
    (reseeded : Stylesheet.seed classPrefix final = .ok last) :
    ∃ more finish next, hoistBatches classPrefix comment css others = .ok (more,finish) ∧
      Stylesheet.seed classPrefix finish = .ok next ∧ next.Within last := by
  have sound := Stylesheet.sound_of_seed reseeded
  have settled := settled_of_hoistBatches valid oneLine sound seeded hoisted reseeded (.refl _)
  obtain ⟨finish,again,within⟩ := seed_of_hoistBatches valid oneLine seeded hoisted
  cases reseeded.symm.trans again
  apply hoistBatches_of_settled valid oneLine sound seeded within
  intro document member
  obtain ⟨outcome,-,known⟩ := exists_of_forall₂ settled document (same document member)
  exact ⟨outcome,known⟩

end Batches

/-- Neither order nor batches matter: if documents can be hoisted in one arrangement, they can in
any other, each document comes out alike, and the stylesheets written in the end have the same
class for every declaration. -/
theorem hoistBatches_perm {first second : List (List Text)}
    (valid : Config.isValidPrefix classPrefix = true)
    (seedable : ∃ registry, Stylesheet.seed classPrefix css = .ok registry) (oneLine : '\n' ∉ comment)
    (same : first.flatten.Perm second.flatten)
    (hoisted : hoistBatches classPrefix comment css first = .ok (outcomes,final)) :
    ∃ others finish, hoistBatches classPrefix comment css second = .ok (others,finish) ∧
      (∃ result, first.flatten.map result = outcomes.map Outcome.written ∧
        second.flatten.map result = others.map Outcome.written) ∧
      ∃ registry other, Stylesheet.seed classPrefix final = .ok registry ∧
        Stylesheet.seed classPrefix finish = .ok other ∧
        ∀ declaration, registry.lookup declaration = other.lookup declaration := by
  obtain ⟨start,seeded⟩ := seedable
  obtain ⟨last,reseeded,-⟩ := seed_of_hoistBatches valid oneLine seeded hoisted
  obtain ⟨others,finish,next,again,seededAgain,inside⟩ :=
    hoistBatches_within valid oneLine seeded (fun _ member => same.mem_iff.mpr member) hoisted reseeded
  -- The first arrangement, taken as the second one's other arrangement, gives the converse.
  obtain ⟨_,_,back,once,seededBack,around⟩ :=
    hoistBatches_within valid oneLine seeded (fun _ member => same.mem_iff.mp member) again seededAgain
  cases hoisted.symm.trans once
  cases reseeded.symm.trans seededBack
  have sound := Stylesheet.sound_of_seed reseeded
  have settled := settled_of_hoistBatches valid oneLine sound seeded hoisted reseeded (.refl _)
  have alike := settled_of_hoistBatches valid oneLine sound seeded again seededAgain inside
  exact ⟨others,finish,again,⟨written last,map_written settled,map_written alike⟩,last,next,reseeded,
    seededAgain,Registry.Within.lookup_eq sound (Stylesheet.sound_of_seed seededAgain) around inside⟩

/-- Two documents with a declaration each, in one batch and, the other way round, in two. -/
theorem hoistBatches_perm_two :
    let first : Text := "<p style=\"a:1\">".toList
    let second : Text := "<b style=\"b:2\">x".toList
    ∃ outcomes final, hoistBatches "inl-".toList "new".toList [] [[first,second]] = .ok (outcomes,final) ∧
      ∃ others finish, hoistBatches "inl-".toList "new".toList [] [[second],[first]] = .ok (others,finish) ∧
        (∃ result, [first,second].map result = outcomes.map Outcome.written ∧
          [second,first].map result = others.map Outcome.written) ∧
        ∃ registry other, Stylesheet.seed "inl-".toList final = .ok registry ∧
          Stylesheet.seed "inl-".toList finish = .ok other ∧
          ∀ declaration, registry.lookup declaration = other.lookup declaration := by
  intro first second
  let start := Registry.empty "inl-".toList
  let red := start.fresh (Declaration.normalize "a:1".toList)
  let blue := start.fresh (Declaration.normalize "b:2".toList)
  let tag : Tag := ⟨"p".toList,[⟨[' '],"style".toList,some "a:1".toList⟩],[],false⟩
  let other : Tag := ⟨"b".toList,[⟨[' '],"style".toList,some "b:2".toList⟩],[],false⟩
  have seeded : Stylesheet.seed "inl-".toList [] = .ok start := by
    rw [Stylesheet.seed_eq_ok_iff,Stylesheet.bindings_nil]
    rfl
  have before : Piece.restyleAll start [.tag tag] =
      .ok ([.tag (tag.restyle [red.id])],start.append red) := rfl
  have after : Piece.restyleAll (start.append red) [.tag other,.text ['x']] =
      .ok ([.tag (other.restyle [blue.id]),.text ['x']],(start.append red).append blue) := by
    decide +kernel
  obtain ⟨one,hoisted,-⟩ := hoist_of_restyleAll (by decide) before
  obtain ⟨two,later,-⟩ := hoist_of_restyleAll (by decide) after
  have firstPrinted : Piece.printAll [.tag tag] = first := by decide
  have secondPrinted : Piece.printAll [.tag other,.text ['x']] = second := by decide
  rw [firstPrinted] at hoisted
  rw [secondPrinted] at later
  have run : hoistBatches "inl-".toList "new".toList [] [[first,second]] =
      .ok ([one,two],Stylesheet.extend [] "new".toList [red,blue]) := by
    simp only [hoistBatches,hoistBatch,seeded,hoistAll,hoisted,later]
    rfl
  have swapped : [[first,second]].flatten.Perm [[second],[first]].flatten := List.Perm.swap second first []
  exact ⟨_,_,run,hoistBatches_perm (by decide) ⟨start,seeded⟩ (by decide) swapped run⟩

end StyleHoist.Markup
