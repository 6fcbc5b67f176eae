import StyleHoist.Registry
import StyleHoist.Markup.TagEdit

/-! A document with its inline styles turned into classes. Attributes are taken
in document order and grouped by tag; each tag is edited once, and the text
between tags is copied as it is. -/
namespace StyleHoist.Markup

/-- One tag edit as applied. -/
structure AppliedEdit where
  /-- The tag in the document read. -/
  source : Span
  /-- The tag in the document written. -/
  target : Span
  classes : List ClassId
deriving DecidableEq, Repr

structure Outcome where
  text : Text
  edits : List AppliedEdit
  /-- Classes made for this document. -/
  allocated : List Binding
  /-- Attributes turned into a class that was there before. -/
  reused : Nat
  /-- Attributes removed because they declared nothing. -/
  stripped : Nat
  warnings : List Warning
deriving DecidableEq, Repr

def Outcome.changed (outcome : Outcome) : Bool := !outcome.edits.isEmpty

def Outcome.converted (outcome : Outcome) : Nat :=
  outcome.allocated.length + outcome.reused + outcome.stripped

inductive Obstacle where
  | collision (found : Collision)
  /-- A span does not fall on the characters of the text it is taken from. -/
  | outside
deriving DecidableEq, Repr

/-- The edits planned so far. The latest one is first. -/
structure Plan where
  edits : List TagEdit
  registry : Registry
  allocated : List Binding
  reused : Nat
  stripped : Nat
  overlaps : List Warning
deriving DecidableEq, Repr

namespace Plan

def start (registry : Registry) : Plan := ⟨[],registry,[],0,0,[]⟩

/-- Puts an attribute into the edit of its tag. There is no place for it if its tag
overlaps the one edited last. -/
def place? (edits : List TagEdit) (attr : StyleAttr) : Option (TagEdit × List TagEdit) :=
  match edits with
  | [] => some (TagEdit.ofStyle attr,[])
  | last :: older =>
    if last.tag = attr.tag then some (last.addStyle attr,older)
    else if attr.tag.start < last.tag.stop then none
    else some (TagEdit.ofStyle attr,last :: older)

/-- Names the class of a declaration in the edit. -/
def assign (plan : Plan) (edit : TagEdit) (older : List TagEdit) (declaration : Declaration) :
    Except Collision Plan :=
  if declaration.isEmpty then
    .ok { plan with edits := edit :: older, stripped := plan.stripped + 1 }
  else do
    let (allocation,registry) ← plan.registry.allocate declaration
    let plan := { plan with edits := edit.addClass allocation.id :: older, registry := registry }
    if allocation.fresh then
      .ok { plan with allocated := plan.allocated ++ [⟨declaration,allocation.id⟩] }
    else .ok { plan with reused := plan.reused + 1 }

def add (document : Text) (plan : Plan) (attr : StyleAttr) : Except Obstacle Plan := do
  let some value := Text.slice? document attr.value | .error .outside
  match place? plan.edits attr with
  | none =>
    let some position := Position.locate? document attr.attr.start | .error .outside
    .ok { plan with overlaps := plan.overlaps ++ [⟨.unbounded,position⟩] }
  | some (edit,older) =>
    match plan.assign edit older (Declaration.normalize value) with
    | .ok next => .ok next
    | .error collision => .error (.collision collision)

/-- Plans attribute after attribute. The plan reached before an obstacle is kept beside it. -/
def addAll (document : Text) (plan : Plan) : List StyleAttr → Plan × Option Obstacle
  | [] => (plan,none)
  | attr :: rest =>
    match plan.add document attr with
    | .ok next => addAll document next rest
    | .error obstacle => (plan,some obstacle)

end Plan

/-- Copies a document, which starts at `offset`, with its tags exchanged. Edits are in
document order; `written` is the number of bytes already written. -/
def assemble? (document rest : Text) (offset written : Nat) :
    List TagEdit → Option (Text × List AppliedEdit)
  | [] => some (rest,[])
  | edit :: later => do
    let (between,_) ← Text.cut? rest (edit.tag.start - offset)
    let (_,after) ← Text.cut? rest (edit.tag.stop - offset)
    let replacement ← edit.render? document
    let start := written + Text.byteSize between
    let stop := start + Text.byteSize replacement
    let (text,applied) ← assemble? document after edit.tag.stop stop later
    some (between ++ replacement ++ text,⟨edit.tag,⟨start,stop⟩,edit.add⟩ :: applied)

/-- Hoists the styles at the given items of a document's scan, in any order. The registry is
returned in any case: what was allocated before an obstacle stays. -/
def hoistItems (document : Text) (items : List Item) (registry : Registry) :
    Except Obstacle Outcome × Registry :=
  let attrs := (items.filterMap Item.style?).mergeSort fun a b => a.attr.start ≤ b.attr.start
  match (Plan.start registry).addAll document attrs with
  | (plan,some obstacle) => (.error obstacle,plan.registry)
  | (plan,none) =>
    match assemble? document document 0 0 plan.edits.reverse with
    | none => (.error .outside,plan.registry)
    | some (text,edits) =>
      (.ok {
        text := text
        edits := edits
        allocated := plan.allocated
        reused := plan.reused
        stripped := plan.stripped
        warnings := items.filterMap Item.warning? ++ plan.overlaps },plan.registry)

/-- Turns every inline style of a document into classes. -/
def hoist (document : Text) (registry : Registry) : Except Obstacle Outcome × Registry :=
  hoistItems document (scan document) registry

end StyleHoist.Markup
