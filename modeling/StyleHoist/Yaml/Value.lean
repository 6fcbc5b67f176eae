import StyleHoist.Yaml.Node
import StyleHoist.Yaml.Scalar

/-! The value of a node. References are followed, tags are obeyed, and a
mapping has no key twice. -/
namespace StyleHoist.Yaml

inductive Value where
  | null
  | bool (value : Bool)
  | int (value : Int)
  | float (value : Double)
  | str (text : Text)
  | list (items : List Value)
  | map (entries : List (Value × Value))
deriving Repr, Inhabited

namespace Value

mutual

/-- Equality of values. The order of the entries of a mapping does not count. -/
def same : Value → Value → Bool
  | .null, .null => true
  | .bool x, .bool y => x = y
  | .int x, .int y => x = y
  | .float x, .float y => x.same y
  | .str x, .str y => x = y
  | .list x, .list y => sameItems x y
  | .map x, .map y => x.length = y.length && allAmong x y
  | _, _ => false

def sameItems : List Value → List Value → Bool
  | [], [] => true
  | x :: xs, y :: ys => same x y && sameItems xs ys
  | _, _ => false

def allAmong : List (Value × Value) → List (Value × Value) → Bool
  | [], _ => true
  | (key,value) :: rest, others =>
    (others.any fun other => same key other.1 && same value other.2) && allAmong rest others

end

def hasRepeatedKey : List (Value × Value) → Bool
  | [] => false
  | (key,_) :: rest => rest.any (fun other => same key other.1) || hasRepeatedKey rest

def coreTag (name : String) : Text := "tag:yaml.org,2002:".toList ++ name.toList

/-- A tag of the application itself. -/
def isLocalTag (tag : Text) : Bool := tag.head? = some '!'

def ofScalar (scalar : Scalar) : Except Fault Value :=
  match scalar with
  | .null => .ok .null
  | .bool value => .ok (.bool value)
  | .int value => .ok (.int value)
  | .wide => fail "integer out of range"
  | .float value => .ok (.float value)
  | .str text => .ok (.str text)

/-- The value of a scalar with a tag. Only the four tags of the simple types restrict it. -/
def ofTagged (tag : Text) (text : Text) : Except Fault Value :=
  if isLocalTag tag then fail "unexpected tag"
  else if tag = coreTag "bool" then
    match Scalar.bool? text with
    | some value => .ok (.bool value)
    | none => fail "expected a boolean"
  else if tag = coreTag "int" then
    match Scalar.int? text with
    | some number => ofScalar number
    | none => fail "expected an integer"
  else if tag = coreTag "float" then
    match Scalar.float? text with
    | some value => .ok (.float value)
    | none => fail "expected a float"
  else if tag = coreTag "null" then
    if Scalar.isNull text then .ok .null else fail "expected null"
  else .ok (.str text)

end Value

/-- A document that can be read: what its references stand for and how many may be followed. -/
structure Document where
  root : Node
  anchored : List (Nat × Node)
  limit : Nat

namespace Document

def ofNode (root : Node) : Document := ⟨root,root.anchored.reverse,100 * root.size⟩

/-- The depth to which collections may be nested. -/
def depthLimit : Nat := 128

abbrev Reading (α : Type) := Nat → Except Fault (α × Nat)

/-- The node that a node stands for. Every reference that is followed is counted. -/
def follow (document : Document) (node : Node) : Reading Node := fun followed =>
  match node with
  | .alias number =>
    match document.anchored.lookup number with
    | none => fail "unknown anchor"
    | some target =>
      if followed < document.limit then .ok (target,followed + 1) else fail "repetition limit exceeded"
  | _ => .ok (node,followed)

/-- Reads each of several nodes. -/
def each {α β : Type} (read : α → Reading β) : List α → Reading (List β)
  | [], followed => .ok ([],followed)
  | x :: rest, followed => do
    let (y,followed) ← read x followed
    let (ys,followed) ← each read rest followed
    .ok (y :: ys,followed)

/-- The value of a node at most so many collections deep. -/
def value (document : Document) : Nat → Node → Reading Value
  | depth, node, followed => do
    let (node,followed) ← document.follow node followed
    match node with
    | .alias _ => fail "unknown anchor"
    | .scalar marks style text => do
      let value ← match marks.tag with
        | some tag => Value.ofTagged tag text
        | none =>
          if style = .plain then Value.ofScalar (Scalar.ofPlain text) else .ok (.str text)
      .ok (value,followed)
    | .sequence marks items =>
      if marks.tag.any Value.isLocalTag then fail "unexpected tag"
      else
        match depth with
        | 0 => fail "recursion limit exceeded"
        | depth + 1 => do
          let (values,followed) ← each (document.value depth) items followed
          .ok (.list values,followed)
    | .mapping marks entries =>
      if marks.tag.any Value.isLocalTag then fail "unexpected tag"
      else
        match depth with
        | 0 => fail "recursion limit exceeded"
        | depth + 1 => do
          let pair := fun (entry : Node × Node) followed => do
            let (key,followed) ← document.value depth entry.1 followed
            let (value,followed) ← document.value depth entry.2 followed
            .ok ((key,value),followed)
          let (values,followed) ← each pair entries followed
          if Value.hasRepeatedKey values then fail "duplicate entry"
          else .ok (.map values,followed)

/-- The text of a scalar, whatever its notation and its tag. -/
def text (document : Document) (node : Node) : Reading Text := fun followed => do
  let (node,followed) ← document.follow node followed
  match node with
  | .scalar _ _ text => .ok (text,followed)
  | _ => fail "expected a string"

/-- The texts of a sequence of scalars. An empty place is an empty sequence. -/
def texts (document : Document) (node : Node) : Reading (List Text) := fun followed => do
  let (node,followed) ← document.follow node followed
  match node with
  | .sequence _ items => each document.text items followed
  | .scalar _ .plain [] => .ok ([],followed)
  | _ => fail "expected a sequence"

/-- A truth value. Only a plain word is one, or a literal block with its tag. -/
def bool (document : Document) (node : Node) : Reading Bool := fun followed => do
  let (node,followed) ← document.follow node followed
  match node with
  | .scalar marks style text =>
    if style = .plain || (style = .literal && marks.tag = some (Value.coreTag "bool")) then
      match Scalar.bool? text with
      | some value => .ok (value,followed)
      | none => fail "expected a boolean"
    else fail "expected a boolean"
  | _ => fail "expected a boolean"

/-- A text, or nothing where a plain scalar is empty or a null word. -/
def text? (document : Document) (node : Node) : Reading (Option Text) := fun followed => do
  let (node,followed) ← document.follow node followed
  let absent ← match node with
    | .scalar marks .plain text =>
      match marks.tag with
      | none => .ok (text = [] || Scalar.isNull text)
      | some tag =>
        if tag = Value.coreTag "null" then
          if Scalar.isNull text then .ok true else fail "expected null"
        else .ok false
    | _ => .ok false
  if absent then .ok (none,followed)
  else do
    let (text,followed) ← document.text node followed
    .ok (some text,followed)

/-- The entries of the root. A document that holds nothing has none. -/
def entries (document : Document) : Reading (List (Node × Node)) := fun followed => do
  let (node,followed) ← document.follow document.root followed
  match node with
  | .mapping _ entries => .ok (entries,followed)
  | .scalar _ .plain [] => .ok ([],followed)
  | _ => fail "expected a mapping"

end Document

end StyleHoist.Yaml
