import StyleHoist.Yaml.Token

/-! The tree of a YAML document: scalars, sequences and mappings, any of them
marked with an anchor and a tag, and references to anchors. -/
namespace StyleHoist.Yaml

/-- What stands in front of a node. -/
structure Marks where
  /-- The number of the anchor. -/
  anchor : Option Nat
  tag : Option Text
deriving DecidableEq, Repr, Inhabited

inductive Node where
  | scalar (marks : Marks) (style : Style) (text : Text)
  | sequence (marks : Marks) (items : List Node)
  | mapping (marks : Marks) (entries : List (Node × Node))
  | alias (anchor : Nat)
deriving Repr, Inhabited

namespace Node

def empty (marks : Marks) : Node := .scalar marks .plain []

mutual

/-- The nodes under each anchor, in the order in which they begin. -/
def anchored : Node → List (Nat × Node)
  | .scalar marks style text => (marks.anchor.map (·,Node.scalar marks style text)).toList
  | .sequence marks items =>
    (marks.anchor.map (·,Node.sequence marks items)).toList ++ anchoredItems items
  | .mapping marks entries =>
    (marks.anchor.map (·,Node.mapping marks entries)).toList ++ anchoredEntries entries
  | .alias _ => []

def anchoredItems : List Node → List (Nat × Node)
  | [] => []
  | item :: rest => anchored item ++ anchoredItems rest

def anchoredEntries : List (Node × Node) → List (Nat × Node)
  | [] => []
  | (key,value) :: rest => anchored key ++ anchored value ++ anchoredEntries rest

/-- The number of events that a node is written with. -/
def size : Node → Nat
  | .scalar _ _ _ => 1
  | .sequence _ items => 2 + sizeItems items
  | .mapping _ entries => 2 + sizeEntries entries
  | .alias _ => 1

def sizeItems : List Node → Nat
  | [] => 0
  | item :: rest => size item + sizeItems rest

def sizeEntries : List (Node × Node) → Nat
  | [] => 0
  | (key,value) :: rest => size key + size value + sizeEntries rest

end

end Node

/-- The state of reading a document from tokens. -/
structure Reader where
  tokens : List Token
  /-- The lead that each tag handle stands for. -/
  handles : List (Text × Text)
  anchors : List (Text × Nat)

namespace Reader

abbrev Read (α : Type) := Reader → Except Fault (α × Reader)

def peek (reader : Reader) : Option Token := reader.tokens.head?

def skip (reader : Reader) : Reader := { reader with tokens := reader.tokens.drop 1 }

/-- Numbers an anchor by the count of different names before it. -/
def addAnchor (reader : Reader) (name : Text) : Nat × Reader :=
  let number := reader.anchors.length
  let others := reader.anchors.filter (·.1 ≠ name)
  (number,{ reader with anchors := (name,number) :: others })

def tagText (reader : Reader) (handle suffix : Text) : Except Fault Text :=
  if handle = [] then .ok suffix
  else
    match reader.handles.lookup handle with
    | some lead => .ok (lead ++ suffix)
    | none => fail "found undefined tag handle"

def readAnchor (reader : Reader) : Option Text × Reader :=
  match reader.tokens with
  | .anchor name :: rest => (some name,{ reader with tokens := rest })
  | _ => (none,reader)

def readTag (reader : Reader) : Except Fault (Option Text × Reader) :=
  match reader.tokens with
  | .tag handle suffix :: rest =>
    (reader.tagText handle suffix).map fun text => (some text,{ reader with tokens := rest })
  | _ => .ok (none,reader)

/-- Reads an anchor and a tag in either order. -/
def readMarks (reader : Reader) : Except Fault (Marks × Reader) := do
  let (before,rest) := reader.readAnchor
  let (tag,rest) ← rest.readTag
  let (name,rest) := if before.isSome || tag.isNone then (before,rest) else rest.readAnchor
  match name with
  | none => .ok (⟨none,tag⟩,rest)
  | some name =>
    let (number,rest) := rest.addAnchor name
    .ok (⟨some number,tag⟩,rest)

def isOneOf (reader : Reader) (tokens : List Token) : Bool :=
  reader.peek.any tokens.contains

mutual

/-- Reads a node. Block collections may begin here if `block` holds, and the entries of a
sequence without an indentation of its own if `indentless` holds. -/
def node (block indentless : Bool) : Nat → Read Node
  | 0, _ => fail "did not find expected node content"
  | fuel + 1, reader =>
    match reader.tokens with
    | .alias name :: rest =>
      match reader.anchors.lookup name with
      | some number => .ok (.alias number,{ reader with tokens := rest })
      | none => fail "unknown anchor"
    | _ => do
      let (marks,reader) ← reader.readMarks
      match reader.tokens with
      | .scalar style text :: rest =>
        .ok (.scalar marks style text,{ reader with tokens := rest })
      | .flowSequenceStart :: rest => do
        let (items,reader) ← flowItems true fuel { reader with tokens := rest }
        .ok (.sequence marks items,reader)
      | .flowMappingStart :: rest => do
        let (entries,reader) ← flowEntries true fuel { reader with tokens := rest }
        .ok (.mapping marks entries,reader)
      | token :: rest =>
        if indentless && token = .blockEntry then do
          let (items,reader) ← indentlessItems fuel reader
          .ok (.sequence marks items,reader)
        else if block && token = .blockSequenceStart then do
          let (items,reader) ← blockItems fuel { reader with tokens := rest }
          .ok (.sequence marks items,reader)
        else if block && token = .blockMappingStart then do
          let (entries,reader) ← blockEntries fuel { reader with tokens := rest }
          .ok (.mapping marks entries,reader)
        else if marks = ⟨none,none⟩ then fail "did not find expected node content"
        else .ok (Node.empty marks,reader)
      | [] =>
        if marks = ⟨none,none⟩ then fail "did not find expected node content"
        else .ok (Node.empty marks,reader)

/-- Reads a node, or nothing if one of the given tokens is next. -/
def nodeUnless (tokens : List Token) (block indentless : Bool) : Nat → Read Node
  | 0, _ => fail "did not find expected node content"
  | fuel + 1, reader =>
    if reader.isOneOf tokens then .ok (Node.empty ⟨none,none⟩,reader)
    else node block indentless fuel reader

def blockItems : Nat → Read (List Node)
  | 0, _ => fail "did not find expected '-' indicator"
  | fuel + 1, reader =>
    match reader.peek with
    | some .blockEntry => do
      let (item,reader) ← nodeUnless [.blockEntry,.blockEnd] true false fuel reader.skip
      let (items,reader) ← blockItems fuel reader
      .ok (item :: items,reader)
    | some .blockEnd => .ok ([],reader.skip)
    | _ => fail "did not find expected '-' indicator"

def indentlessItems : Nat → Read (List Node)
  | 0, _ => fail "did not find expected '-' indicator"
  | fuel + 1, reader =>
    match reader.peek with
    | some .blockEntry => do
      let (item,reader) ←
        nodeUnless [.blockEntry,.key,.value,.blockEnd] true false fuel reader.skip
      let (items,reader) ← indentlessItems fuel reader
      .ok (item :: items,reader)
    | _ => .ok ([],reader)

def blockEntries : Nat → Read (List (Node × Node))
  | 0, _ => fail "did not find expected key"
  | fuel + 1, reader =>
    match reader.peek with
    | some .key => do
      let (key,reader) ← nodeUnless [.key,.value,.blockEnd] true true fuel reader.skip
      let (value,reader) ←
        if reader.peek = some .value then
          nodeUnless [.key,.value,.blockEnd] true true fuel reader.skip
        else .ok (Node.empty ⟨none,none⟩,reader)
      let (entries,reader) ← blockEntries fuel reader
      .ok ((key,value) :: entries,reader)
    | some .blockEnd => .ok ([],reader.skip)
    | _ => fail "did not find expected key"

/-- Reads the items of a flow sequence. A key in it is a mapping of one entry. -/
def flowItems (first : Bool) : Nat → Read (List Node)
  | 0, _ => fail "did not find expected ',' or ']'"
  | fuel + 1, reader =>
    if reader.peek = some .flowSequenceEnd then .ok ([],reader.skip)
    else if !first && reader.peek ≠ some .flowEntry then fail "did not find expected ',' or ']'"
    else
      let reader := if first then reader else reader.skip
      if reader.peek = some .flowSequenceEnd then .ok ([],reader.skip)
      else if reader.peek = some .key then do
        let (entry,reader) ← flowPair fuel reader.skip
        let (items,reader) ← flowItems false fuel reader
        .ok (.mapping ⟨none,none⟩ [entry] :: items,reader)
      else do
        let (item,reader) ← node false false fuel reader
        let (items,reader) ← flowItems false fuel reader
        .ok (item :: items,reader)

/-- Reads a pair inside a flow sequence, behind its indicator. The token that shows an
empty key to be empty is passed over. -/
def flowPair : Nat → Read (Node × Node)
  | 0, _ => fail "did not find expected ',' or ']'"
  | fuel + 1, reader => do
    let (key,reader) ←
      if reader.isOneOf [.value,.flowEntry,.flowSequenceEnd] then
        .ok (Node.empty ⟨none,none⟩,reader.skip)
      else node false false fuel reader
    let (value,reader) ←
      if reader.peek = some .value then
        nodeUnless [.flowEntry,.flowSequenceEnd] false false fuel reader.skip
      else .ok (Node.empty ⟨none,none⟩,reader)
    .ok ((key,value),reader)

/-- Reads the entries of a flow mapping. A node without a key indicator has no value. -/
def flowEntries (first : Bool) : Nat → Read (List (Node × Node))
  | 0, _ => fail "did not find expected ',' or '\x7d'"
  | fuel + 1, reader =>
    if reader.peek = some .flowMappingEnd then .ok ([],reader.skip)
    else if !first && reader.peek ≠ some .flowEntry then fail "did not find expected ',' or '\x7d'"
    else
      let reader := if first then reader else reader.skip
      if reader.peek = some .flowMappingEnd then .ok ([],reader.skip)
      else if reader.peek = some .key then do
        let (key,reader) ←
          nodeUnless [.value,.flowEntry,.flowMappingEnd] false false fuel reader.skip
        let (value,reader) ←
          if reader.peek = some .value then
            nodeUnless [.flowEntry,.flowMappingEnd] false false fuel reader.skip
          else .ok (Node.empty ⟨none,none⟩,reader)
        let (entries,reader) ← flowEntries false fuel reader
        .ok ((key,value) :: entries,reader)
      else do
        let (key,reader) ← node false false fuel reader
        let (entries,reader) ← flowEntries false fuel reader
        .ok ((key,Node.empty ⟨none,none⟩) :: entries,reader)

end

/-- The handles that need no directive. -/
def standardHandles : List (Text × Text) :=
  [(['!'],['!']),(['!','!'],"tag:yaml.org,2002:".toList)]

/-- Reads the directives in front of a document: one version at most, and each handle once. -/
def directives (versioned : Bool) (given : List (Text × Text)) :
    List Token → Except Fault (List (Text × Text) × List Token)
  | .versionDirective :: rest =>
    if versioned then fail "found duplicate %YAML directive" else directives true given rest
  | .tagDirective handle lead :: rest =>
    if given.any (·.1 = handle) then fail "found duplicate %TAG directive"
    else directives versioned (given ++ [(handle,lead)]) rest
  | rest => .ok (given,rest)

/-- The tokens that a document ends before. -/
def endsDocument : Option Token → Bool
  | none => true
  | some .versionDirective => true
  | some (.tagDirective _ _) => true
  | some .documentStart => true
  | some .documentEnd => true
  | some _ => false

end Reader

/-- The only document of a stream. There is none if the stream is empty. -/
def Node.ofTokens? (tokens : List Token) : Except Fault (Option Node) := do
  let fuel := 4 * tokens.length + 8
  let (given,rest) ← Reader.directives false [] tokens
  let handles := given ++ Reader.standardHandles
  let explicit := rest.head? = some .documentStart
  if rest.length ≠ tokens.length && !explicit then fail "did not find expected <document start>"
  else if tokens = [] then .ok none
  else
    let reader : Reader := ⟨if explicit then rest.drop 1 else rest,handles,[]⟩
    let (node,reader) ←
      if explicit && Reader.endsDocument reader.peek then .ok (Node.empty ⟨none,none⟩,reader)
      else Reader.node true false fuel reader
    if reader.tokens.all (· = .documentEnd) then .ok (some node)
    else fail "more than one document"

def Node.read? (text : Text) : Except Fault (Option Node) := do
  Node.ofTokens? (← Token.scan text)

end StyleHoist.Yaml
