import StyleHoist.Glob.Basic

/-! Reading a glob. Groups in braces nest, a set in brackets may hold a closing
bracket first and a dash first or last, and two stars stand for directories
only where they fill a whole path component. -/
namespace StyleHoist.Glob

/-- A group still open: its finished branches, latest first. -/
abbrev Group := List Pattern

/-- What is read so far. The branch being read is on top of `branches`, its latest token first;
below it are the branches that the open groups interrupt. -/
structure Draft where
  current : Pattern
  opened : List (Pattern × Group)
deriving Inhabited

namespace Draft

def start : Draft := ⟨[],[]⟩

def push (draft : Draft) (token : Token) : Draft := { draft with current := token :: draft.current }

def openGroup (draft : Draft) : Draft := ⟨[],(draft.current,[]) :: draft.opened⟩

def nextBranch (draft : Draft) : Draft :=
  match draft.opened with
  | [] => draft.push (.literal ',')
  | (outer,branches) :: rest => ⟨[],(outer,draft.current.reverse :: branches) :: rest⟩

def closeGroup (draft : Draft) : Except Fault Draft :=
  match draft.opened with
  | [] => .error .unopenedGroup
  | (outer,branches) :: rest =>
    .ok ⟨.alternates (draft.current.reverse :: branches).reverse :: outer,rest⟩

def finish (draft : Draft) : Except Fault Pattern :=
  match draft.opened with
  | [] => .ok draft.current.reverse
  | _ :: _ => .error .unclosedGroup

/-- Two stars after other tokens, with or without a slash taken up behind them. What they
extend is replaced, unless it stands for directories itself. -/
def deepen (draft : Draft) (token : Token) : Draft :=
  match draft.current with
  | .leading :: _ => draft
  | .trailing :: _ => draft
  | _ :: older => { draft with current := token :: older }
  | [] => draft

end Draft

/-- A set being read: its ranges, latest first. -/
structure Bracket where
  negated : Bool
  ranges : List (Char × Char)
  /-- A dash has been read that may open a range. -/
  dash : Bool
deriving Inhabited

namespace Bracket

def extend (bracket : Bracket) (high : Char) : Except Fault Bracket :=
  match bracket.ranges with
  | [] => .ok bracket
  | (low,_) :: older =>
    if high < low then .error (.invalidRange low high)
    else .ok { bracket with ranges := (low,high) :: older, dash := false }

def add (bracket : Bracket) (c : Char) : Except Fault Bracket :=
  if bracket.ranges = [] then .ok { bracket with ranges := [(c,c)] }
  else if bracket.dash then bracket.extend c
  else if c = '-' then .ok { bracket with dash := true }
  else .ok { bracket with ranges := (c,c) :: bracket.ranges }

def token (bracket : Bracket) : Token :=
  .set bracket.negated (if bracket.dash then ('-','-') :: bracket.ranges else bracket.ranges).reverse

end Bracket

/-- Reads on. `before` is the character read last, `bracket` the set being read. -/
def readFrom (draft : Draft) (bracket : Option Bracket) (before : Option Char) :
    List Char → Except Fault Pattern
  | [] =>
    match bracket with
    | some _ => .error .unclosedSet
    | none => draft.finish
  | c :: rest =>
    match bracket with
    | some set =>
      if c = ']' && set.ranges ≠ [] then readFrom (draft.push set.token) none (some c) rest
      else do readFrom draft (some (← set.add c)) (some c) rest
    | none =>
      match c, rest with
      | '?', later => readFrom (draft.push .any) none (some c) later
      | '*', '*' :: '/' :: later =>
        if draft.current = [] then readFrom (draft.push .leading) none (some '/') later
        else if filled draft before then readFrom (draft.deepen .between) none (some '/') later
        else readFrom ((draft.push .star).push .star) none (some '*') ('/' :: later)
      | '*', '*' :: later =>
        if draft.current = [] && later = [] then readFrom (draft.push .leading) none (some '*') later
        else if draft.current ≠ [] && filled draft before && ends draft later then
          readFrom (draft.deepen .trailing) none (some '*') later
        else readFrom ((draft.push .star).push .star) none (some '*') later
      | '*', later => readFrom (draft.push .star) none (some c) later
      | '[', '!' :: later => readFrom draft (some ⟨true,[],false⟩) (some '!') later
      | '[', '^' :: later => readFrom draft (some ⟨true,[],false⟩) (some '^') later
      | '[', later => readFrom draft (some ⟨false,[],false⟩) (some c) later
      | '{', later => readFrom draft.openGroup none (some c) later
      | '}', later => do readFrom (← draft.closeGroup) none (some c) later
      | ',', later => readFrom draft.nextBranch none (some c) later
      | '\\', [] => .error .danglingEscape
      | '\\', d :: later => readFrom (draft.push (.literal d)) none (some d) later
      | _, later => readFrom (draft.push (.literal c)) none (some c) later
termination_by text => text.length
where
  /-- Whether a component can begin after this character. -/
  filled (draft : Draft) (before : Option Char) : Bool :=
    before = some '/' || (draft.opened ≠ [] && (before = some ',' || before = some '{'))
  /-- Whether the pattern or the branch ends here. -/
  ends (draft : Draft) (later : List Char) : Bool :=
    match later with
    | [] => true
    | c :: _ => draft.opened ≠ [] && (c = ',' || c = '}')

def parse (glob : String) : Except Fault Pattern := readFrom Draft.start none none glob.toList

end StyleHoist.Glob
