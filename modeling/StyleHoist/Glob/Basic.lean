import StyleHoist.Text.Basic

/-! Glob patterns over paths, as sequences of tokens, and the ways in which a
pattern can be ill formed. -/
namespace StyleHoist.Glob

inductive Token where
  | literal (c : Char)
  /-- Any one byte. -/
  | any
  /-- Any bytes. -/
  | star
  /-- Any directories in front, or none. -/
  | leading
  /-- Everything below a directory. -/
  | trailing
  /-- Any directories between two names, or none. -/
  | between
  | set (negated : Bool) (ranges : List (Char × Char))
  | alternates (branches : List (List Token))
deriving Repr, Inhabited

abbrev Pattern := List Token

inductive Fault where
  | unclosedSet
  | invalidRange (low high : Char)
  | unopenedGroup
  | unclosedGroup
  | danglingEscape
deriving DecidableEq, Repr

def Fault.reason : Fault → String
  | .unclosedSet => "unclosed character class; missing ']'"
  | .invalidRange low high =>
    "invalid range; '" ++ String.singleton low ++ "' > '" ++ String.singleton high ++ "'"
  | .unopenedGroup =>
    "unopened alternate group; missing '\x7b' (maybe escape '\x7d' with '[\x7d]'?)"
  | .unclosedGroup =>
    "unclosed alternate group; missing '\x7d' (maybe escape '\x7b' with '[\x7b]'?)"
  | .danglingEscape => "dangling '\\'"

def Fault.message (fault : Fault) (glob : String) : String :=
  "error parsing glob '" ++ glob ++ "': " ++ fault.reason

end StyleHoist.Glob
