import StyleHoist.Glob.Basic

/-! How a pattern is matched. Simple patterns are compared with a part of the
path, all others are compiled to expressions. -/
namespace StyleHoist.Glob

inductive Strategy where
  /-- The last name of the path is a given text. -/
  | name
  /-- The path is a given text. -/
  | path
  /-- The last name has a given extension. -/
  | extension
  /-- The path begins with a given text. -/
  | beginning
  /-- The path ends with a given text. -/
  | ending
  /-- The last name has a given extension, and an expression stands for the path. -/
  | extensionThenExpression
  | expression
deriving DecidableEq, Repr

def Token.isLiteral : Token → Bool
  | .literal _ => true
  | _ => false

def Token.isSlash : Token → Bool
  | .literal '/' => true
  | _ => false

def Token.isPeriod : Token → Bool
  | .literal '.' => true
  | _ => false

/-- A character that a plain extension may hold. -/
def Token.isExtension (token : Token) : Bool :=
  token.isLiteral && !token.isSlash && !token.isPeriod

/-- The pattern behind directories that it may begin with. -/
def withoutLeading (pattern : Pattern) : Pattern :=
  match pattern with
  | .leading :: rest => rest
  | _ => pattern

/-- A star, a period and an extension, which may be empty. -/
def isExtension (pattern : Pattern) : Bool :=
  match pattern with
  | .star :: period :: rest => period.isPeriod && rest.all Token.isExtension
  | _ => false

/-- A text before a star, or before everything below a directory. -/
def isBeginning (pattern : Pattern) : Bool :=
  match pattern.getLast? with
  | some .star => 1 < pattern.length && pattern.dropLast.all Token.isLiteral
  | some .trailing => pattern.dropLast.all Token.isLiteral
  | _ => false

/-- A text that is not empty behind directories or a star. A slash alone behind a star is none. -/
def isEnding (pattern : Pattern) : Bool :=
  match withoutLeading pattern with
  | .star :: rest => rest ≠ [] && rest.all Token.isLiteral && !(rest.length = 1 && rest.all Token.isSlash)
  | rest => rest ≠ [] && rest.all Token.isLiteral

/-- Whether the text behind the last other token is an extension with its period. -/
def endsInExtension (pattern : Pattern) : Bool :=
  match pattern.reverse.dropWhile Token.isExtension with
  | token :: _ => token.isPeriod
  | [] => false

def strategy (pattern : Pattern) : Strategy :=
  let inner := withoutLeading pattern
  if pattern ≠ [] && pattern.all Token.isLiteral then .path
  else if inner ≠ [] && inner.all Token.isLiteral && !inner.any Token.isSlash then .name
  else if isExtension inner then .extension
  else if isBeginning pattern then .beginning
  else if isEnding pattern then .ending
  else if endsInExtension pattern then .extensionThenExpression
  else .expression

end StyleHoist.Glob
