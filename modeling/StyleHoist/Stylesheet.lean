import StyleHoist.Registry

/-! Generated rules in a stylesheet, one to a line: how a block of them is
appended, and how the rules of earlier runs are read back into a registry. -/
namespace StyleHoist.Stylesheet

def defaultComment : Text := "Generated classes moved from inline styles".toList

/-- One rule, without the end of its line. -/
def rule (binding : Binding) : Text :=
  '.' :: binding.id.text ++ " \x7b ".toList ++ binding.declaration.text ++ " \x7d".toList

/-- The text that separates a block of rules from what precedes it. -/
def gap (existing : Text) : Text :=
  match existing.getLast? with
  | none => []
  | some '\n' => ['\n']
  | some _ => ['\n','\n']

/-- A comment line and one line for each rule. -/
def block (comment : Text) (bindings : List Binding) : Text :=
  "/* ".toList ++ comment ++ " */\n".toList ++ bindings.flatMap fun binding => rule binding ++ ['\n']

/-- The stylesheet with a block of rules appended, unchanged when there are none. -/
def extend (existing : Text) (comment : Text) (bindings : List Binding) : Text :=
  if bindings = [] then existing else existing ++ gap existing ++ block comment bindings

def isIndent (c : Char) : Bool := c = ' ' || c = '\t'

def isTrail (c : Char) : Bool := c = ' ' || c = '\t' || c = '\r'

/-- The class name at the head of a text: the marking text and eight digits. -/
def headName? (classPrefix text : Text) : Option (ClassId × Text) := do
  let digits ← Text.after? classPrefix text
  let name := digits.take ClassId.digestLength
  if name.length = ClassId.digestLength && name.all ClassId.isHexDigit then
    some (⟨classPrefix ++ name⟩,digits.drop ClassId.digestLength)
  else none

/-- The body before the closing brace that ends a line. -/
def body? (line : Text) : Option Text :=
  match line.reverse.dropWhile isTrail with
  | '}' :: body => some body.reverse
  | _ => none

/-- The generated rule that starts a line, its name and body, and what follows it:
nothing, or a line feed and more lines. -/
def ruleAt? (classPrefix text : Text) : Option ((ClassId × Text) × Text) := do
  let name ← Text.after? ['.'] (text.dropWhile isIndent)
  let (id,rest) ← headName? classPrefix name
  let line ← Text.after? ['{'] (rest.dropWhile isIndent)
  let body ← body? (line.takeWhile (· ≠ '\n'))
  some ((id,body),line.dropWhile (· ≠ '\n'))

theorem length_ruleAt? {classPrefix text : Text} {found : (ClassId × Text) × Text}
    (read : ruleAt? classPrefix text = some found) : found.2.length < text.length := by
  simp only [ruleAt?,headName?,Option.bind_eq_bind,Option.bind_eq_some_iff] at read
  obtain ⟨name,dot,⟨id,rest⟩,⟨digits,lead,digest⟩,line,brace,body,-,same⟩ := read
  cases same
  split at digest
  · simp only [Option.some.injEq,Prod.mk.injEq] at digest
    obtain ⟨-,rfl⟩ := digest
    have dot := Text.length_after? dot
    have lead := Text.length_after? lead
    have brace := Text.length_after? brace
    have indent := (List.dropWhile_sublist (l := text) isIndent).length_le
    have inner := (List.dropWhile_sublist (l := digits.drop ClassId.digestLength) isIndent).length_le
    have tail := (List.dropWhile_sublist (l := line) (fun c => decide (c ≠ '\n'))).length_le
    have cut : (digits.drop ClassId.digestLength).length ≤ digits.length := by simp
    simp only [List.length_cons,List.length_nil] at dot brace
    simp only at tail ⊢
    omega
  · simp at digest

/-- The generated rules of a stylesheet, in order. -/
def rules (classPrefix text : Text) : List (ClassId × Text) :=
  match _found : ruleAt? classPrefix text with
  | some (entry,rest) => entry :: rules classPrefix (rest.drop 1)
  | none =>
    match _later : text.dropWhile (· ≠ '\n') with
    | [] => []
    | _ :: rest => rules classPrefix rest
termination_by text.length
decreasing_by
  · have := length_ruleAt? _found
    simp only [List.length_drop] at this ⊢
    omega
  · have := (List.dropWhile_sublist (l := text) (fun c => decide (c ≠ '\n'))).length_le
    rw [_later,List.length_cons] at this
    omega

/-- The bindings that a stylesheet states. Rules with an empty body state none. -/
def bindings (classPrefix text : Text) : List Binding :=
  ((rules classPrefix text).map fun entry => ⟨Declaration.normalize entry.2,entry.1⟩).filter
    fun binding => !binding.declaration.isEmpty

/-- The name under which the stylesheet is reported in a collision. -/
def sourceName : String := "the existing stylesheet"

/-- The registry of a stylesheet's rules. -/
def seed (classPrefix text : Text) : Except Collision Registry :=
  match (bindings classPrefix text).foldlM Registry.register (Registry.empty classPrefix) with
  | .ok registry => .ok registry
  | .error collision => .error (collision.inSource sourceName)

end StyleHoist.Stylesheet
