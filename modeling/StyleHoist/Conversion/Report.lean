import StyleHoist.Conversion.Plan
import StyleHoist.Json.Basic

/-! What a conversion reports: warnings, the plan, and its figures. -/
namespace StyleHoist.Conversion

/-- What was written to disk. -/
structure Written where
  documents : Nat
  backups : List Path
  stylesheet : Bool
deriving DecidableEq, Repr

/-- The warnings about a document, each at its place. -/
def warnings (document : DocumentPlan) : List String :=
  document.outcome.warnings.map fun warning => document.name ++ ":" ++ warning.text

def describe (outcome : Markup.Outcome) : String :=
  let some? := fun (n : Nat) (what : String) => if n = 0 then [] else [toString n ++ " " ++ what]
  ", ".intercalate ((toString outcome.converted ++ " style(s)") ::
    some? outcome.allocated.length "new class(es)" ++ some? outcome.stripped "empty")

/-- An edited tag on one line, with its place in the new text. -/
def editedTag? (text : Text) (edit : Markup.AppliedEdit) : Option String := do
  let position ← Position.locate? text edit.target.start
  let tag ← Text.slice? text edit.target
  some (position.text ++ ": " ++ String.ofList ([' '].intercalate (Text.words tag)))

def documentLines (document : DocumentPlan) : List String :=
  ("  - " ++ document.name ++ " (" ++ describe document.outcome ++ ")") ::
    (document.outcome.edits.filterMap (editedTag? document.outcome.text)).map ("      " ++ ·)

def documentsLines (modified : List DocumentPlan) : List String :=
  if modified.isEmpty then []
  else ("Documents to rewrite (" ++ toString modified.length ++ "):") ::
    modified.flatMap documentLines ++ [""]

def rulesLines (stylesheetName : String) (added : List Binding) : List String :=
  if added.isEmpty then []
  else ("Rules to append to " ++ stylesheetName ++ " (" ++ toString added.length ++ "):") ::
    added.map (fun binding => "  " ++ String.ofList (Stylesheet.rule binding)) ++ [""]

/-- What is to be done. -/
def planLines (conversion : Conversion) (stylesheetName : String) : List String :=
  if conversion.hasChanges then
    ["Convert plan:",""] ++ documentsLines conversion.modified ++
      rulesLines stylesheetName conversion.added
  else ["No inline styles to convert in " ++ toString conversion.documents.length ++ " document(s)."]

/-- The figures of a plan, or of what was written. -/
def summaryLines (conversion : Conversion) (written : Option Written) : List String :=
  let heading := if written.isSome then "Convert complete:" else "Dry-run summary:"
  let modified := match written with
    | some written => written.documents
    | none => conversion.modified.length
  let figure := fun (label : String) (n : Nat) => "  " ++ label ++ toString n
  let unlessZero := fun (label : String) (n : Nat) => if n = 0 then [] else [figure label n]
  [heading,
   figure "Documents scanned:  " conversion.documents.length,
   figure "Documents modified: " modified,
   figure "Classes added:      " conversion.added.length,
   figure "Classes reused:     " conversion.reused] ++
  unlessZero "Empty styles:       " conversion.stripped ++
  unlessZero "Warnings:           " conversion.warned ++
  match written with
  | none => []
  | some written =>
    unlessZero "Backups created:    " written.backups.length ++
      if written.stylesheet then ["  Stylesheet updated: yes"] else []

/-- The figures of a run for the log. -/
def details (project : Project) (conversion : Conversion) (written : Option Written) (dryRun : Bool) : Json :=
  let names := conversion.modified.map (·.name)
  let backups := match written with
    | some written => written.backups.length
    | none => 0
  Json.ofMembers
    [("dry_run",.bool dryRun),
     ("stylesheet",Json.ofString (project.relative conversion.stylesheetPath)),
     ("documents_scanned",Json.ofNat conversion.documents.length),
     ("documents_modified",Json.ofNat names.length),
     ("modified",.list (names.map Json.ofString)),
     ("classes_added",Json.ofNat conversion.added.length),
     ("classes_reused",Json.ofNat conversion.reused),
     ("styles_stripped",Json.ofNat conversion.stripped),
     ("warnings",Json.ofNat conversion.warned),
     ("backups_created",Json.ofNat backups)]

end StyleHoist.Conversion
