import StyleHoist.Arguments
import StyleHoist.ClassId
import StyleHoist.Command
import StyleHoist.Config
import StyleHoist.Conversion.Plan
import StyleHoist.Conversion.Report
import StyleHoist.Conversion.Run
import StyleHoist.Declaration
import StyleHoist.Digest
import StyleHoist.Discovery
import StyleHoist.Disk.Basic
import StyleHoist.Disk.Operation
import StyleHoist.Disk.Walk
import StyleHoist.Event
import StyleHoist.EventLog
import StyleHoist.Failure
import StyleHoist.Glob.Basic
import StyleHoist.Glob.Expression
import StyleHoist.Glob.Match
import StyleHoist.Glob.Parser
import StyleHoist.Glob.Strategy
import StyleHoist.Inventory
import StyleHoist.Json.Basic
import StyleHoist.Json.Reader
import StyleHoist.Json.Selection
import StyleHoist.Lock
import StyleHoist.Main
import StyleHoist.Markup.Attribute
import StyleHoist.Markup.Hoist
import StyleHoist.Markup.Plain
import StyleHoist.Markup.Scan
import StyleHoist.Markup.TagEdit
import StyleHoist.Number.Double
import StyleHoist.Number.Literal
import StyleHoist.Number.Shortest
import StyleHoist.Path
import StyleHoist.Procedure.Basic
import StyleHoist.Procedure.Files
import StyleHoist.Procedure.World
import StyleHoist.Project
import StyleHoist.Proofs.Bytewise.Ends
import StyleHoist.Proofs.Bytewise.Items
import StyleHoist.Proofs.Bytewise.Names
import StyleHoist.Proofs.Bytewise.Scan
import StyleHoist.Proofs.Config.Default
import StyleHoist.Proofs.Conversion.Commit
import StyleHoist.Proofs.Conversion.Course
import StyleHoist.Proofs.Conversion.Effects
import StyleHoist.Proofs.Conversion.Execution
import StyleHoist.Proofs.Conversion.Keeping
import StyleHoist.Proofs.Conversion.Opening
import StyleHoist.Proofs.Conversion.Planning
import StyleHoist.Proofs.Conversion.Reading
import StyleHoist.Proofs.Conversion.Replanning
import StyleHoist.Proofs.Conversion.Standstill
import StyleHoist.Proofs.Declaration.Canonical
import StyleHoist.Proofs.Declaration.Faithful
import StyleHoist.Proofs.Declaration.Residue
import StyleHoist.Proofs.Discovery.Order
import StyleHoist.Proofs.Discovery.Selection
import StyleHoist.Proofs.Disk.Alteration
import StyleHoist.Proofs.Disk.Beside
import StyleHoist.Proofs.Disk.Descent
import StyleHoist.Proofs.Disk.Housing
import StyleHoist.Proofs.Disk.Lookup
import StyleHoist.Proofs.Disk.Place
import StyleHoist.Proofs.Disk.Settling
import StyleHoist.Proofs.Disk.Spot
import StyleHoist.Proofs.Disk.Tree
import StyleHoist.Proofs.Disk.Ways
import StyleHoist.Proofs.FirstSeen
import StyleHoist.Proofs.Inventory.Agreement
import StyleHoist.Proofs.Inventory.Exact
import StyleHoist.Proofs.Inventory.Listing
import StyleHoist.Proofs.Inventory.Occurrences
import StyleHoist.Proofs.Json.OneLine
import StyleHoist.Proofs.Markup.Accounting
import StyleHoist.Proofs.Markup.Alongside
import StyleHoist.Proofs.Markup.Batches
import StyleHoist.Proofs.Markup.Bounds
import StyleHoist.Proofs.Markup.Continuation
import StyleHoist.Proofs.Markup.Diagnostics
import StyleHoist.Proofs.Markup.Escaping
import StyleHoist.Proofs.Markup.Gaps
import StyleHoist.Proofs.Markup.Grouping
import StyleHoist.Proofs.Markup.Hoisting
import StyleHoist.Proofs.Markup.Located
import StyleHoist.Proofs.Markup.Moving
import StyleHoist.Proofs.Markup.Naming
import StyleHoist.Proofs.Markup.Openings
import StyleHoist.Proofs.Markup.Passing
import StyleHoist.Proofs.Markup.Preamble
import StyleHoist.Proofs.Markup.Quotes
import StyleHoist.Proofs.Markup.Rendering
import StyleHoist.Proofs.Markup.Scanning
import StyleHoist.Proofs.Markup.Shuffling
import StyleHoist.Proofs.Markup.Simultaneous
import StyleHoist.Proofs.Markup.Soundness
import StyleHoist.Proofs.Markup.Splice
import StyleHoist.Proofs.Markup.Styles
import StyleHoist.Proofs.Markup.Tally
import StyleHoist.Proofs.Plain.Idempotence
import StyleHoist.Proofs.Plain.Pieces
import StyleHoist.Proofs.Plain.Planning
import StyleHoist.Proofs.Plain.Quoting
import StyleHoist.Proofs.Plain.Refinement
import StyleHoist.Proofs.Plain.Rendering
import StyleHoist.Proofs.Plain.Scan
import StyleHoist.Proofs.Plain.Shape
import StyleHoist.Proofs.Plain.Surroundings
import StyleHoist.Proofs.Procedure.Drafting
import StyleHoist.Proofs.Procedure.Faults
import StyleHoist.Proofs.Procedure.Locking
import StyleHoist.Proofs.Procedure.Logic
import StyleHoist.Proofs.Procedure.Machine
import StyleHoist.Proofs.Procedure.Paving
import StyleHoist.Proofs.Procedure.Performing
import StyleHoist.Proofs.Procedure.Replacing
import StyleHoist.Proofs.Procedure.Sparing
import StyleHoist.Proofs.Registry.Allocation
import StyleHoist.Proofs.Registry.Calls
import StyleHoist.Proofs.Registry.Growth
import StyleHoist.Proofs.Registry.Tables
import StyleHoist.Proofs.Registry.Within
import StyleHoist.Proofs.Sharing.Custody
import StyleHoist.Proofs.Sharing.Discipline
import StyleHoist.Proofs.Sharing.Phase
import StyleHoist.Proofs.Sharing.Serial
import StyleHoist.Proofs.Sharing.Standing
import StyleHoist.Proofs.Stylesheet.Ambiguity
import StyleHoist.Proofs.Stylesheet.Blocks
import StyleHoist.Proofs.Stylesheet.Line
import StyleHoist.Proofs.Stylesheet.Names
import StyleHoist.Proofs.Stylesheet.RoundTrip
import StyleHoist.Proofs.Text.Bytes
import StyleHoist.Proofs.Text.Lines
import StyleHoist.Proofs.Text.Order
import StyleHoist.Proofs.Text.Pieces
import StyleHoist.Proofs.Text.Place
import StyleHoist.Proofs.Text.Run
import StyleHoist.Registry
import StyleHoist.Sources
import StyleHoist.Stylesheet
import StyleHoist.Text.Basic
import StyleHoist.Text.Blank
import StyleHoist.Text.Position
import StyleHoist.Timestamp.Basic
import StyleHoist.Timestamp.Reader
import StyleHoist.Yaml.Cursor
import StyleHoist.Yaml.Folding
import StyleHoist.Yaml.Node
import StyleHoist.Yaml.Printer
import StyleHoist.Yaml.Scalar
import StyleHoist.Yaml.Token
import StyleHoist.Yaml.Value
