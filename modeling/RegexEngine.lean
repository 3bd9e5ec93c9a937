import RegexEngine.Engine.Regex
import RegexEngine.Session.Basic
import RegexEngine.Proofs.CodeUnit.Fold
import RegexEngine.Proofs.CharSet.Table
import RegexEngine.Proofs.CharSet.Complement
import RegexEngine.Proofs.Pattern.Groups
import RegexEngine.Proofs.Pattern.Prescan
import RegexEngine.Proofs.Pattern.Canonical
import RegexEngine.Proofs.Pattern.Parts
import RegexEngine.Proofs.Pattern.Plain
import RegexEngine.Proofs.Pattern.Multiline
import RegexEngine.Proofs.Pattern.Spelling
import RegexEngine.Proofs.Pattern.Writing
import RegexEngine.Proofs.Pattern.Extent
import RegexEngine.Proofs.Pattern.Descent
import RegexEngine.Proofs.Pattern.Nesting
import RegexEngine.Proofs.Program.Fragment
import RegexEngine.Proofs.Program.Emission
import RegexEngine.Proofs.Program.Operands
import RegexEngine.Proofs.Program.WellFormed
import RegexEngine.Proofs.Program.Erasure
import RegexEngine.Proofs.Program.Relocation
import RegexEngine.Proofs.Program.Capacity
import RegexEngine.Proofs.Program.Length
import RegexEngine.Proofs.Match.Steps
import RegexEngine.Proofs.Match.Safety
import RegexEngine.Proofs.Match.Ordered
import RegexEngine.Proofs.Match.Threads
import RegexEngine.Proofs.Match.Simulation
import RegexEngine.Proofs.Match.Attempts
import RegexEngine.Proofs.Match.Shortcuts
import RegexEngine.Proofs.Match.Reference
import RegexEngine.Proofs.Match.Tracking
import RegexEngine.Proofs.Match.Refinement
import RegexEngine.Proofs.Match.Straight
import RegexEngine.Proofs.Match.Iterations
import RegexEngine.Proofs.Match.Widths
import RegexEngine.Proofs.Match.Modes
import RegexEngine.Proofs.Match.Spans
import RegexEngine.Proofs.Match.First
import RegexEngine.Proofs.Match.Folding
import RegexEngine.Proofs.Match.Visits
import RegexEngine.Proofs.Match.Detection
import RegexEngine.Proofs.Match.Limits
import RegexEngine.Proofs.Match.Classes
import RegexEngine.Proofs.Match.Undoing
import RegexEngine.Proofs.Engine.Literal
import RegexEngine.Proofs.Engine.Records
import RegexEngine.Proofs.Engine.Reports
import RegexEngine.Proofs.Engine.Errors
import RegexEngine.Proofs.Engine.Executions
import RegexEngine.Proofs.Engine.Folding
import RegexEngine.Proofs.Engine.Plain
import RegexEngine.Proofs.Engine.Found
import RegexEngine.Proofs.Engine.Offsets
import RegexEngine.Proofs.Engine.Sticky
import RegexEngine.Proofs.Engine.Registry
import RegexEngine.Proofs.Engine.Links
import RegexEngine.Proofs.Engine.Codec
import RegexEngine.Proofs.Engine.Marks
import RegexEngine.Proofs.Engine.Renewal
import RegexEngine.Proofs.Engine.Interruption
import RegexEngine.Proofs.Engine.Changes
import RegexEngine.Proofs.Engine.Compilation
import RegexEngine.Proofs.Engine.Generators
import RegexEngine.Proofs.Engine.Buffers
import RegexEngine.Proofs.Engine.LastIndex
import RegexEngine.Proofs.Engine.Undisturbed
import RegexEngine.Proofs.Engine.Matches
import RegexEngine.Proofs.Session.Identity
import RegexEngine.Proofs.Session.History
import RegexEngine.Proofs.Session.Checked
import RegexEngine.Proofs.Session.Barrier
import RegexEngine.Proofs.Session.Sweeps
import RegexEngine.Proofs.Session.Compilation
import RegexEngine.Proofs.Session.LastIndex
