import CueSheet.CommandLine
import CueSheet.Decimal
import CueSheet.Device.Error
import CueSheet.Device.Instance
import CueSheet.Device.Journal
import CueSheet.Device.Rehearsal
import CueSheet.Directive.Basic
import CueSheet.Directive.Reader
import CueSheet.Dispatch
import CueSheet.Draft
import CueSheet.Files.Desk
import CueSheet.Files.Tree
import CueSheet.Line.Expression
import CueSheet.Line.Fault
import CueSheet.Line.Statement
import CueSheet.Load.Basic
import CueSheet.Load.Exchange
import CueSheet.Load.Pipe
import CueSheet.Main
import CueSheet.Plan
import CueSheet.Program
import CueSheet.Proofs.Basic
import CueSheet.Proofs.Device.Books
import CueSheet.Proofs.Device.Calls
import CueSheet.Proofs.Device.Configured
import CueSheet.Proofs.Device.Discipline
import CueSheet.Proofs.Device.Journal
import CueSheet.Proofs.Directive.Device
import CueSheet.Proofs.Directive.Load
import CueSheet.Proofs.Directive.Quoted
import CueSheet.Proofs.Directive.Respaced
import CueSheet.Proofs.Directive.Word
import CueSheet.Proofs.Load.Blame
import CueSheet.Proofs.Load.Blocks
import CueSheet.Proofs.Load.Bodies
import CueSheet.Proofs.Load.Closed
import CueSheet.Proofs.Load.Cycle
import CueSheet.Proofs.Load.Draft
import CueSheet.Proofs.Load.Duplicate
import CueSheet.Proofs.Load.Ending
import CueSheet.Proofs.Load.Exchange
import CueSheet.Proofs.Load.Exports
import CueSheet.Proofs.Load.Frozen
import CueSheet.Proofs.Load.Graph
import CueSheet.Proofs.Load.InTurn
import CueSheet.Proofs.Load.Isolation
import CueSheet.Proofs.Load.Linker
import CueSheet.Proofs.Load.Names
import CueSheet.Proofs.Load.Nesting
import CueSheet.Proofs.Load.Opening
import CueSheet.Proofs.Load.Orderly
import CueSheet.Proofs.Load.Place
import CueSheet.Proofs.Load.Ranked
import CueSheet.Proofs.Load.Reading
import CueSheet.Proofs.Load.Refused
import CueSheet.Proofs.Load.Renumber
import CueSheet.Proofs.Load.Sheet
import CueSheet.Proofs.Load.Times
import CueSheet.Proofs.Load.Underway
import CueSheet.Proofs.Load.Usable
import CueSheet.Proofs.Load.Window
import CueSheet.Proofs.Plan.Capture
import CueSheet.Proofs.Plan.Closed
import CueSheet.Proofs.Plan.Duration
import CueSheet.Proofs.Plan.Frames
import CueSheet.Proofs.Plan.Inlining
import CueSheet.Proofs.Plan.Instances
import CueSheet.Proofs.Plan.Merged
import CueSheet.Proofs.Plan.Recursion
import CueSheet.Proofs.Plan.Refusal
import CueSheet.Proofs.Plan.Registry
import CueSheet.Proofs.Plan.Renaming
import CueSheet.Proofs.Plan.Safety
import CueSheet.Proofs.Run.Course
import CueSheet.Proofs.Run.Preflight
import CueSheet.Proofs.Run.Safety
import CueSheet.Proofs.Run.Timing
import CueSheet.Proofs.Run.Turns
import CueSheet.Proofs.Schedule.Compiled
import CueSheet.Proofs.Schedule.Evaluation
import CueSheet.Proofs.Schedule.Exact
import CueSheet.Proofs.Schedule.Order
import CueSheet.Proofs.Schedule.Overlap
import CueSheet.Proofs.Schedule.Permuted
import CueSheet.Proofs.Schedule.Saturation
import CueSheet.Proofs.Schedule.Slots
import CueSheet.Proofs.Schedule.Timeline
import CueSheet.Proofs.Serial.Keys
import CueSheet.Proofs.Serial.Port
import CueSheet.Proofs.Source.Block
import CueSheet.Proofs.Source.Doubles
import CueSheet.Proofs.Source.Grammar
import CueSheet.Proofs.Source.Lexing
import CueSheet.Proofs.Source.Number
import CueSheet.Proofs.Source.Parsing
import CueSheet.Proofs.Source.RoundTrip
import CueSheet.Proofs.Source.Spread
import CueSheet.Proofs.Source.Statement
import CueSheet.Proofs.Text.Breaking
import CueSheet.Proofs.Text.Cutting
import CueSheet.Proofs.Text.Respaced
import CueSheet.Registry
import CueSheet.Run
import CueSheet.Schedule
import CueSheet.Serial.Config
import CueSheet.Serial.Host
import CueSheet.Serial.Port
import CueSheet.Settings.Basic
import CueSheet.Settings.Yaml
import CueSheet.Text
import CueSheet.Timestamp
import CueSheet.Token.Basic
import CueSheet.Token.Lexer
import CueSheet.Writer
