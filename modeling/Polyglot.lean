import Polyglot.Unit.Generator
import Polyglot.World.Machine
import Polyglot.Program
import Polyglot.Chronicle
import Polyglot.Build
import Polyglot.Run.Scheduler
import Polyglot.Run.Execution
import Polyglot.Report
import Polyglot.Console.Screen
import Polyglot.Project
import Polyglot.Console.Arguments
import Polyglot.Console.Execute
import Polyglot.Main
import Polyglot.Proofs.Run.Expansion
import Polyglot.Proofs.Run.Turn
import Polyglot.Proofs.Run.Threading
import Polyglot.Proofs.Text.Pieces
import Polyglot.Proofs.Unit.Filling
import Polyglot.Proofs.Token.Scan
import Polyglot.Proofs.Token.Span
import Polyglot.Proofs.Call.Heads
import Polyglot.Proofs.Analysis.Lines
import Polyglot.Proofs.Program.Compiled
import Polyglot.Proofs.Plan.Groups
import Polyglot.Proofs.Plan.Partition
import Polyglot.Proofs.Unit.Tracking
import Polyglot.Proofs.Unit.Invocation
import Polyglot.Proofs.Run.Reissue
import Polyglot.Proofs.World.Files
import Polyglot.Proofs.World.Scratch
import Polyglot.Proofs.Run.Dispatch
import Polyglot.Proofs.Run.Records
import Polyglot.Proofs.Unit.LateFilling
import Polyglot.Proofs.Run.Resolving
import Polyglot.Proofs.Call.Search
import Polyglot.Proofs.World.Writing
import Polyglot.Proofs.Run.Passage
import Polyglot.Proofs.World.Leftovers
import Polyglot.Proofs.Run.Tandem
import Polyglot.Proofs.Run.Leftovers
import Polyglot.Proofs.Run.Provenance
import Polyglot.Proofs.Run.Answers
import Polyglot.Proofs.Token.Nested
import Polyglot.Proofs.Value.Printing
import Polyglot.Proofs.Globals.Preamble
import Polyglot.Proofs.Globals.Reading
import Polyglot.Proofs.Segment.Lossless
import Polyglot.Proofs.Analysis.Origin
import Polyglot.Proofs.Program.Errors
import Polyglot.Proofs.Run.Telling
import Polyglot.Proofs.Run.Interpreter
import Polyglot.Proofs.Unit.Containing
import Polyglot.Proofs.Run.Clobbering
import Polyglot.Proofs.Run.Printing
import Polyglot.Proofs.Console.Streaming
import Polyglot.Proofs.Segment.Chapter
import Polyglot.Proofs.Run.Hidden
import Polyglot.Proofs.Plan.Precedence
import Polyglot.Proofs.Unit.Arrangement
import Polyglot.Proofs.Run.Redeclaring
import Polyglot.Proofs.Call.Outermost
import Polyglot.Proofs.Plan.Admitting
import Polyglot.Proofs.Program.Calls
import Polyglot.Proofs.Unit.Splicing
import Polyglot.Proofs.Unit.Exchanging
import Polyglot.Proofs.Program.Redefining
import Polyglot.Proofs.Function.Bracing
import Polyglot.Proofs.Function.Indenting
import Polyglot.Proofs.Unit.Runs
import Polyglot.Proofs.Value.Parsing
import Polyglot.Proofs.Value.Settling
import Polyglot.Proofs.Value.Translating
import Polyglot.Proofs.Token.Outside
import Polyglot.Proofs.Token.Shut
import Polyglot.Proofs.Token.Shifted
import Polyglot.Proofs.Unit.Declaring
import Polyglot.Proofs.Unit.Rebinding
import Polyglot.Proofs.Analysis.Statements
import Polyglot.Proofs.Analysis.Joining
import Polyglot.Proofs.Token.Tiling
import Polyglot.Proofs.Console.Window
import Polyglot.Proofs.Token.Literal
import Polyglot.Proofs.Token.Pairing
import Polyglot.Proofs.Unit.Rewording
