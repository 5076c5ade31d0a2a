import ProcLang.Diagnostic
import ProcLang.Source.Location
import ProcLang.Text.Decimal
import ProcLang.Text.WhiteSpace
import ProcLang.Token.Basic
import ProcLang.Token.Scanner
import ProcLang.Syntax.Operator
import ProcLang.Syntax.Node
import ProcLang.Syntax.Frame
import ProcLang.Syntax.Outline
import ProcLang.Syntax.Check
import ProcLang.Event
import ProcLang.Grammar.Fault
import ProcLang.Grammar.Reading
import ProcLang.Grammar.Expression
import ProcLang.Grammar.Program
import ProcLang.Json.Value
import ProcLang.Json.Pretty
import ProcLang.Json.Reader
import ProcLang.Syntax.Interchange
import ProcLang.Assembly.Instruction
import ProcLang.Assembly.Label
import ProcLang.Lowering.Emitter
import ProcLang.Lowering.Storage
import ProcLang.Lowering.Stack
import ProcLang.Lowering.Node
import ProcLang.Lowering.Program
import ProcLang.Command.Arguments
import ProcLang.Text.Separated
import ProcLang.Text.Terminal
import ProcLang.Command.ErrorStream
import ProcLang.Command.Files
import ProcLang.Command.Run
import ProcLang.Main
import ProcLang.Proofs.Lowering.ProcedureStack
import ProcLang.Proofs.Lowering.CallingConvention
import ProcLang.Proofs.Lowering.StatementMeaning
import ProcLang.Proofs.Lowering.ProgramMeaning
import ProcLang.Proofs.Lowering.FrameReferences
import ProcLang.Proofs.Lowering.Completion
import ProcLang.Proofs.Lowering.Reached
import ProcLang.Proofs.Lowering.Bookkeeping
import ProcLang.Proofs.Lowering.ClosedCode
import ProcLang.Proofs.Lowering.ProgramSegments
import ProcLang.Proofs.Lowering.ImmediateReach
import ProcLang.Proofs.Grammar.Derivation
import ProcLang.Proofs.Grammar.Completeness
import ProcLang.Proofs.Token.Spacing
import ProcLang.Proofs.Grammar.WellFormed
import ProcLang.Proofs.Grammar.Rendering
import ProcLang.Proofs.Grammar.Soundness
import ProcLang.Proofs.Token.Scanned
import ProcLang.Proofs.Lowering.Asides
import ProcLang.Proofs.Lowering.Warnings
import ProcLang.Proofs.Grammar.HandedOver
import ProcLang.Proofs.Json.RoundTrip
import ProcLang.Proofs.Syntax.Interchange
import ProcLang.Proofs.Lowering.Remarks
import ProcLang.Proofs.Command.Outcome
import ProcLang.Proofs.Command.JsonRoute
import ProcLang.Proofs.Token.Segmentation
import ProcLang.Proofs.Lowering.Renumbering
import ProcLang.Proofs.Lowering.ProgramItems
import ProcLang.Proofs.Lowering.Independence
import ProcLang.Proofs.Lowering.StaticStorage
import ProcLang.Proofs.Command.Files
import ProcLang.Proofs.Command.Delivery
import ProcLang.Proofs.Lowering.PlainExpression
import ProcLang.Proofs.Grammar.Unplaced
import ProcLang.Proofs.Grammar.Layout
import ProcLang.Proofs.Lowering.View
import ProcLang.Proofs.Lowering.Reordering
import ProcLang.Proofs.Lowering.FramePartition
import ProcLang.Proofs.Syntax.Canonical
import ProcLang.Proofs.Assembly.Listing
import ProcLang.Proofs.Lowering.LegibleCode
import ProcLang.Proofs.Lowering.Annotation
import ProcLang.Proofs.Grammar.Semicolon
import ProcLang.Proofs.Assembly.Decoding
import ProcLang.Proofs.Grammar.Progress
import ProcLang.Proofs.Grammar.Blame
import ProcLang.Proofs.Grammar.Foresight
import ProcLang.Proofs.Syntax.Outline
import ProcLang.Proofs.Syntax.Splicing
