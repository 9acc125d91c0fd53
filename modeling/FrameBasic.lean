import FrameBasic.Command.Basic
import FrameBasic.Command.Device
import FrameBasic.Command.Standard
import FrameBasic.Command.Table
import FrameBasic.Command.Template
import FrameBasic.CommandLine
import FrameBasic.Compiler
import FrameBasic.Decimal.Binary64
import FrameBasic.Decimal.Layout
import FrameBasic.Decimal.Real
import FrameBasic.Decimal.Shortest
import FrameBasic.Decimal.Whole
import FrameBasic.Diagnostic
import FrameBasic.Dict
import FrameBasic.Disk.Basic
import FrameBasic.Disk.Path
import FrameBasic.Main
import FrameBasic.Program.Binding
import FrameBasic.Program.CallGraph
import FrameBasic.Program.DataPool
import FrameBasic.Program.Schedule
import FrameBasic.Proofs.Command.Arguments
import FrameBasic.Proofs.Command.Table
import FrameBasic.Proofs.Command.Template
import FrameBasic.Proofs.Decimal.Whole
import FrameBasic.Proofs.Program.Binding
import FrameBasic.Proofs.Program.Lower
import FrameBasic.Proofs.Program.Reach
import FrameBasic.Proofs.Program.Schedule
import FrameBasic.Proofs.Reader.Account
import FrameBasic.Proofs.Reader.Agree
import FrameBasic.Proofs.Reader.AgreeSimple
import FrameBasic.Proofs.Reader.AnyCase
import FrameBasic.Proofs.Reader.Block
import FrameBasic.Proofs.Reader.Call
import FrameBasic.Proofs.Reader.Canonical
import FrameBasic.Proofs.Reader.Data
import FrameBasic.Proofs.Reader.Expression
import FrameBasic.Proofs.Reader.Extent
import FrameBasic.Proofs.Reader.Faithful
import FrameBasic.Proofs.Reader.Inline
import FrameBasic.Proofs.Reader.Leads
import FrameBasic.Proofs.Reader.Line
import FrameBasic.Proofs.Reader.Located
import FrameBasic.Proofs.Reader.Names
import FrameBasic.Proofs.Reader.Placement
import FrameBasic.Proofs.Reader.Position
import FrameBasic.Proofs.Reader.Precedence
import FrameBasic.Proofs.Reader.Program
import FrameBasic.Proofs.Reader.Quiet
import FrameBasic.Proofs.Reader.Reads
import FrameBasic.Proofs.Reader.RoundTrip
import FrameBasic.Proofs.Reader.Simple
import FrameBasic.Proofs.Reader.Span
import FrameBasic.Proofs.Reader.Spelled
import FrameBasic.Proofs.Reader.StatementSteps
import FrameBasic.Proofs.Reader.Steps
import FrameBasic.Proofs.Reader.Store
import FrameBasic.Proofs.Reader.Target
import FrameBasic.Proofs.Reader.Trial
import FrameBasic.Proofs.Reader.Twins
import FrameBasic.Proofs.Reader.TypeNames
import FrameBasic.Proofs.Reader.Unclosed
import FrameBasic.Proofs.Reader.WrongArguments
import FrameBasic.Proofs.Scope
import FrameBasic.Proofs.Script.AnyCase
import FrameBasic.Proofs.Script.Await
import FrameBasic.Proofs.Script.Constants
import FrameBasic.Proofs.Script.DataOrder
import FrameBasic.Proofs.Script.Declared
import FrameBasic.Proofs.Script.Grammar
import FrameBasic.Proofs.Script.Identifier
import FrameBasic.Proofs.Script.Lexemes
import FrameBasic.Proofs.Script.Loop
import FrameBasic.Proofs.Script.Numeral
import FrameBasic.Proofs.Script.Operand
import FrameBasic.Proofs.Script.OutsideRoutines
import FrameBasic.Proofs.Script.Pieces
import FrameBasic.Proofs.Script.ReadBack
import FrameBasic.Proofs.Script.Relabel
import FrameBasic.Proofs.Script.Scope
import FrameBasic.Proofs.Script.Step
import FrameBasic.Proofs.Script.TextLiteral
import FrameBasic.Proofs.Script.Tokens
import FrameBasic.Proofs.Script.Unused
import FrameBasic.Proofs.Source.Include
import FrameBasic.Proofs.Source.Output
import FrameBasic.Proofs.Source.Position
import FrameBasic.Proofs.Token.Lexeme
import FrameBasic.Proofs.Token.Newline
import FrameBasic.Proofs.Token.Tiling
import FrameBasic.Proofs.Token.Unused
import FrameBasic.Proofs.Token.Word
import FrameBasic.Proofs.Tree.Canonical
import FrameBasic.Proofs.Tree.Lower
import FrameBasic.Proofs.Tree.Parentheses
import FrameBasic.Proofs.Tree.Relabel
import FrameBasic.Proofs.Tree.Spelling
import FrameBasic.Proofs.Tree.Walk
import FrameBasic.Scope
import FrameBasic.Script.Arguments
import FrameBasic.Script.Code
import FrameBasic.Script.Expr
import FrameBasic.Script.Fragment
import FrameBasic.Script.Frame
import FrameBasic.Script.Identifier
import FrameBasic.Script.Literal
import FrameBasic.Script.Notice
import FrameBasic.Script.Program
import FrameBasic.Script.Stmt
import FrameBasic.Source.Include
import FrameBasic.Source.Library
import FrameBasic.Source.LineIndex
import FrameBasic.Source.Span
import FrameBasic.Text.Blank
import FrameBasic.Text.Hidden
import FrameBasic.Text.Letters
import FrameBasic.Text.Lines
import FrameBasic.Text.Shown
import FrameBasic.Token.Basic
import FrameBasic.Token.Keyword
import FrameBasic.Token.Lexeme
import FrameBasic.Token.Scan
import FrameBasic.Tree.Expr
import FrameBasic.Tree.Listing
import FrameBasic.Tree.Operator
import FrameBasic.Tree.Parser.Block
import FrameBasic.Tree.Parser.Expression
import FrameBasic.Tree.Parser.Fault
import FrameBasic.Tree.Parser.Program
import FrameBasic.Tree.Parser.Simple
import FrameBasic.Tree.Parser.State
import FrameBasic.Tree.Stmt
import FrameBasic.Tree.Walk
import FrameBasic.Typing
import FrameBasic.Value
