import RecordLang.Analysis
import RecordLang.Command.Args
import RecordLang.Command.Run
import RecordLang.Decimal.Binary64
import RecordLang.Decimal.Reader
import RecordLang.Decimal.Shortest
import RecordLang.Decimal.Style
import RecordLang.Diagnostic.Basic
import RecordLang.Diagnostic.Capped
import RecordLang.Diagnostic.Code
import RecordLang.Event
import RecordLang.Json.Basic
import RecordLang.Json.Document
import RecordLang.Json.Reader
import RecordLang.Main
import RecordLang.Program.Dump
import RecordLang.Program.Fault
import RecordLang.Program.Parser.Cursor
import RecordLang.Program.Parser.Grammar
import RecordLang.Program.Tree
import RecordLang.Report.Plain
import RecordLang.Report.Reader
import RecordLang.Report.Verdict
import RecordLang.Source.Basic
import RecordLang.Source.Digest
import RecordLang.Source.Span
import RecordLang.Text.Invisible
import RecordLang.Text.Layout
import RecordLang.Text.Mark
import RecordLang.Text.Printable
import RecordLang.Text.Quoted
import RecordLang.Text.Utf8
import RecordLang.Token.Basic
import RecordLang.Token.Fault
import RecordLang.Token.Lexer
import RecordLang.Ty.Basic
import RecordLang.Typing.Checker
import RecordLang.Typing.Context
import RecordLang.Typing.Fault
import RecordLang.Typing.Operator
import RecordLang.Typing.Returns
import RecordLang.Proofs.Ty.Names
import RecordLang.Proofs.Typing.Context
import RecordLang.Proofs.Typing.Visit
import RecordLang.Proofs.Typing.Scope
import RecordLang.Proofs.Typing.Bare
import RecordLang.Proofs.Typing.Judgement
import RecordLang.Proofs.Typing.Node
import RecordLang.Proofs.Typing.Soundness
import RecordLang.Proofs.Typing.Agreement
import RecordLang.Proofs.Typing.WellFormed
import RecordLang.Proofs.Typing.ReturnPath
import RecordLang.Proofs.Ty.Order
import RecordLang.Proofs.Typing.Meaning
import RecordLang.Proofs.Typing.Member
import RecordLang.Proofs.Typing.Fresh
import RecordLang.Proofs.Typing.Unused
import RecordLang.Proofs.Typing.ReturnSite
import RecordLang.Proofs.Program.Run
import RecordLang.Proofs.Typing.ReturnScope
import RecordLang.Proofs.Program.Reads
import RecordLang.Proofs.Program.Sound
import RecordLang.Proofs.Program.Unplaced
import RecordLang.Proofs.Program.Complete
import RecordLang.Proofs.Program.Levels
import RecordLang.Proofs.Program.Depth
import RecordLang.Proofs.Program.Nesting
import RecordLang.Proofs.Program.Pruned
import RecordLang.Proofs.Program.Faithful
import RecordLang.Proofs.Program.Canonical
import RecordLang.Proofs.Program.Steady
import RecordLang.Proofs.Program.Progress
import RecordLang.Proofs.Program.Counter
import RecordLang.Proofs.Program.Recovery
import RecordLang.Proofs.Token.Relexed
import RecordLang.Proofs.Source.Lines
import RecordLang.Proofs.Token.Tiling
import RecordLang.Proofs.Token.Joined
import RecordLang.Proofs.Program.Layout
import RecordLang.Proofs.Typing.Placeless
import RecordLang.Proofs.Layout
import RecordLang.Proofs.Typing.Related
import RecordLang.Proofs.Typing.Absent
import RecordLang.Proofs.Typing.Independent
import RecordLang.Proofs.Ty.Renamed
import RecordLang.Proofs.Program.Renamed
import RecordLang.Proofs.Typing.Renamed
import RecordLang.Proofs.Typing.Slots
import RecordLang.Proofs.Typing.Session
import RecordLang.Proofs.Program.Nodes
import RecordLang.Proofs.Program.Spans
import RecordLang.Proofs.Token.Begins
import RecordLang.Proofs.Program.Invariant
import RecordLang.Proofs.Typing.Blame
import RecordLang.Proofs.Verdict
import RecordLang.Proofs.Typing.Later
import RecordLang.Proofs.Typing.Stack
import RecordLang.Proofs.Typing.Arena
import RecordLang.Proofs.Typing.Compatible
import RecordLang.Proofs.Token.Words
import RecordLang.Proofs.Ty.Rendered
import RecordLang.Proofs.Typing.Legible
import RecordLang.Proofs.Typing.Mismatch
import RecordLang.Proofs.Token.Adjacent
import RecordLang.Proofs.Program.Annotation
import RecordLang.Proofs.Text.Boundary
import RecordLang.Proofs.Report.Bindings
import RecordLang.Proofs.Report.Carets
import RecordLang.Proofs.Diagnostic.Capped
import RecordLang.Proofs.Token.Rounds
import RecordLang.Proofs.Token.Characters
import RecordLang.Proofs.Diagnostic.Collected
