import RecordLang.Program.Parser.Grammar
import RecordLang.Token.Lexer
import RecordLang.Typing.Checker

/-!
# Analysis

A source is read into tokens and then into a program; both go on after faults and report as many as
can be stored. Only a program without faults in its form is checked, and the check reports at most
one fault.
-/

namespace RecordLang

/-- What is found out about a source. -/
structure Analysis where
  program : Option Program
  diagnostics : Diagnostics
  typeChecked : Bool
  events : List Event

/-- The program of a source, with the faults in its tokens before those in its form. -/
def Source.parse (s : Source) : Option Program × Diagnostics :=
  let parsed := RecordLang.parse s.lex.tokens
  (parsed.program, s.lexDiagnostics.extend (parsed.faults.map (.ofFault s)))

/-- The events of reading a source. -/
def Source.readingEvents (s : Source) : List Event :=
  let lexed := s.lex
  let parsed := RecordLang.parse lexed.tokens
  [.started s.name, .lexed s.name lexed.tokens.length lexed.faults.total,
    .parsed s.name (parsed.program.elim 0 fun p => p.body.length) parsed.faults.total]

/-- Reads and checks a source. -/
def analyze (s : Source) : Analysis :=
  let (program, diagnostics) := s.parse
  match program, diagnostics.nonempty with
  | some program, false =>
    let v := program.check .new
    let events := s.readingEvents ++ v.state.log.reverse
    match v.result with
    | .ok () => ⟨some v.nodes, diagnostics, true, events⟩
    | .error (.fault f) => ⟨some v.nodes, diagnostics.push (.ofFault s f), false, events⟩
    | .error .revisited => ⟨some v.nodes, diagnostics, false, events⟩
  | program, _ =>
    ⟨program, diagnostics, false, s.readingEvents ++ [.skipped diagnostics.total]⟩

end RecordLang
