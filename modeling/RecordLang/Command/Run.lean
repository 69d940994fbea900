import RecordLang.Command.Args
import RecordLang.Program.Dump
import RecordLang.Report.Plain
import RecordLang.Report.Verdict

/-!
# Running commands

Every command gives a text and says whether it found faults. The files are read in order, and one
that cannot be read ends the command without any output.
-/

namespace RecordLang

/-- The output of a command. -/
structure Outcome where
  output : String
  failed : Bool

/-- Why a file cannot be read. -/
inductive ReadError where
  | missing (file : String)
  | notText (file : String)
  deriving DecidableEq, Repr

def ReadError.message : ReadError → String
  | missing file => s!"could not read {file}: No such file or directory (os error 2)"
  | notText file => s!"could not read {file}: stream did not contain valid UTF-8"

/-- The source in a file, given the bytes of the files that exist. -/
def Source.read (contents : String → Option (List UInt8)) (file : String) :
    Except ReadError Source :=
  match contents file with
  | none => .error (.missing file)
  | some bytes =>
    match Text.ofUtf8? bytes with
    | none => .error (.notText file)
    | some text => .ok ⟨file, text⟩

/-! ### Checking files -/

/-- A variable that is declared outside all blocks, with its type. -/
structure Binding where
  name : String
  type : Ty

/-- The type found for the initial value, or the declared type if there is none. -/
def Stmt.binding? : Stmt → Option Binding
  | .let_ x type value _ => some ⟨x.name, (value.bind Expr.type).getD type.ty⟩
  | _ => none

def Program.bindings (p : Program) : List Binding := p.body.filterMap Stmt.binding?

/-- The report on a file. -/
structure FileReport where
  file : String
  verdict : Verdict
  bindings : List Binding

namespace FileReport

/-- Checks a source. Bindings are listed only if that is asked and there was no fault. -/
def ofSource (dumpTypes : Bool) (source : Source) : FileReport :=
  let analysis := analyze source
  let bindings := match analysis.program with
    | some p => if dumpTypes && analysis.typeChecked then p.bindings else []
    | none => []
  ⟨source.name, .new source analysis.diagnostics, bindings⟩

def json (r : FileReport) : Json :=
  let bindings := r.bindings.map fun b =>
    Json.object [("name", .string b.name), ("type", .string b.type.render)]
  .object (("file", .string r.file) :: r.verdict.members ++
    (if bindings.isEmpty then [] else [("bindings", .array bindings)]))

def plain (r : FileReport) : String :=
  r.verdict.diagnostics.plain ++
    String.join (r.bindings.map fun b => s!"{r.file}: {b.name}: {b.type.render}\n") ++
    (if r.verdict.success then s!"{r.file}: ok\n" else "")

end FileReport

/-- The reports on some sources. -/
def checkSources (format : OutputFormat) (dumpTypes : Bool) (sources : List Source) : Outcome :=
  let reports := sources.map (FileReport.ofSource dumpTypes)
  let output := match format with
    | .json => (Json.array (reports.map FileReport.json)).text ++ "\n"
    | .text => String.join (reports.map FileReport.plain)
  ⟨output, reports.any fun r => !r.verdict.success⟩

/-! ### Dumps -/

/-- The tree of a source and the faults in its form. -/
def dumpProgram (source : Source) : Outcome :=
  let (program, diagnostics) := source.parse
  let tree := (program.map fun p => p.dump ++ "\n").getD ""
  ⟨tree ++ diagnostics.plain, diagnostics.nonempty⟩

/-- A token with its position. -/
def Token.line (t : Token) : String :=
  Text.padLeft 4 (toString t.span.first.line) ++ ":" ++
    Text.padRight 4 (toString t.span.first.column) ++ " " ++ t.kind.dump ++ "\n"

/-- The tokens of a source and the faults in them. -/
def dumpTokens (source : Source) : Outcome :=
  ⟨String.join (source.lex.tokens.map Token.line) ++ source.lexDiagnostics.plain,
    source.lexDiagnostics.nonempty⟩

/-- Runs a command on the files that exist. -/
def Command.run (contents : String → Option (List UInt8)) : Command → Except ReadError Outcome
  | .check files format dumpTypes => do
    pure (checkSources format dumpTypes (← files.mapM (Source.read contents)))
  | .ast file => do pure (dumpProgram (← Source.read contents file))
  | .tokens file => do pure (dumpTokens (← Source.read contents file))

end RecordLang
