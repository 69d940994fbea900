import RecordLang.Analysis
import RecordLang.Json.Basic
import RecordLang.Source.Digest

/-!
# Verdicts

The verdict on a source: whether it has no faults, the stored ones, and the digest of its text.
-/

namespace RecordLang

/-- What is reported of a source. -/
structure Verdict where
  success : Bool
  diagnostics : Diagnostics
  digest : String

/-- A diagnostic as a report shows it. -/
def Diagnostic.json (d : Diagnostic) : Json :=
  .object [("file", .string d.file), ("code", .nat d.code.number),
    ("category", .string d.category.render), ("message", .string d.message),
    ("line", .nat d.span.first.line), ("column", .nat d.span.first.column),
    ("end_line", .nat d.span.last.line), ("end_column", .nat d.span.last.column),
    ("source_line", .string d.sourceLine)]

namespace Verdict

def new (source : Source) (diagnostics : Diagnostics) : Verdict :=
  ⟨!diagnostics.nonempty, diagnostics, source.digest⟩

/-- The verdict on a source. -/
def ofSource (source : Source) : Verdict := new source (analyze source).diagnostics

/-- The members of a report. -/
def members (v : Verdict) : List (String × Json) :=
  [("success", .bool v.success),
    ("errors", .object [("errors", .array (v.diagnostics.kept.map Diagnostic.json)),
      ("total_errors", .nat v.diagnostics.total)]),
    ("source_hash", .string v.digest)]

/-- The report as JSON text. -/
def text (v : Verdict) : String := (Json.object v.members).text

end Verdict

end RecordLang
