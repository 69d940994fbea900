import RecordLang.Source.Basic
import RecordLang.Source.Span
import RecordLang.Diagnostic.Capped
import RecordLang.Diagnostic.Code

/-!
# Diagnostics

A fault is a cause at a span. A diagnostic is what is reported of it: code, category and message,
with the name of the source and the line where the fault starts.
-/

namespace RecordLang

/-- A cause with the span where it was found. -/
structure Located (α : Type) where
  cause : α
  span : Span
  deriving DecidableEq, Repr

/-- Causes that have a code and a wording. -/
class Explained (α : Type) where
  code : α → Code
  message : α → String

/-- A reported fault. -/
structure Diagnostic where
  file : String
  code : Code
  category : Category
  message : String
  span : Span
  sourceLine : String
  deriving DecidableEq, Repr, Inhabited

/-- The stored diagnostics of a run, with their total number. -/
abbrev Diagnostics := Capped Diagnostic

namespace Diagnostic

/-- A diagnostic whose category follows from its code. -/
def new (file : String) (code : Code) (message : String) (span : Span) (sourceLine : String) :
    Diagnostic :=
  ⟨file, code, code.category, message, span, sourceLine⟩

/-- A diagnostic that shows the line of a source where the span starts, or an empty line if the
source has none of that number. -/
def inSource (source : Source) (code : Code) (message : String) (span : Span) : Diagnostic :=
  new source.name code message span ((source.line? span.line).getD "")

/-- The diagnostic of a fault found in a source. -/
def ofFault {α : Type} [Explained α] (source : Source) (fault : Located α) : Diagnostic :=
  inSource source (Explained.code fault.cause) (Explained.message fault.cause) fault.span

def render (d : Diagnostic) : String :=
  s!"{d.span.render}: {d.code.render} [{d.category.render}] {d.message}"

end Diagnostic

end RecordLang
