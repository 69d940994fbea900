import RecordLang.Json.Reader
import RecordLang.Report.Verdict

/-!
# Reading verdicts

A verdict from its JSON text. Every known member stands there once, and others are ignored. The
verdict and its list of diagnostics may also be arrays of their members in order; a diagnostic may
not.
-/

namespace RecordLang

open Json (Document)

/-- How many arrays and objects may stand inside each other in a diagnostic. -/
def maxDiagnosticDepth : Nat := 124

/-- The name of a category, alone or as the only member of an object. -/
def Category.ofDocument? : Document → Option Category
  | .string (some s) | .object [(some s, .null)] => ofText? s
  | _ => none

def Code.ofDocument? (d : Document) : Option Code := (d.natBelow? (Nat.pow 2 16)).map Code.mk

def Position.ofDocuments? (line column : Document) : Option Position := do
  pure ⟨← line.natBelow? (Nat.pow 2 32), ← column.natBelow? (Nat.pow 2 32)⟩

def Diagnostic.ofDocument? (d : Document) : Option Diagnostic := do
  if !d.legible maxDiagnosticDepth then none
  let members ← d.members?
  let get (name : String) : Option Document := Document.member? name members
  pure {
    file := ← (← get "file").text?
    code := ← Code.ofDocument? (← get "code")
    category := ← Category.ofDocument? (← get "category")
    message := ← (← get "message").text?
    span := ⟨← Position.ofDocuments? (← get "line") (← get "column"),
      ← Position.ofDocuments? (← get "end_line") (← get "end_column")⟩
    sourceLine := ← (← get "source_line").text? }

/-- A list of diagnostics with their number, which need not be the length of the list. -/
def Diagnostics.ofDocuments? (errors total : Document) : Option Diagnostics := do
  pure ⟨← (← errors.items?).mapM Diagnostic.ofDocument?, ← total.natBelow? (Nat.pow 2 64)⟩

def Diagnostics.ofDocument? : Document → Option Diagnostics
  | .array [errors, total] => ofDocuments? errors total
  | d => do
    let members ← d.members?
    ofDocuments? (← Document.member? "errors" members) (← Document.member? "total_errors" members)

def Verdict.ofDocuments? (success diagnostics digest : Document) : Option Verdict := do
  pure ⟨← success.bool?, ← Diagnostics.ofDocument? diagnostics, ← digest.text?⟩

def Verdict.ofDocument? : Document → Option Verdict
  | .array [success, diagnostics, digest] => ofDocuments? success diagnostics digest
  | d => do
    let members ← d.members?
    ofDocuments? (← Document.member? "success" members) (← Document.member? "errors" members)
      (← Document.member? "source_hash" members)

/-- The verdict that a text reports. -/
def Verdict.read? (text : String) : Option Verdict := (Document.read? text).bind ofDocument?

end RecordLang
