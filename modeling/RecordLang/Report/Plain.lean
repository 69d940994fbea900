import RecordLang.Diagnostic.Basic

/-!
# Diagnostics as plain text

A diagnostic is shown with the line of its source, carets under the part of the line that is meant,
and the message once more below, centred on the carets.
-/

namespace RecordLang

def blanks (n : Nat) : String := String.ofList (List.replicate n ' ')

def carets (n : Nat) : String := String.ofList (List.replicate n '^')

/-- What stands before every line of a hint. -/
def hintMargin : String := "    | "

namespace Diagnostic

/-- The place of the first caret: the column where the span starts, but not behind the line. -/
def caretStart (d : Diagnostic) : Nat :=
  min (d.span.first.column - 1) d.sourceLine.length

/-- The place behind the last caret. A span of several lines is marked up to the end of the line. -/
def caretEnd (d : Diagnostic) : Nat :=
  if d.span.last.line = d.span.first.line then min d.span.last.column d.sourceLine.length
  else d.sourceLine.length

/-- There is at least one caret. -/
def caretWidth (d : Diagnostic) : Nat := max (d.caretEnd - d.caretStart) 1

/-- The place where the message starts, so that its middle is below that of the carets. -/
def messageStart (d : Diagnostic) : Nat :=
  d.caretStart + d.caretWidth / 2 - d.message.length / 2

/-- The row of carets without its margin. -/
def caretRow (d : Diagnostic) : String := blanks d.caretStart ++ carets d.caretWidth

/-- The line with its carets and the message. -/
def hint (d : Diagnostic) : String :=
  hintMargin ++ d.sourceLine ++ "\n" ++
    hintMargin ++ d.caretRow ++ "\n" ++
    hintMargin ++ blanks d.messageStart ++ d.message ++ "\n"

/-- A diagnostic with its hint; an empty line is not shown. -/
def plain (d : Diagnostic) : String :=
  d.file ++ ":" ++ d.render ++ "\n" ++ (if d.sourceLine.isEmpty then "" else d.hint)

end Diagnostic

/-- All stored diagnostics, and how many there are besides. -/
def Capped.plain (c : Diagnostics) : String :=
  String.join (c.kept.map Diagnostic.plain) ++
    (if 0 < c.dropped then s!"... and {c.dropped} more errors\n" else "")

end RecordLang
