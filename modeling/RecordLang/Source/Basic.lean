import RecordLang.Text.Utf8

/-!
# Source texts

A source is a text with the name it is reported under. Lines are numbered from one and end at
line feeds; a line is shown without the carriage returns at its end.
-/

namespace RecordLang

/-- The lines of a text: one more than it has line feeds. -/
def splitLines : List Char → List (List Char)
  | [] => [[]]
  | c :: cs =>
    if c = '\n' then [] :: splitLines cs
    else match splitLines cs with
      | [] => [[c]]
      | l :: ls => (c :: l) :: ls

/-- A line without the carriage returns at its end. -/
def dropReturns (line : List Char) : List Char :=
  (line.reverse.dropWhile (· == '\r')).reverse

/-- A named text. -/
structure Source where
  name : String
  text : String
  deriving DecidableEq, Repr, Inhabited

namespace Source

/-- The UTF-8 bytes of the text. -/
def bytes (s : Source) : List UInt8 := Text.utf8 s.text

/-- The lines of the text, as they are shown. -/
def lines (s : Source) : List String :=
  (splitLines s.text.toList).map fun l => String.ofList (dropReturns l)

/-- The line of a number, from one. -/
def line? (s : Source) (n : Nat) : Option String :=
  if n = 0 then none else s.lines[n - 1]?

def lineCount (s : Source) : Nat := s.lines.length

end Source

end RecordLang
