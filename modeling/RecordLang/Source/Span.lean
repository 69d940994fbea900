/-!
# Positions and spans

A position is a line and a column, both counted from one; columns count bytes. A span runs from
the position of its first byte to the position of its last one, and two spans merge into the
smallest span that covers both.
-/

namespace RecordLang

/-- A place in a text: line and byte column, both from one. -/
structure Position where
  line : Nat
  column : Nat
  deriving DecidableEq, Repr, Inhabited

namespace Position

/-- The first position of every text. -/
def origin : Position := ⟨1, 1⟩

instance : LE Position := ⟨fun a b => a.line < b.line ∨ a.line = b.line ∧ a.column ≤ b.column⟩

instance (a b : Position) : Decidable (a ≤ b) :=
  inferInstanceAs (Decidable (a.line < b.line ∨ a.line = b.line ∧ a.column ≤ b.column))

instance : Min Position := minOfLe

instance : Max Position := maxOfLe

theorem le_def {a b : Position} :
    a ≤ b ↔ a.line < b.line ∨ a.line = b.line ∧ a.column ≤ b.column :=
  Iff.rfl

/-- The position after one byte: a line feed starts a new line. -/
def next (p : Position) (b : UInt8) : Position :=
  if b = 10 then ⟨p.line + 1, 1⟩ else ⟨p.line, p.column + 1⟩

/-- The position after a run of bytes. -/
def past (p : Position) (bytes : List UInt8) : Position :=
  bytes.foldl next p

@[simp] theorem past_nil (p : Position) : p.past [] = p := rfl

@[simp] theorem past_cons (p : Position) (b : UInt8) (bs : List UInt8) :
    p.past (b :: bs) = (p.next b).past bs := rfl

@[simp] theorem past_append (p : Position) (as bs : List UInt8) :
    p.past (as ++ bs) = (p.past as).past bs :=
  List.foldl_append

end Position

/-- A stretch of text, from its first to its last position. -/
structure Span where
  first : Position
  last : Position
  deriving DecidableEq, Repr, Inhabited

namespace Span

/-- The span of a single position. -/
def point (p : Position) : Span := ⟨p, p⟩

/-- The span of a lexeme that starts at `start` and after which the text goes on at `stop`. The
last column is at least one: a lexeme that ends with a line feed ends in the first column of the
next line. -/
def between (start stop : Position) : Span :=
  ⟨start, ⟨stop.line, max (stop.column - 1) 1⟩⟩

/-- The smallest span that covers both. -/
def merge (a b : Span) : Span := ⟨min a.first b.first, max a.last b.last⟩

/-- The line that a report names. -/
def line (s : Span) : Nat := s.first.line

/-- A span is written as the position where it starts. -/
def render (s : Span) : String := s!"{s.first.line}:{s.first.column}"

end Span

end RecordLang
