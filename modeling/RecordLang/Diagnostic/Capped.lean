/-!
# Capped lists

A capped list stores the first `limit` items that are pushed and counts all of them.
-/

namespace RecordLang

/-- The first items of a growing list, and how many there were in all. -/
structure Capped (α : Type) where
  kept : List α
  total : Nat
  deriving DecidableEq, Repr

namespace Capped

variable {α β : Type}

/-- How many items are stored. -/
def limit : Nat := 20

def empty : Capped α := ⟨[], 0⟩

instance : Inhabited (Capped α) := ⟨empty⟩

def push (c : Capped α) (a : α) : Capped α :=
  ⟨if c.kept.length < limit then c.kept ++ [a] else c.kept, c.total + 1⟩

/-- Pushes the items of a list in order. -/
def pushAll (c : Capped α) (as : List α) : Capped α := as.foldl push c

/-- Pushes the stored items of `d` and counts the ones it dropped. -/
def extend (c d : Capped α) : Capped α :=
  let e := c.pushAll d.kept
  ⟨e.kept, e.total + (d.total - d.kept.length)⟩

/-- The capped form of a whole list. -/
def ofList (as : List α) : Capped α := empty.pushAll as

def map (f : α → β) (c : Capped α) : Capped β := ⟨c.kept.map f, c.total⟩

def nonempty (c : Capped α) : Bool := 0 < c.total

/-- As many items as can be stored were pushed. -/
def full (c : Capped α) : Bool := limit ≤ c.total

/-- How many items were counted and not stored. -/
def dropped (c : Capped α) : Nat := c.total - c.kept.length

end Capped

end RecordLang
