import RecordLang.Program.Tree

/-!
# Operators and types

Which operators apply to which types. Only the name of a type counts, so an optional number is
treated like a number; the exception is negation of truth values, which takes `bool` alone.
Equality applies to all types.
-/

namespace RecordLang

def Literal.ty : Literal → Ty
  | int _ => .int
  | float _ => .float
  | bool _ => .bool
  | string _ => .string
  | null => .null

/-- The names of the types of numbers. -/
def numericNames : List String := ["int", "float"]

/-- The names of the types whose values can be added. -/
def addableNames : List String := ["int", "float", "string"]

/-- The names of the types that an operator applies to; no list means all types. -/
def BinaryOp.names : BinaryOp → Option (List String)
  | add => some addableNames
  | sub | mul | div | less | lessEq | greater | greaterEq => some numericNames
  | eq | notEq => none

/-- The operator applies to operands of a type with this name; function and record types have no
name. -/
def BinaryOp.applies (op : BinaryOp) (name : Option String) : Bool :=
  match op.names with
  | none => true
  | some names => name.any names.contains

def UnaryOp.applies (op : UnaryOp) (t : Ty) : Bool :=
  match op with
  | neg => t.baseName.any numericNames.contains
  | not => t.isBool

/-- A number as a place in an order: `1st`, `2nd`, `3rd`, `4th`, `11th`. -/
def ordinal (n : Nat) : String :=
  let ending :=
    if 11 ≤ n % 100 ∧ n % 100 ≤ 13 then "th"
    else if n % 10 = 1 then "st"
    else if n % 10 = 2 then "nd"
    else if n % 10 = 3 then "rd"
    else "th"
  s!"{n}{ending}"

end RecordLang
