/-!
# Binary floating-point numbers

A number of 64 bits is kept by its bits. A finite one is `significand · 2 ^ exponent`, with a sign.
-/

namespace RecordLang

/-- A floating-point number of 64 bits. -/
structure Binary64 where
  bits : UInt64
  deriving DecidableEq, Repr, Inhabited

namespace Binary64

/-- What the bits of a number stand for. -/
inductive Reading where
  | nan
  | infinite
  | finite (significand : Nat) (exponent : Int)
  deriving DecidableEq, Repr

/-- The sign bit is set. -/
def negative (x : Binary64) : Bool := x.bits >>> 63 == 1

/-- The magnitude of a number: 11 bits of exponent, then 52 bits of fraction. The smallest exponent
has no hidden bit. -/
def reading (x : Binary64) : Reading :=
  let fraction : Nat := x.bits.toNat % Nat.pow 2 52
  let biased : Nat := x.bits.toNat / Nat.pow 2 52 % Nat.pow 2 11
  if biased = 2047 then if fraction = 0 then .infinite else .nan
  else if biased = 0 then .finite fraction (-1074)
  else .finite (fraction + Nat.pow 2 52) ((biased : Int) - 1075)

def negate (x : Binary64) : Binary64 := ⟨x.bits ^^^ ((1 : UInt64) <<< 63)⟩

def zero : Binary64 := ⟨0⟩

def infinity : Binary64 := ⟨0x7FF0000000000000⟩

def notNumber : Binary64 := ⟨0x7FF8000000000000⟩

/-- The number nearest to `digits · 10 ^ (-places)`. -/
def ofDigits (digits places : Nat) : Binary64 :=
  ⟨(Float.ofScientific digits true places).toBits⟩

/-- The number nearest to `digits`, times the one nearest to `10 ^ power`, rounded once more. -/
def scaled (digits power : Nat) : Binary64 :=
  ⟨(Float.ofScientific digits false 0 * Float.ofScientific 1 false power).toBits⟩

end Binary64

end RecordLang
