import RecordLang.Decimal.Binary64

/-!
# The shortest decimal

Of the decimals that are nearer to a floating-point number than to any other, the one with the
fewest digits, and among those the nearest. The search goes by the number of digits: on the grid of
decimals with that many digits only the two neighbours of the number can be meant.
-/

namespace RecordLang

/-- The number `digits · 10 ^ exponent`. -/
structure Decimal where
  digits : Nat
  exponent : Int
  deriving DecidableEq, Repr

namespace Decimal

/-- A positive number `num / den`, with the half-open way to its neighbours: every number between
`(4 · num - below) / (4 · den)` and `(4 · num + above) / (4 · den)` is meant by the same bits, the
ends included if `closed`. -/
structure Interval where
  num : Nat
  den : Nat
  below : Nat
  above : Nat
  closed : Bool
  deriving Repr

namespace Interval

/-- What is meant by the bits of `significand · 2 ^ exponent`. Below a power of two the neighbour
is twice as near, except at the bottom of the range. -/
def ofBinary (significand : Nat) (exponent : Int) : Interval :=
  let unit := Nat.pow 2 exponent.toNat
  let lower := if significand = Nat.pow 2 52 ∧ exponent ≠ -1074 then unit else 2 * unit
  ⟨significand * unit, Nat.pow 2 (-exponent).toNat, lower, 2 * unit, significand % 2 == 0⟩

/-- The decimal is nearer to the number than to any other. -/
def holds (i : Interval) (d : Decimal) : Bool :=
  let x := d.digits * Nat.pow 10 d.exponent.toNat * (4 * i.den)
  let scale := Nat.pow 10 (-d.exponent).toNat
  let low := (4 * i.num - i.below) * scale
  let high := (4 * i.num + i.above) * scale
  if i.closed then low ≤ x && x ≤ high else low < x && x < high

/-- How many times the number has to be multiplied by ten to reach one. -/
def smallness (den : Nat) : Nat → Nat → Nat
  | _, 0 => 0
  | num, bound + 1 => if den ≤ num then 0 else smallness den (10 * num) bound + 1

/-- The power of ten just above the number. No number of 64 bits is below `10 ^ (-324)`. -/
def magnitude (i : Interval) : Int :=
  if i.den ≤ i.num then (Nat.toDigits 10 (i.num / i.den)).length
  else 1 - smallness i.den i.num 400

/-- The two neighbours on the grid of decimals with this exponent, and which one is meant: the
nearer one of those that the interval holds, and the larger one on a tie. -/
def nearest? (i : Interval) (exponent : Int) : Option Decimal :=
  let num := i.num * Nat.pow 10 (-exponent).toNat
  let den := i.den * Nat.pow 10 exponent.toNat
  let down : Decimal := ⟨num / den, exponent⟩
  let up : Decimal := ⟨num / den + 1, exponent⟩
  match i.holds down, i.holds up with
  | true, true => if 2 * (num % den) < den then some down else some up
  | true, false => some down
  | false, true => some up
  | false, false => none

/-- The first grid that has a decimal in the interval, from coarse to fine. -/
def search (i : Interval) (exponent : Int) : Nat → Option Decimal
  | 0 => none
  | grids + 1 =>
    match i.nearest? exponent with
    | some d => some d
    | none => search i (exponent - 1) grids

end Interval

/-- Drops the zeros at the end of the digits. -/
def trim (digits : Nat) (exponent : Int) : Nat → Decimal
  | 0 => ⟨digits, exponent⟩
  | bound + 1 =>
    if digits ≠ 0 ∧ digits % 10 = 0 then trim (digits / 10) (exponent + 1) bound
    else ⟨digits, exponent⟩

/-- The shortest decimal of a positive binary number. Seventeen digits are always enough. -/
def shortest (significand : Nat) (exponent : Int) : Decimal :=
  let i := Interval.ofBinary significand exponent
  match i.search (i.magnitude - 1) 17 with
  | some d => trim d.digits d.exponent 20
  | none => ⟨0, 0⟩

end Decimal

end RecordLang
