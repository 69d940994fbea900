import RecordLang.Decimal.Shortest

/-!
# Writing floating-point numbers

The digits of a number are its shortest decimal; a style says when they are written with an
exponent and whether a whole number keeps a decimal.
-/

namespace RecordLang

/-- The choices of a way to write numbers. -/
structure Decimal.Style where
  /-- The powers of ten just above the numbers that are written without an exponent, as lower and
  upper bound; without bounds, an exponent is never written. -/
  positional : Option (Int × Int)
  /-- A whole number that is written without an exponent ends in `.0`. -/
  wholePoint : Bool

namespace Decimal

/-- Numbers in messages: never an exponent, and no decimals that are not needed. -/
def Style.plain : Style := ⟨none, false⟩

/-- Numbers in dumps: always recognisable as floating-point numbers, with an exponent below
`10 ^ (-4)` and from `10 ^ 16`. -/
def Style.exact : Style := ⟨some (-3, 16), true⟩

def zeros (n : Nat) : List Char := List.replicate n '0'

/-- The digits with a point, where `point` digits stand before it. -/
def renderPositional (wholePoint : Bool) (digits : List Char) (point : Int) : String :=
  if point ≤ 0 then String.ofList ('0' :: '.' :: (zeros (-point).toNat ++ digits))
  else if digits.length ≤ point.toNat then
    String.ofList (digits ++ zeros (point.toNat - digits.length)) ++
      (if wholePoint then ".0" else "")
  else String.ofList (digits.take point.toNat ++ '.' :: digits.drop point.toNat)

/-- One digit before the point, and the power of ten after an `e`. -/
def renderScientific (digits : List Char) (point : Int) : String :=
  let mantissa := match digits with
    | d :: rest => if rest.isEmpty then [d] else d :: '.' :: rest
    | [] => []
  s!"{String.ofList mantissa}e{point - 1}"

/-- The text of a positive decimal. -/
def render (style : Style) (d : Decimal) : String :=
  let digits := Nat.toDigits 10 d.digits
  let point := d.exponent + digits.length
  match style.positional with
  | none => renderPositional style.wholePoint digits point
  | some (low, high) =>
    if low ≤ point ∧ point ≤ high then renderPositional style.wholePoint digits point
    else renderScientific digits point

end Decimal

/-- The text of a floating-point number. -/
def Binary64.render (style : Decimal.Style) (x : Binary64) : String :=
  let sign := if x.negative then "-" else ""
  match x.reading with
  | .nan => "NaN"
  | .infinite => sign ++ "inf"
  | .finite 0 _ => sign ++ (if style.wholePoint then "0.0" else "0")
  | .finite m q => sign ++ (Decimal.shortest m q).render style

end RecordLang
