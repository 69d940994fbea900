import RecordLang.Decimal.Binary64

/-!
# Reading floating-point numbers

The text of a number: an optional sign, then `inf`, `infinity` or `nan` in any case, or digits with
at most one point among them and an optional power of ten.
-/

namespace RecordLang.Decimal

/-- The value of a run of decimal digits. -/
def value (digits : List Char) : Nat :=
  digits.foldl (fun n c => 10 * n + (c.toNat - '0'.toNat)) 0

/-- The number nearest to `digits · 10 ^ exponent`. Far outside the range of the exponent the
result is zero or infinite, and the power of ten is not computed. -/
def toBinary (digits : Nat) (exponent : Int) : Binary64 :=
  let size : Int := (Nat.toDigits 10 digits).length + exponent
  if digits = 0 ∨ size < -330 then .zero
  else if 330 < size then .infinity
  else if exponent < 0 then .ofDigits digits (-exponent).toNat
  else .ofDigits (digits * Nat.pow 10 exponent.toNat) 0

/-- A run of digits, and what follows it. -/
def takeDigits (cs : List Char) : List Char × List Char := cs.span Char.isDigit

/-- The power of ten at the end of a number, zero if there is none. -/
def exponent? : List Char → Option Int
  | [] => some 0
  | e :: rest =>
    if e = 'e' ∨ e = 'E' then
      let (sign, digits) : Int × List Char := match rest with
        | '-' :: ds => (-1, ds)
        | '+' :: ds => (1, ds)
        | ds => (1, ds)
      if digits.isEmpty ∨ !digits.all Char.isDigit then none else some (sign * value digits)
    else none

/-- A number without a sign. -/
def unsigned? (cs : List Char) : Option Binary64 :=
  let word := String.ofList (cs.map Char.toLower)
  if word = "inf" ∨ word = "infinity" then some .infinity
  else if word = "nan" then some .notNumber
  else
    let (whole, rest) := takeDigits cs
    let (places, rest) := match rest with
      | '.' :: more => takeDigits more
      | _ => ([], rest)
    if whole.isEmpty && places.isEmpty then none
    else (exponent? rest).map fun e => toBinary (value (whole ++ places)) (e - places.length)

/-- The floating-point number that a text stands for. -/
def read? (s : String) : Option Binary64 :=
  match s.toList with
  | '-' :: cs => (unsigned? cs).map Binary64.negate
  | '+' :: cs => unsigned? cs
  | cs => unsigned? cs

end RecordLang.Decimal
