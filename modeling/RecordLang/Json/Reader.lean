import RecordLang.Json.Document

/-!
# Reading JSON

The tokens of a JSON text, and the document that they make up.
-/

namespace RecordLang.Json

/-! ### Strings -/

def hexDigit? (c : Char) : Option Nat :=
  if '0' ≤ c ∧ c ≤ '9' then some (c.toNat - '0'.toNat)
  else if 'a' ≤ c ∧ c ≤ 'f' then some (c.toNat - 'a'.toNat + 10)
  else if 'A' ≤ c ∧ c ≤ 'F' then some (c.toNat - 'A'.toNat + 10)
  else none

def hexDigits? (cs : List Char) : Option Nat :=
  cs.foldlM (fun n c => (hexDigit? c).map (16 * n + ·)) 0

/-- The character that a letter stands for behind a backslash. -/
def escaped? : Char → Option Nat
  | '"' => some '"'.toNat
  | '\\' => some '\\'.toNat
  | '/' => some '/'.toNat
  | 'b' => some 8
  | 'f' => some 12
  | 'n' => some '\n'.toNat
  | 'r' => some '\r'.toNat
  | 't' => some '\t'.toNat
  | _ => none

/-- The code points of a string up to its closing quote, and what follows. Halves of surrogate
pairs are left as they are. -/
def codePoints : List Char → Option (List Nat × List Char)
  | [] => none
  | '"' :: rest => some ([], rest)
  | '\\' :: 'u' :: a :: b :: c :: d :: rest => do
    let n ← hexDigits? [a, b, c, d]
    let (ns, more) ← codePoints rest
    pure (n :: ns, more)
  | '\\' :: c :: rest => do
    let n ← escaped? c
    let (ns, more) ← codePoints rest
    pure (n :: ns, more)
  | c :: rest => do
    if c.toNat < 32 then none
    let (ns, more) ← codePoints rest
    pure (c.toNat :: ns, more)

def isHighSurrogate (n : Nat) : Bool := 0xD800 ≤ n && n < 0xDC00

def isLowSurrogate (n : Nat) : Bool := 0xDC00 ≤ n && n < 0xE000

/-- The characters of some code points, where two halves in a row are one character and a half
alone is none. -/
def joinSurrogates : List Nat → Option (List Char)
  | [] => some []
  | [n] => if isHighSurrogate n || isLowSurrogate n then none else some [Char.ofNat n]
  | n :: m :: ns =>
    if isHighSurrogate n then
      if isLowSurrogate m then
        (joinSurrogates ns).map (Char.ofNat (0x10000 + (n - 0xD800) * 1024 + (m - 0xDC00)) :: ·)
      else none
    else if isLowSurrogate n then none
    else (joinSurrogates (m :: ns)).map (Char.ofNat n :: ·)

/-! ### Numbers -/

/-- A run of digits that is not empty. -/
def digits? (cs : List Char) : Option (List Char × List Char) :=
  match Decimal.takeDigits cs with
  | ([], _) => none
  | (ds, rest) => some (ds, rest)

/-- The part in front of the point, which has no needless zeros. -/
def whole? : List Char → Option (List Char × List Char)
  | '0' :: rest => some (['0'], rest)
  | cs => digits? cs

/-- The part behind the point, if there is a point. -/
def places? : List Char → Option (List Char × List Char)
  | '.' :: rest => digits? rest
  | cs => some ([], cs)

/-- The power of ten at the end of a number, if there is one. -/
def power? : List Char → Option (Option Int × List Char)
  | e :: rest =>
    if e = 'e' ∨ e = 'E' then
      let (sign, cs) : Int × List Char := match rest with
        | '-' :: cs => (-1, cs)
        | '+' :: cs => (1, cs)
        | cs => (1, cs)
      (digits? cs).map fun (ds, more) => (some (sign * Decimal.value ds), more)
    else some (none, e :: rest)
  | [] => some (none, [])

/-- The number that starts with `n` and goes on with some digits, as far as it fits in 64 bits, and
the digits that are left. -/
def leading (n : Nat) : List Char → Nat × List Char
  | [] => (n, [])
  | d :: ds =>
    let m := 10 * n + Decimal.value [d]
    if m < Nat.pow 2 64 then leading m ds else (n, d :: ds)

/-- A number is in range if its leading digits, scaled by a power of ten, give a finite number.
Digits in front of the point that are left out count as powers of ten, those behind it do not
count. -/
def inRange (whole places : List Char) (power : Int) : Bool :=
  let (n, left) := leading 0 whole
  let (n, dropped) := leading n places
  let exponent : Int := left.length + dropped.length - places.length + power
  n = 0 || exponent < 0 || (exponent ≤ 308 && Binary64.scaled n exponent.toNat ≠ .infinity)

/-- A number without its sign. -/
def number? (signed : Bool) (cs : List Char) : Option (Document × List Char) := do
  let (whole, rest) ← whole? cs
  let (places, rest) ← places? rest
  let (power, rest) ← power? rest
  let natural := if signed || !places.isEmpty || power.isSome then none
    else some (Decimal.value whole)
  pure (.number natural (inRange whole places (power.getD 0)), rest)

/-! ### Tokens -/

/-- The first token of a text that does not begin with a blank, and what follows it. -/
def token? : List Char → Option (Token × List Char)
  | '[' :: rest => some (.openArray, rest)
  | ']' :: rest => some (.closeArray, rest)
  | '\x7b' :: rest => some (.openObject, rest)
  | '\x7d' :: rest => some (.closeObject, rest)
  | ':' :: rest => some (.colon, rest)
  | ',' :: rest => some (.comma, rest)
  | '"' :: rest => (codePoints rest).map fun (ns, more) =>
    (.leaf (.string ((joinSurrogates ns).map String.ofList)), more)
  | 't' :: 'r' :: 'u' :: 'e' :: rest => some (.leaf (.bool true), rest)
  | 'f' :: 'a' :: 'l' :: 's' :: 'e' :: rest => some (.leaf (.bool false), rest)
  | 'n' :: 'u' :: 'l' :: 'l' :: rest => some (.leaf .null, rest)
  | '-' :: rest => (number? true rest).map fun (d, more) => (.leaf d, more)
  | cs => (number? false cs).map fun (d, more) => (.leaf d, more)

def isBlank (c : Char) : Bool := c = ' ' || c = '\t' || c = '\n' || c = '\r'

/-- The tokens of a text. Every token takes at least one character. -/
def tokens? (cs : List Char) : Option (List Token) :=
  match cs with
  | [] => some []
  | c :: rest =>
    if isBlank c then tokens? rest
    else match token? (c :: rest) with
      | none => none
      | some (t, more) =>
        if more.length ≤ rest.length then (tokens? more).map (t :: ·) else none
termination_by cs.length
decreasing_by all_goals (simp only [List.length_cons]; omega)

/-- The document that a text stands for. -/
def Document.read? (s : String) : Option Document := (tokens? s.toList).bind build

end RecordLang.Json
