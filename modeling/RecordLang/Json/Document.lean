import RecordLang.Decimal.Reader

/-!
# JSON documents

Any JSON text as it is read. `Document.build` puts the tokens of a text together: an open array or
object waits on a stack until it is closed, so there is no bound on how deep a document may be.
-/

namespace RecordLang.Json

/-- A value that was read. A string with half a surrogate pair is no text and is kept as `none`.
Of a number it is kept which natural number it is written as, and whether it is in the range of
floating-point numbers. -/
inductive Document where
  | null
  | bool (value : Bool)
  | number (natural : Option Nat) (finite : Bool)
  | string (text : Option String)
  | array (items : List Document)
  | object (members : List (Option String × Document))

namespace Document

def bool? : Document → Option Bool
  | bool b => some b
  | _ => none

def text? : Document → Option String
  | string s => s
  | _ => none

/-- A natural number below a bound. -/
def natBelow? (bound : Nat) : Document → Option Nat
  | number (some n) _ => if n < bound then some n else none
  | _ => none

def items? : Document → Option (List Document)
  | array items => some items
  | _ => none

mutual

/-- All strings are texts, all numbers are finite, and at most `depth` arrays and objects stand
inside each other. -/
def legible : Nat → Document → Bool
  | _, null => true
  | _, bool _ => true
  | _, number _ finite => finite
  | _, string s => s.isSome
  | 0, array _ => false
  | depth + 1, array items => legibleItems depth items
  | 0, object _ => false
  | depth + 1, object members => legibleMembers depth members

def legibleItems : Nat → List Document → Bool
  | _, [] => true
  | depth, d :: ds => legible depth d && legibleItems depth ds

def legibleMembers : Nat → List (Option String × Document) → Bool
  | _, [] => true
  | depth, (key, d) :: ms => key.isSome && legible depth d && legibleMembers depth ms

end

/-- The one member of a name. -/
def member? (name : String) (members : List (Option String × Document)) : Option Document :=
  match members.filter fun m => m.1 = some name with
  | [(_, d)] => some d
  | _ => none

/-- The members of an object whose names are texts. -/
def members? : Document → Option (List (Option String × Document))
  | object members => if members.all fun m => m.1.isSome then some members else none
  | _ => none

end Document

/-! ### From tokens to documents -/

/-- A piece of a JSON text. -/
inductive Token where
  | openArray | closeArray | openObject | closeObject | colon | comma
  | leaf (value : Document)

/-- An array or object that is still open, with what was read of it so far, the latest first. -/
inductive Frame where
  | array (items : List Document)
  | object (members : List (Option String × Document)) (key : Option String)

/-- What may come next. -/
inductive Expected where
  /-- A value. -/
  | value
  /-- A value, or the end of an array that was just opened. -/
  | firstItem
  /-- The name of a member. -/
  | key
  /-- The name of a member, or the end of an object that was just opened. -/
  | firstKey
  | colon
  /-- A comma, or the end of the innermost array or object. -/
  | more
  deriving DecidableEq

/-- A document of which a part was read. -/
structure Partial where
  frames : List Frame
  expected : Expected
  done : Option Document

namespace Partial

def start : Partial := ⟨[], .value, none⟩

/-- Puts a value where it belongs. -/
def place (frames : List Frame) (d : Document) : Partial :=
  match frames with
  | [] => ⟨[], .more, some d⟩
  | .array items :: fs => ⟨.array (d :: items) :: fs, .more, none⟩
  | .object members key :: fs => ⟨.object ((key, d) :: members) key :: fs, .more, none⟩

/-- Reads a token. -/
def step (p : Partial) (t : Token) : Option Partial :=
  match t, p.expected, p.frames with
  | .openArray, .value, fs | .openArray, .firstItem, fs => some ⟨.array [] :: fs, .firstItem, none⟩
  | .openObject, .value, fs | .openObject, .firstItem, fs =>
    some ⟨.object [] none :: fs, .firstKey, none⟩
  | .leaf d, .value, fs | .leaf d, .firstItem, fs => some (place fs d)
  | .leaf (.string s), .key, .object members _ :: fs
  | .leaf (.string s), .firstKey, .object members _ :: fs =>
    some ⟨.object members s :: fs, .colon, none⟩
  | .colon, .colon, fs => some ⟨fs, .value, none⟩
  | .comma, .more, .array items :: fs => some ⟨.array items :: fs, .value, none⟩
  | .comma, .more, .object members key :: fs => some ⟨.object members key :: fs, .key, none⟩
  | .closeArray, .firstItem, .array _ :: fs => some (place fs (.array []))
  | .closeArray, .more, .array items :: fs => some (place fs (.array items.reverse))
  | .closeObject, .firstKey, .object _ _ :: fs => some (place fs (.object []))
  | .closeObject, .more, .object members _ :: fs => some (place fs (.object members.reverse))
  | _, _, _ => none

end Partial

/-- The document that some tokens make up. -/
def Document.build (tokens : List Token) : Option Document :=
  (tokens.foldlM Partial.step Partial.start).bind Partial.done

end RecordLang.Json
