/-!
# Types

A type is a name, which may be optional, a function, or a record. The names are the built-in types
and the records that a program declares. Record fields are kept in the order of their names, so
that two records with the same fields are the same type.
-/

namespace RecordLang

/-- The type of a value. -/
inductive Ty where
  | named (name : String) (optional : Bool)
  | function (params : List Ty) (result : Ty)
  | record (fields : List (String × Ty))
  deriving Inhabited

namespace Ty

/-! ### Identity -/

mutual

/-- The two types are the same. -/
def same : Ty → Ty → Bool
  | named a p, named b q => a == b && p == q
  | function as r, function bs s => sameAll as bs && same r s
  | record fs, record gs => sameFields fs gs
  | _, _ => false

def sameAll : List Ty → List Ty → Bool
  | [], [] => true
  | a :: as, b :: bs => same a b && sameAll as bs
  | _, _ => false

def sameFields : List (String × Ty) → List (String × Ty) → Bool
  | [], [] => true
  | (m, a) :: as, (n, b) :: bs => m == n && same a b && sameFields as bs
  | _, _ => false

end

mutual

theorem same_iff : ∀ a b : Ty, same a b = true ↔ a = b
  | named .., named .. => by simp [same]
  | function as r, function bs s => by simp [same, sameAll_iff as bs, same_iff r s]
  | record fs, record gs => by simp [same, sameFields_iff fs gs]
  | named .., function .. => by simp [same]
  | named .., record .. => by simp [same]
  | function .., named .. => by simp [same]
  | function .., record .. => by simp [same]
  | record .., named .. => by simp [same]
  | record .., function .. => by simp [same]

theorem sameAll_iff : ∀ as bs : List Ty, sameAll as bs = true ↔ as = bs
  | [], [] => by simp [sameAll]
  | a :: as, b :: bs => by simp [sameAll, same_iff a b, sameAll_iff as bs]
  | [], _ :: _ => by simp [sameAll]
  | _ :: _, [] => by simp [sameAll]

theorem sameFields_iff : ∀ as bs : List (String × Ty), sameFields as bs = true ↔ as = bs
  | [], [] => by simp [sameFields]
  | (m, a) :: as, (n, b) :: bs => by
    simp [sameFields, same_iff a b, sameFields_iff as bs]
  | [], _ :: _ => by simp [sameFields]
  | _ :: _, [] => by simp [sameFields]

end

instance : DecidableEq Ty := fun a b => decidable_of_iff _ (same_iff a b)

/-! ### Names -/

def builtins : List String := ["int", "float", "string", "bool", "null"]

def isBuiltin (name : String) : Bool := builtins.contains name

/-- A type by its name alone. -/
def ofName (name : String) : Ty := named name false

def int : Ty := ofName "int"
def float : Ty := ofName "float"
def string : Ty := ofName "string"
def bool : Ty := ofName "bool"
def null : Ty := ofName "null"

/-- The optional form of a named type. Functions and records have none and stay as they are. -/
def optional : Ty → Ty
  | named name _ => named name true
  | t => t

/-- The name of a named type. -/
def baseName : Ty → Option String
  | named name _ => some name
  | _ => none

/-- A named type with this name, optional or not. -/
def isNamed (t : Ty) (name : String) : Bool := t.baseName == some name

/-- The name of a declared record that the type refers to: one that is neither optional nor built
in. -/
def reference? : Ty → Option String
  | named name false => if isBuiltin name then none else some name
  | _ => none

def isBool (t : Ty) : Bool := decide (t = bool)

/-! ### Record fields -/

/-- Puts a field at the place of its name, over an earlier one of that name. -/
def insertField (name : String) (t : Ty) : List (String × Ty) → List (String × Ty)
  | [] => [(name, t)]
  | (n, u) :: rest =>
    if name < n then (name, t) :: (n, u) :: rest
    else if name = n then (name, t) :: rest
    else (n, u) :: insertField name t rest

/-- The record with these fields; of two with one name the later counts. -/
def ofFields (fields : List (String × Ty)) : Ty :=
  record (fields.foldl (fun fs f => insertField f.1 f.2 fs) [])

/-! ### Acceptance -/

mutual

/-- A value of the second type may stand where the first is expected: the same names, functions of
as many parameters with accepted parameters and results, and records that have every expected field,
and maybe more. -/
def accepts : Ty → Ty → Bool
  | named a p, named b q => a == b && p == q
  | function as r, function bs s => acceptsAll as bs && accepts r s
  | record fs, record gs => acceptsFields fs gs
  | _, _ => false

def acceptsAll : List Ty → List Ty → Bool
  | [], [] => true
  | a :: as, b :: bs => accepts a b && acceptsAll as bs
  | _, _ => false

def acceptsFields : List (String × Ty) → List (String × Ty) → Bool
  | [], _ => true
  | (n, a) :: as, bs =>
    (match bs.lookup n with
      | some b => accepts a b
      | none => false) && acceptsFields as bs

end

/-! ### References -/

mutual

/-- Puts a type for every reference to a declared record that `f` knows. -/
def expand (f : String → Option Ty) : Ty → Ty
  | named name false => if isBuiltin name then named name false else (f name).getD (named name false)
  | named name true => named name true
  | function params result => function (expandAll f params) (expand f result)
  | record fields => record (expandFields f fields)

def expandAll (f : String → Option Ty) : List Ty → List Ty
  | [] => []
  | t :: ts => expand f t :: expandAll f ts

def expandFields (f : String → Option Ty) : List (String × Ty) → List (String × Ty)
  | [] => []
  | (n, t) :: ts => (n, expand f t) :: expandFields f ts

end

theorem expandAll_eq_map (f : String → Option Ty) (ts : List Ty) :
    expandAll f ts = ts.map (expand f) := by
  induction ts with
  | nil => rfl
  | cons t ts ih => simp [expandAll, ih]

theorem expandFields_eq_map (f : String → Option Ty) (fs : List (String × Ty)) :
    expandFields f fs = fs.map fun g => (g.1, expand f g.2) := by
  induction fs with
  | nil => rfl
  | cons g gs ih => simp [expandFields, ih]

/-! ### Text -/

mutual

/-- The type as it stands in messages. -/
def render : Ty → String
  | named name opt => if opt then name ++ "?" else name
  | function params result => "(" ++ renderAll params ++ ") -> " ++ render result
  | record [] => "\x7b\x7d"
  | record (f :: fs) => "\x7b " ++ renderFields (f :: fs) ++ " \x7d"

def renderAll : List Ty → String
  | [] => ""
  | [t] => render t
  | t :: ts => render t ++ ", " ++ renderAll ts

def renderFields : List (String × Ty) → String
  | [] => ""
  | [(n, t)] => n ++ ": " ++ render t
  | (n, t) :: fs => n ++ ": " ++ render t ++ ", " ++ renderFields fs

end

end Ty

end RecordLang
