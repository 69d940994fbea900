import RecordLang.Ty.Basic

/-!
# Contexts

A context is the list of what was declared, the latest first, with a mark where a scope was entered.
Variables may be declared once in a scope and may hide those of outer scopes; a record may not be
declared again while it is visible. Leaving a scope forgets what was declared since its mark.
-/

namespace RecordLang

/-- A declaration, or the mark of a scope. -/
inductive Entry where
  | scope
  | variable (name : String) (type : Ty)
  | record (name : String) (schema : Ty)
  deriving DecidableEq

namespace Entry

def isScope : Entry → Bool
  | scope => true
  | _ => false

def isRecord : Entry → Bool
  | .record .. => true
  | _ => false

/-- The type of the variable `x`, if this declares it. -/
def variableOf (x : String) : Entry → Option Ty
  | .variable y t => if x = y then some t else none
  | _ => none

/-- The schema of the record `x`, if this declares it. -/
def recordOf (x : String) : Entry → Option Ty
  | .record y t => if x = y then some t else none
  | _ => none

end Entry

/-- What is declared at a place of a program. -/
structure Context where
  entries : List Entry
  deriving DecidableEq

namespace Context

/-- Nothing is declared, in the outermost scope. -/
def empty : Context := ⟨[]⟩

instance : Inhabited Context := ⟨empty⟩

/-! ### Scopes -/

/-- The number of scopes around the current one. -/
def depth (Γ : Context) : Nat := Γ.entries.countP Entry.isScope

def enter (Γ : Context) : Context := ⟨.scope :: Γ.entries⟩

/-- The entries from before the current scope, unless it is the outermost. -/
def outer? : List Entry → Option (List Entry)
  | [] => none
  | e :: es => if e.isScope then some es else outer? es

/-- Leaves the current scope; the outermost is never left. -/
def exit (Γ : Context) : Context :=
  match outer? Γ.entries with
  | some es => ⟨es⟩
  | none => Γ

/-- The entries of the current scope. -/
def current (Γ : Context) : List Entry := Γ.entries.takeWhile fun e => !e.isScope

/-! ### Variables -/

/-- The type of the innermost variable of a name. -/
def findVariable (Γ : Context) (x : String) : Option Ty := Γ.entries.findSome? (Entry.variableOf x)

/-- Declares a variable, unless the current scope has one of the name. -/
def declare (Γ : Context) (x : String) (t : Ty) : Option Context :=
  match Γ.current.findSome? (Entry.variableOf x) with
  | some _ => none
  | none => some ⟨.variable x t :: Γ.entries⟩

/-! ### Records -/

/-- The schema of the visible record of a name. -/
def findRecord (Γ : Context) (x : String) : Option Ty := Γ.entries.findSome? (Entry.recordOf x)

/-- Declares a record, unless one of the name is visible. -/
def declareRecord (Γ : Context) (x : String) (schema : Ty) : Option Context :=
  match Γ.findRecord x with
  | some _ => none
  | none => some ⟨.record x schema :: Γ.entries⟩

/-- A type may be written with this name. -/
def knows (Γ : Context) (name : String) : Bool := Ty.isBuiltin name || (Γ.findRecord name).isSome

def recordCount (Γ : Context) : Nat := Γ.entries.countP Entry.isRecord

/-! ### Meaning of types -/

/-- Puts schemas for the references in a type, and for those in the schemas, to some depth. -/
def resolveWithin (Γ : Context) : Nat → Ty → Ty
  | 0, t => t
  | n + 1, t => t.expand fun name => (Γ.findRecord name).map (Γ.resolveWithin n)

/-- The type with the schemas of all records it refers to. Optional names and names that are not
declared stay. Schemas refer to one another without a cycle, so no chain of references is longer
than there are records. -/
def resolve (Γ : Context) (t : Ty) : Ty := Γ.resolveWithin Γ.recordCount t

/-- A value of the type `actual` may stand where `expected` is expected. -/
def accepts (Γ : Context) (expected actual : Ty) : Bool :=
  (Γ.resolve expected).accepts (Γ.resolve actual)

end Context

end RecordLang
