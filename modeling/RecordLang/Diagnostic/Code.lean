/-!
# Codes and categories

Every fault has a numeric code, and the hundreds of the code give its category.
-/

namespace RecordLang

/-- The kinds of fault. -/
inductive Category where
  | form
  | type
  | returns
  | scope
  deriving DecidableEq, Repr, Inhabited

namespace Category

def render : Category → String
  | form => "syntax"
  | type => "type"
  | returns => "return"
  | scope => "scope"

def ofText? : String → Option Category
  | "syntax" => some form
  | "type" => some type
  | "return" => some returns
  | "scope" => some scope
  | _ => none

theorem ofText?_render (c : Category) : ofText? c.render = some c := by cases c <;> rfl

end Category

/-- The number of a fault. -/
structure Code where
  number : Nat
  deriving DecidableEq, Repr, Inhabited

namespace Code

def unexpected : Code := ⟨100⟩
def unclosed : Code := ⟨101⟩
def badLiteral : Code := ⟨102⟩
def tooDeep : Code := ⟨103⟩
def unknownType : Code := ⟨200⟩
def typeMismatch : Code := ⟨201⟩
def argumentCount : Code := ⟨202⟩
def badOperator : Code := ⟨203⟩
def notCallable : Code := ⟨204⟩
def unknownField : Code := ⟨205⟩
def notRecord : Code := ⟨206⟩
def missingReturn : Code := ⟨300⟩
def returnMismatch : Code := ⟨301⟩
def emptyReturn : Code := ⟨302⟩
def variableDeclared : Code := ⟨500⟩
def undefinedVariable : Code := ⟨501⟩
def typeDeclared : Code := ⟨502⟩
def duplicateField : Code := ⟨503⟩

/-- Codes outside the ranges of the other categories are faults of form. -/
def category (c : Code) : Category :=
  if 200 ≤ c.number ∧ c.number ≤ 299 then .type
  else if 300 ≤ c.number ∧ c.number ≤ 399 then .returns
  else if 500 ≤ c.number ∧ c.number ≤ 599 then .scope
  else .form

def render (c : Code) : String := s!"E{c.number}"

end Code

end RecordLang
