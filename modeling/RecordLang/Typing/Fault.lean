import RecordLang.Diagnostic.Basic
import RecordLang.Typing.Operator

/-!
# Faults in the meaning of programs
-/

namespace RecordLang

/-- Why a program has no types. -/
inductive TypeCause where
  | unknownType (name : String)
  | declarationMismatch (declared actual : Ty)
  | conditionNotBool (keyword : Keyword) (actual : Ty)
  | operandsDiffer (left right : Ty)
  | operandNotBool (op : LogicalOp) (actual : Ty)
  | argumentMismatch (place : Nat) (expected actual : Ty)
  | argumentCount (expected actual : Nat)
  | badOperator (operator : Symbol) (operand : Ty)
  | notCallable (actual : Ty)
  | unknownField (field : String) (object : Ty)
  | memberOfFunction
  | memberOfOptional (field : String) (object : Ty)
  | notRecord (object : Ty)
  | emptyBody
  | lastNotReturn
  | returnMismatch (expected actual : Ty)
  | returnWithoutValue
  | variableDeclared (name : String)
  | parameterDeclared (name : String)
  | undefinedVariable (name : String)
  | recordDeclared (name : String)
  | fieldDeclared (field record : String)
  | fieldInitialized (field : String)
  deriving DecidableEq

namespace TypeCause

def code : TypeCause → Code
  | unknownType _ => .unknownType
  | declarationMismatch .. | conditionNotBool .. | operandsDiffer .. | operandNotBool ..
  | argumentMismatch .. => .typeMismatch
  | argumentCount .. => .argumentCount
  | badOperator .. => .badOperator
  | notCallable _ => .notCallable
  | unknownField .. => .unknownField
  | memberOfFunction | memberOfOptional .. | notRecord _ => .notRecord
  | emptyBody | lastNotReturn => .missingReturn
  | returnMismatch .. => .returnMismatch
  | returnWithoutValue => .emptyReturn
  | variableDeclared _ | parameterDeclared _ => .variableDeclared
  | undefinedVariable _ => .undefinedVariable
  | recordDeclared _ => .typeDeclared
  | fieldDeclared .. | fieldInitialized _ => .duplicateField

def message : TypeCause → String
  | unknownType name => s!"Unknown type '{name}'."
  | declarationMismatch declared actual =>
    "Invalid type in variable declaration. " ++
      s!"Expected {declared.render} but got {actual.render}."
  | conditionNotBool keyword actual =>
    s!"Expected condition in '{keyword.text}' statement to be bool, got {actual.render}."
  | operandsDiffer left right =>
    "Types do not match in binary expression. " ++
      s!"Left type is {left.render} while the right type is {right.render}."
  | operandNotBool op actual =>
    s!"Expected operands of '{op.text}' to be bool, got {actual.render}."
  | argumentMismatch place expected actual =>
    s!"Expected {ordinal place} argument to be of type {expected.render}, got {actual.render}."
  | argumentCount expected actual =>
    let plural := if expected = 1 then "" else "s"
    s!"Expected {expected} argument{plural} but got {actual}."
  | badOperator operator operand =>
    s!"Operator '{operator.text}' cannot be applied to type {operand.render}."
  | notCallable actual => s!"Cannot call a value of type {actual.render} as a function."
  | unknownField field object =>
    s!"Member variable '{field}' does not exist on type '{object.render}'."
  | memberOfFunction => "Cannot access a member variable of a function type."
  | memberOfOptional field object =>
    s!"Cannot access member '{field}' of optional type {object.render}."
  | notRecord object => s!"Type {object.render} is not a record."
  | emptyBody => "Body does not have a return statement."
  | lastNotReturn => "The last statement of a function body must be a return statement."
  | returnMismatch expected actual =>
    s!"Expected function to return value of type {expected.render}, " ++
      s!"but instead returned {actual.render}."
  | returnWithoutValue => "A return statement must return a value."
  | variableDeclared name => s!"Variable '{name}' is already declared in this scope."
  | parameterDeclared name => s!"Parameter '{name}' is declared more than once."
  | undefinedVariable name => s!"Can't find variable '{name}'."
  | recordDeclared name => s!"Record '{name}' is already declared."
  | fieldDeclared field record =>
    s!"Field '{field}' is declared more than once in record '{record}'."
  | fieldInitialized field => s!"Field '{field}' is initialized more than once."

end TypeCause

instance : Explained TypeCause := ⟨TypeCause.code, TypeCause.message⟩

/-- A fault in the meaning of a program. -/
abbrev TypeFault := Located TypeCause

namespace TypeFault

def code (f : TypeFault) : Code := f.cause.code

def message (f : TypeFault) : String := f.cause.message

def line (f : TypeFault) : Nat := f.span.line

/-- A fault by its line alone. -/
def render (f : TypeFault) : String := s!"[type] line {f.line}, {f.message}"

end TypeFault

end RecordLang
