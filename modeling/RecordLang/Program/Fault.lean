import RecordLang.Diagnostic.Basic
import RecordLang.Token.Basic

/-!
# Faults in the form of programs
-/

namespace RecordLang

/-- What can be wrong with the order of tokens. -/
inductive GrammarCause where
  | expected (wanted got : Kind)
  | expectedIdentifier (got : Kind)
  | expectedExpression (got : Kind)
  | expectedType (got : Kind)
  | tooDeep
  deriving DecidableEq, Repr

namespace GrammarCause

/-- How deep the parts of a program may be nested. -/
def maxNesting : Nat := 64

def code : GrammarCause → Code
  | tooDeep => .tooDeep
  | _ => .unexpected

def message : GrammarCause → String
  | expected wanted got => s!"expected '{wanted.text}', got '{got.text}'"
  | expectedIdentifier got =>
    if got.isKeyword then s!"expected identifier, got reserved word '{got.text}'"
    else s!"expected identifier, got '{got.text}'"
  | expectedExpression got => s!"expected expression, got '{got.text}'"
  | expectedType got => s!"expected type, got '{got.text}'"
  | tooDeep => s!"maximum nesting depth is {maxNesting}"

end GrammarCause

instance : Explained GrammarCause := ⟨GrammarCause.code, GrammarCause.message⟩

end RecordLang
