import RecordLang.Typing.Context
import RecordLang.Typing.Fault

/-!
# Return paths

A function body is an expression, which is the returned value, a return, or a block that ends with
a return. A condition or loop at the end does not count, even if all its branches return. Every
return in the body has to fit the result type; those in the bodies of inner functions belong to
these.
-/

namespace RecordLang

namespace Stmt

mutual

/-- The returns of a statement in source order, outside inner functions: the type recorded on the
value, and the span. -/
def returns : Stmt → List (Option Ty × Span)
  | return_ value span => [(value.bind Expr.type, span)]
  | block body _ => returnsAll body
  | if_ _ whenTrue none _ => whenTrue.returns
  | if_ _ whenTrue (some whenFalse) _ => whenTrue.returns ++ whenFalse.returns
  | while_ _ body _ => body.returns
  | expr .. | let_ .. | struct .. => []

def returnsAll : List Stmt → List (Option Ty × Span)
  | [] => []
  | s :: ss => s.returns ++ returnsAll ss

end

theorem returnsAll_eq_flatMap (body : List Stmt) : returnsAll body = body.flatMap returns := by
  induction body with
  | nil => rfl
  | cons s ss ih => simp [returnsAll, ih]

def isReturn : Stmt → Bool
  | return_ .. => true
  | _ => false

end Stmt

namespace Context

/-- A returned value has a type, and the result type accepts it. -/
def checkReturned (Γ : Context) (expected : Ty) (actual : Option Ty) (span : Span) :
    Except TypeFault Unit :=
  match actual with
  | none => .error ⟨.returnWithoutValue, span⟩
  | some actual =>
    if Γ.accepts expected actual then .ok () else .error ⟨.returnMismatch expected actual, span⟩

/-- A function body whose expressions have their types returns values of the result type. -/
def checkBody (Γ : Context) (expected : Ty) : Stmt → Except TypeFault Unit
  | .expr value span => Γ.checkReturned expected value.type span
  | .return_ value span => Γ.checkReturned expected (value.bind Expr.type) span
  | .block body span =>
    match body.getLast? with
    | none => .error ⟨.emptyBody, span⟩
    | some last =>
      if last.isReturn then
        (Stmt.returnsAll body).forM fun (actual, span) => Γ.checkReturned expected actual span
      else .error ⟨.lastNotReturn, last.span⟩
  | body => .error ⟨.lastNotReturn, body.span⟩

end Context

end RecordLang
