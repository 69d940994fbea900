import RecordLang.Token.Basic
import RecordLang.Ty.Basic

/-!
# Programs

A program is a list of statements. Every node has its span, and every expression node has a slot
for the type that is found for it; the slot is empty until then and is written once.
-/

namespace RecordLang

/-- A name at its place. -/
structure Ident where
  name : String
  span : Span
  deriving DecidableEq, Repr, Inhabited

/-- A type as a program writes it. -/
inductive TypeExpr where
  | named (name : String) (optional : Bool) (span : Span)
  | function (params : List TypeExpr) (result : TypeExpr) (span : Span)
  deriving Inhabited

namespace TypeExpr

def span : TypeExpr → Span
  | named _ _ s => s
  | function _ _ s => s

mutual

/-- The type that is written. -/
def ty : TypeExpr → Ty
  | named name opt _ => .named name opt
  | function params result _ => .function (tys params) result.ty

def tys : List TypeExpr → List Ty
  | [] => []
  | a :: as => a.ty :: tys as

end

theorem tys_eq_map (as : List TypeExpr) : tys as = as.map ty := by
  induction as with
  | nil => rfl
  | cons a as ih => simp [tys, ih]

end TypeExpr

/-- A parameter of a function or a field of a declared record. -/
structure TypedName where
  name : Ident
  type : TypeExpr
  span : Span
  deriving Inhabited

inductive Literal where
  | int (value : Int)
  | float (value : Binary64)
  | bool (value : Bool)
  | string (value : String)
  | null
  deriving DecidableEq, Repr

inductive UnaryOp where
  | neg | not
  deriving DecidableEq, Repr

inductive BinaryOp where
  | add | sub | mul | div | eq | notEq | less | lessEq | greater | greaterEq
  deriving DecidableEq, Repr

inductive LogicalOp where
  | and_ | or_
  deriving DecidableEq, Repr

namespace UnaryOp

def symbol : UnaryOp → Symbol
  | neg => .minus
  | not => .bang

def text (op : UnaryOp) : String := op.symbol.text

def ofKind? : Kind → Option UnaryOp
  | .symbol .minus => some neg
  | .symbol .bang => some not
  | _ => none

end UnaryOp

namespace BinaryOp

def symbol : BinaryOp → Symbol
  | add => .plus
  | sub => .minus
  | mul => .star
  | div => .slash
  | eq => .eqEq
  | notEq => .bangEq
  | less => .less
  | lessEq => .lessEq
  | greater => .greater
  | greaterEq => .greaterEq

def text (op : BinaryOp) : String := op.symbol.text

def ofSymbol? : Symbol → Option BinaryOp
  | .plus => some add
  | .minus => some sub
  | .star => some mul
  | .slash => some div
  | .eqEq => some eq
  | .bangEq => some notEq
  | .less => some less
  | .lessEq => some lessEq
  | .greater => some greater
  | .greaterEq => some greaterEq
  | _ => none

theorem ofSymbol?_symbol (op : BinaryOp) : ofSymbol? op.symbol = some op := by cases op <;> rfl

/-- The result is a truth value. -/
def isComparison : BinaryOp → Bool
  | add | sub | mul | div => false
  | _ => true

end BinaryOp

namespace LogicalOp

def keyword : LogicalOp → Keyword
  | and_ => .and_
  | or_ => .or_

def text (op : LogicalOp) : String := op.keyword.text

end LogicalOp

mutual

/-- An expression: its form, its span and the slot for its type. -/
inductive Expr where
  | mk (form : Form) (span : Span) (type : Option Ty)

/-- What an expression is made of. -/
inductive Form where
  | literal (value : Literal)
  | variable (name : String)
  | group (inner : Expr)
  | unary (op : UnaryOp) (operand : Expr)
  | binary (left : Expr) (op : BinaryOp) (right : Expr)
  | logical (left : Expr) (op : LogicalOp) (right : Expr)
  | function (params : List TypedName) (result : TypeExpr) (body : Stmt)
  | call (callee : Expr) (args : List Expr)
  | get (object : Expr) (field : Ident)
  | record (name : Ident) (fields : List (Ident × Expr))

inductive Stmt where
  | expr (value : Expr) (span : Span)
  | let_ (name : Ident) (type : TypeExpr) (value : Option Expr) (span : Span)
  | block (body : List Stmt) (span : Span)
  | if_ (condition : Expr) (whenTrue : Stmt) (whenFalse : Option Stmt) (span : Span)
  | while_ (condition : Expr) (body : Stmt) (span : Span)
  | struct (name : Ident) (fields : List TypedName) (span : Span)
  | return_ (value : Option Expr) (span : Span)

end

namespace Expr

def form : Expr → Form
  | mk f _ _ => f

def span : Expr → Span
  | mk _ s _ => s

/-- The type found for the node. -/
def type : Expr → Option Ty
  | mk _ _ t => t

/-- A node whose slot is empty. -/
def new (form : Form) (span : Span) : Expr := mk form span none

/-- Writes a type into the slot if it is empty, and says whether it was. -/
def annotate (t : Ty) : Expr → Expr × Bool
  | mk f s none => (mk f s (some t), true)
  | mk f s (some u) => (mk f s (some u), false)

end Expr

namespace Stmt

def span : Stmt → Span
  | expr _ s => s
  | let_ _ _ _ s => s
  | block _ s => s
  | if_ _ _ _ s => s
  | while_ _ _ s => s
  | struct _ _ s => s
  | return_ _ s => s

end Stmt

/-- A whole program. -/
structure Program where
  body : List Stmt
  span : Span

end RecordLang
