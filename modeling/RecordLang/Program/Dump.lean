import RecordLang.Program.Tree
import RecordLang.Text.Layout

/-!
# Dumps of programs

The tree of a program with all its parts and spans, for a reader who wants to see how a text was
read.
-/

namespace RecordLang

open Layout (word record tuple list)

def Span.layout (s : Span) : Layout :=
  record "Span" [("start_line", .nat s.first.line), ("start_col", .nat s.first.column),
    ("end_line", .nat s.last.line), ("end_col", .nat s.last.column)]

def Ident.layout (i : Ident) : Layout :=
  record "Ident" [("name", word (Text.quote i.name)), ("span", i.span.layout)]

namespace TypeExpr

mutual

def layout : TypeExpr → Layout
  | named name opt span =>
    record "TypeAnnotation" [("kind", record "Named" [("name", word (Text.quote name)),
      ("optional", .bool opt)]), ("span", span.layout)]
  | function params result span =>
    record "TypeAnnotation" [("kind", record "Function" [("params", list (layouts params)),
      ("ret", result.layout)]), ("span", span.layout)]

def layouts : List TypeExpr → List Layout
  | [] => []
  | t :: ts => t.layout :: layouts ts

end

end TypeExpr

/-- A parameter or a field, under the name of what it is. -/
def TypedName.layout (what : String) (t : TypedName) : Layout :=
  record what [("name", t.name.layout), ("type_ann", t.type.layout), ("span", t.span.layout)]

def Literal.layout : Literal → Layout
  | int n => tuple "Int" [word (toString n)]
  | float x => tuple "Float" [word (x.render .exact)]
  | bool b => tuple "Bool" [.bool b]
  | string s => tuple "String" [word (Text.quote s)]
  | null => word "Null"

def UnaryOp.layout : UnaryOp → Layout
  | neg => word "Neg"
  | not => word "Not"

def BinaryOp.layout : BinaryOp → Layout
  | add => word "Add"
  | sub => word "Sub"
  | mul => word "Mul"
  | div => word "Div"
  | eq => word "Eq"
  | notEq => word "NotEq"
  | less => word "Less"
  | lessEq => word "LessEq"
  | greater => word "Greater"
  | greaterEq => word "GreaterEq"

def LogicalOp.layout : LogicalOp → Layout
  | and_ => word "And"
  | or_ => word "Or"

/-- The slot of a node. -/
def Expr.slotLayout (t : Option Ty) : Layout :=
  tuple "OnceCell" [word ((t.map Ty.render).getD "<uninit>")]

mutual

def Expr.layout : Expr → Layout
  | .mk form span type =>
    record "Expr" [("kind", form.layout span), ("span", span.layout),
      ("ty", Expr.slotLayout type)]

def Form.layout (span : Span) : Form → Layout
  | .literal l => tuple "Literal" [l.layout]
  | .variable x => tuple "Variable" [word (Text.quote x)]
  | .group e => tuple "Group" [e.layout]
  | .unary op e => record "Unary" [("op", op.layout), ("operand", e.layout)]
  | .binary l op r =>
    record "Binary" [("left", l.layout), ("op", op.layout), ("right", r.layout)]
  | .logical l op r =>
    record "Logical" [("left", l.layout), ("op", op.layout), ("right", r.layout)]
  | .function params result body =>
    tuple "Function" [record "FunctionExpr" [("params", list (params.map (TypedName.layout "Param"))),
      ("ret", result.layout), ("body", body.layout), ("span", span.layout)]]
  | .call f args => record "Call" [("callee", f.layout), ("args", list (exprLayouts args))]
  | .get e x => record "Get" [("object", e.layout), ("field", x.layout)]
  | .record name fields =>
    record "RecordInit" [("name", name.layout), ("fields", list (fieldLayouts fields))]

def exprLayouts : List Expr → List Layout
  | [] => []
  | e :: es => e.layout :: exprLayouts es

def fieldLayouts : List (Ident × Expr) → List Layout
  | [] => []
  | (x, e) :: fs =>
    record "FieldInit" [("name", x.layout), ("value", e.layout)] :: fieldLayouts fs

def Stmt.layout : Stmt → Layout
  | .expr e span =>
    tuple "Expr" [record "ExprStmt" [("expr", e.layout), ("span", span.layout)]]
  | .let_ x type none span =>
    tuple "Let" [record "LetStmt" [("name", x.layout), ("type_ann", type.layout),
      ("value", .option none), ("span", span.layout)]]
  | .let_ x type (some e) span =>
    tuple "Let" [record "LetStmt" [("name", x.layout), ("type_ann", type.layout),
      ("value", .option (some e.layout)), ("span", span.layout)]]
  | .block body span =>
    tuple "Block" [record "Block" [("stmts", list (stmtLayouts body)), ("span", span.layout)]]
  | .if_ e s none span =>
    tuple "If" [record "IfStmt" [("condition", e.layout), ("then_branch", s.layout),
      ("else_branch", .option none), ("span", span.layout)]]
  | .if_ e s (some t) span =>
    tuple "If" [record "IfStmt" [("condition", e.layout), ("then_branch", s.layout),
      ("else_branch", .option (some t.layout)), ("span", span.layout)]]
  | .while_ e s span =>
    tuple "While" [record "WhileStmt" [("condition", e.layout), ("body", s.layout),
      ("span", span.layout)]]
  | .struct x fields span =>
    tuple "Record" [record "RecordDecl" [("name", x.layout),
      ("fields", list (fields.map (TypedName.layout "FieldDecl"))), ("span", span.layout)]]
  | .return_ none span =>
    tuple "Return" [record "ReturnStmt" [("value", .option none), ("span", span.layout)]]
  | .return_ (some e) span =>
    tuple "Return" [record "ReturnStmt" [("value", .option (some e.layout)),
      ("span", span.layout)]]

def stmtLayouts : List Stmt → List Layout
  | [] => []
  | s :: ss => s.layout :: stmtLayouts ss

end

/-- The tree of a program as text. -/
def Program.dump (p : Program) : String :=
  (record "Program" [("stmts", list (stmtLayouts p.body)), ("span", p.span.layout)]).text

end RecordLang
