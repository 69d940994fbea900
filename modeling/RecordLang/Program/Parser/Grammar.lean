import RecordLang.Program.Parser.Cursor

/-!
# The grammar

Statements and expressions are read by recursive descent. The parsers that are available at one
nesting depth are collected in a `Grammar`, which is built from the grammar one level further in; a
grammar without an inner one refuses to nest. So the nesting allowance is what bounds the recursion.

Every statement and every expression takes one level, and so does every operator of a chain, every
unary operator and every call or member access: each makes the tree one level deeper.
-/

namespace RecordLang

/-- An operator between two operands. -/
inductive Operator where
  | binary (op : BinaryOp)
  | logical (op : LogicalOp)
  deriving DecidableEq, Repr

namespace Operator

/-- How loosely an operator binds: operands of a level are chains of the level below. -/
def level : Operator → Nat
  | binary .mul | binary .div => 0
  | binary .add | binary .sub => 1
  | binary .less | binary .lessEq | binary .greater | binary .greaterEq => 2
  | binary .eq | binary .notEq => 3
  | logical .and_ => 4
  | logical .or_ => 5

/-- The number of levels. -/
def levels : Nat := 6

def ofKind? : Kind → Option Operator
  | .symbol x => (BinaryOp.ofSymbol? x).map binary
  | .keyword .and_ => some (logical .and_)
  | .keyword .or_ => some (logical .or_)
  | _ => none

/-- The operator of this level that a kind stands for. -/
def at? (l : Nat) (k : Kind) : Option Operator := (ofKind? k).filter fun op => op.level == l

/-- The operator applied to its operands. -/
def apply (op : Operator) (left right : Expr) : Expr :=
  let form := match op with
    | binary op => Form.binary left op right
    | logical op => Form.logical left op right
  .new form (left.span.merge right.span)

end Operator

/-- The literal that a kind stands for. -/
def Literal.ofKind? : Kind → Option Literal
  | .int n => some (.int n)
  | .float x => some (.float x)
  | .string s => some (.string s)
  | .keyword .true_ => some (.bool true)
  | .keyword .false_ => some (.bool false)
  | .keyword .null => some .null
  | _ => none

namespace Parser

/-! ### Types -/

/-- A written type. The number bounds how deep function types are nested. -/
def typeExprWithin : Nat → Parser TypeExpr
  | 0 => do fail (.expectedType (← peek))
  | depth + 1 => spanned do
    match ← peek with
    | .ident name =>
      advance
      let optional ← eat (.symbol .question)
      pure (.named name optional)
    | .keyword .null =>
      advance
      let optional ← eat (.symbol .question)
      pure (.named "null" optional)
    | .symbol .openParen =>
      advance
      let params ← items .closeParen (typeExprWithin depth)
      symbol .closeParen
      symbol .arrow
      let result ← typeExprWithin depth
      pure (.function params result)
    | k => fail (.expectedType k)

/-- A written type. Every function type takes a token, so the tokens ahead bound the nesting. -/
def typeExpr : Parser TypeExpr := fun c => typeExprWithin (c.remaining + 1) c

/-- A name with its type. -/
def typedName : Parser TypedName := spanned do
  let name ← identifier
  symbol .colon
  let type ← typeExpr
  pure (.mk name type)

/-! ### Statements, given the parsers for their parts -/

section

variable (statement : Parser Stmt) (expression : Parser Expr)

def block : Parser Stmt := spanned do
  symbol .openBrace
  let body ← fun c =>
    let (body, d) := statements (fun k => k == .symbol .closeBrace || k == .eof) statement c
    (some body, d)
  symbol .closeBrace
  pure (.block body)

/-- A declaration has a value only behind an equals sign. -/
def letStatement : Parser Stmt := spanned do
  advance
  let name ← identifier
  symbol .colon
  let type ← typeExpr
  if ← eat (.symbol .eq) then
    let value ← expression
    pure (.let_ name type (some value))
  else pure (.let_ name type none)

def ifStatement : Parser Stmt := spanned do
  advance
  let condition ← expression
  let whenTrue ← statement
  if ← eat (.keyword .else_) then
    let whenFalse ← statement
    pure (.if_ condition whenTrue (some whenFalse))
  else pure (.if_ condition whenTrue none)

def whileStatement : Parser Stmt := spanned do
  advance
  let condition ← expression
  let body ← statement
  pure (.while_ condition body)

def structStatement : Parser Stmt := spanned do
  advance
  let name ← identifier
  symbol .openBrace
  let fields ← items .closeBrace typedName
  symbol .closeBrace
  pure (.struct name fields)

/-- A return has no value where the next token starts another statement or ends this one. -/
def returnStatement : Parser Stmt := spanned do
  advance
  let next ← peek
  if Cursor.resumes next then pure (.return_ none)
  else
    let value ← expression
    pure (.return_ (some value))

/-- A statement, by its first token. -/
def statementBody : Parser Stmt := do
  match ← peek with
  | .keyword .let_ => letStatement expression
  | .symbol .openBrace => block statement
  | .keyword .if_ => ifStatement statement expression
  | .keyword .while_ => whileStatement statement expression
  | .keyword .struct => structStatement
  | .keyword .return_ => returnStatement expression
  | _ =>
    let value ← expression
    pure (.expr value value.span)

/-! ### Expressions, given the parsers for their parts -/

def functionLiteral : Parser Expr := spanned do
  advance
  symbol .openParen
  let params ← items .closeParen typedName
  symbol .closeParen
  symbol .colon
  let result ← typeExpr
  symbol .fatArrow
  let body ← statement
  pure (.new (.function params result body))

def recordLiteral : Parser Expr := spanned do
  let name ← identifier
  symbol .openBrace
  let fields ← items .closeBrace do
    let field ← identifier
    symbol .colon
    let value ← expression
    pure (field, value)
  symbol .closeBrace
  pure (.new (.record name fields))

/-- A name is the name of a record literal if an opening brace follows it, and then a field or,
for a name with a capital, the closing brace. Any other brace belongs to the statement around. -/
def startsRecord (name : String) (c : Cursor) : Bool :=
  c.peekAhead 0 == .symbol .openBrace &&
    match c.peekAhead 1, c.peekAhead 2 with
    | .ident _, .symbol .colon => true
    | .symbol .closeBrace, _ => name.toList.head?.any Char.isUpper
    | _, _ => false

def group : Parser Expr := spanned do
  advance
  let inner ← expression
  symbol .closeParen
  pure (.new (.group inner))

/-- A literal, a group, a record literal or a variable. -/
def primary : Parser Expr := fun c =>
  match Literal.ofKind? c.kind with
  | some l => (some (.new (.literal l) c.current.span), c.advance)
  | none =>
    match c.kind with
    | .symbol .openParen => group expression c
    | .ident name =>
      if startsRecord name c then recordLiteral expression c
      else (some (.new (.variable name) c.current.span), c.advance)
    | k => fail (.expectedExpression k) c

/-- One call or member access behind an expression. -/
def suffix (e : Expr) : Parser Expr := do
  if ← eat (.symbol .dot) then
    let field ← identifier
    pure (.new (.get e field) (e.span.merge field.span))
  else
    symbol .openParen
    let args ← items .closeParen expression
    let close ← here
    symbol .closeParen
    pure (.new (.call e args) (e.span.merge close))

end

end Parser

/-- The parsers at one nesting depth. -/
structure Grammar where
  statement : Parser Stmt
  expression : Parser Expr
  /-- An operand of the operators that bind most tightly. -/
  unary : Parser Expr
  /-- The operators of a level, with their operands, behind a first operand. -/
  chain : Nat → Expr → Parser Expr
  /-- The calls and member accesses behind an expression. -/
  suffixes : Expr → Parser Expr

namespace Grammar

open RecordLang.Parser

/-- An operand of the operators of a level: a chain of operators that bind more tightly. -/
def operand (g : Grammar) : Nat → Parser Expr
  | 0 => g.unary
  | level + 1 => do g.chain level (← g.operand level)

/-- Reads one level further in. -/
def nested {α : Type} (inner : Option Grammar) (p : Grammar → Parser α) : Parser α :=
  match inner with
  | none => fail .tooDeep
  | some g => p g

section

variable (inner : Option Grammar)

def statementAround : Parser Stmt := nested inner fun g => statementBody g.statement g.expression

def expressionAround : Parser Expr := nested inner fun g => g.operand Operator.levels

def suffixesAround (e : Expr) : Parser Expr := do
  match ← peek with
  | .symbol .openParen | .symbol .dot =>
    nested inner fun g => do g.suffixes (← suffix g.expression e)
  | _ => pure e

/-- The level of a unary operator is taken once the operator is read. -/
def unaryAround : Parser Expr := do
  let start ← here
  let k ← peek
  match UnaryOp.ofKind? k with
  | some op =>
    advance
    let operand ← nested inner fun g => g.unary
    pure (.new (.unary op operand) (start.merge operand.span))
  | none =>
    if k = .keyword .fn then functionLiteral (statementAround inner)
    else suffixesAround inner (← primary (expressionAround inner))

/-- The level of an operator in a chain is taken before the operator is read. -/
def chainAround (level : Nat) (left : Expr) : Parser Expr := do
  match Operator.at? level (← peek) with
  | none => pure left
  | some op =>
    nested inner fun g => do
      advance
      let right ← g.operand level
      g.chain level (op.apply left right)

/-- The grammar around an inner one. -/
def around : Grammar where
  statement := statementAround inner
  expression := expressionAround inner
  unary := unaryAround inner
  chain := chainAround inner
  suffixes := suffixesAround inner

end

/-- The grammar that allows so many further levels. -/
def allowing : Nat → Grammar
  | 0 => around none
  | n + 1 => around (some (allowing n))

/-- The grammar of a whole program. -/
def full : Grammar := allowing GrammarCause.maxNesting

end Grammar

/-- A program, if anything of one was found, with the faults in its form. -/
structure Parsed where
  program : Option Program
  faults : Capped (Located GrammarCause)

/-- Reads a program. Tokens without a single statement make an empty program only if they have no
fault. -/
def parse (tokens : List Token) : Parsed :=
  let c := Cursor.ofTokens tokens
  let (body, d) := Parser.statements (· == .eof) Grammar.full.statement c
  ⟨if body.isEmpty && d.faults.nonempty then none
    else some ⟨body, c.current.span.merge d.last⟩, d.faults⟩

end RecordLang
