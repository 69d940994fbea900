import RecordLang.Event
import RecordLang.Typing.Returns

/-!
# Checking

A program is checked statement by statement, and an expression from its parts upward; the type found
for an expression is written into its slot. The first fault ends the check. What was found until
then stays: the slots that were written and, in the enclosing scopes, what was declared.

The judgements on single nodes come first; they look at the types of the parts and at the context.
The walk over the tree then puts them together.
-/

namespace RecordLang

/-! ### Written types -/

namespace TypeExpr

mutual

/-- The first name in a written type that is not known, with its place. -/
def unknown? (known : String → Bool) : TypeExpr → Option (String × Span)
  | named name _ span => if known name then none else some (name, span)
  | function params result _ =>
    match unknownAmong? known params with
    | some found => some found
    | none => result.unknown? known

def unknownAmong? (known : String → Bool) : List TypeExpr → Option (String × Span)
  | [] => none
  | t :: ts =>
    match t.unknown? known with
    | some found => some found
    | none => unknownAmong? known ts

end

end TypeExpr

namespace Context

/-- The type that is written, if all its names are known. -/
def readType (Γ : Context) (t : TypeExpr) : Except TypeFault Ty :=
  match t.unknown? Γ.knows with
  | some (name, span) => .error ⟨.unknownType name, span⟩
  | none => .ok t.ty

/-- The types of parameters. -/
def readParams (Γ : Context) (params : List TypedName) : Except TypeFault (List Ty) :=
  params.mapM fun p => Γ.readType p.type

/-- The types of the fields of a declared record, after some that were seen. -/
def readFields (Γ : Context) (record : String) (seen : List String) :
    List TypedName → Except TypeFault (List (String × Ty))
  | [] => .ok []
  | f :: fs =>
    if seen.contains f.name.name then .error ⟨.fieldDeclared f.name.name record, f.span⟩
    else do
      let t ← Γ.readType f.type
      let ts ← Γ.readFields record (f.name.name :: seen) fs
      pure ((f.name.name, t) :: ts)

/-! ### Judgements on single nodes -/

def typeOfVariable (Γ : Context) (x : String) (span : Span) : Except TypeFault Ty :=
  match Γ.findVariable x with
  | some t => .ok t
  | none => .error ⟨.undefinedVariable x, span⟩

def typeOfUnary (op : UnaryOp) (span : Span) (operand : Ty) : Except TypeFault Ty :=
  if op.applies operand then .ok operand else .error ⟨.badOperator op.symbol operand, span⟩

/-- The right operand has to fit the left one, and the operator has to apply to the left one. A
comparison gives a truth value, any other operator the type of the left operand. -/
def typeOfBinary (Γ : Context) (op : BinaryOp) (span : Span) (left right : Ty) :
    Except TypeFault Ty :=
  if !Γ.accepts left right then .error ⟨.operandsDiffer left right, span⟩
  else if !op.applies left.baseName then .error ⟨.badOperator op.symbol left, span⟩
  else .ok (if op.isComparison then .bool else left)

def checkOperand (op : LogicalOp) (span : Span) (actual : Ty) : Except TypeFault Unit :=
  if actual.isBool then .ok () else .error ⟨.operandNotBool op actual, span⟩

def checkCondition (keyword : Keyword) (span : Span) (actual : Ty) : Except TypeFault Unit :=
  if actual.isBool then .ok () else .error ⟨.conditionNotBool keyword actual, span⟩

/-- The parameters and the result of something that is called with so many arguments. -/
def signature (callee call : Span) (count : Nat) : Ty → Except TypeFault (List Ty × Ty)
  | .function params result =>
    if params.length = count then .ok (params, result)
    else .error ⟨.argumentCount params.length count, call⟩
  | t => .error ⟨.notCallable t, callee⟩

def checkArgument (Γ : Context) (place : Nat) (span : Span) (expected actual : Ty) :
    Except TypeFault Unit :=
  if Γ.accepts expected actual then .ok ()
  else .error ⟨.argumentMismatch place expected actual, span⟩

/-- The fields of a type: those of a record, or of the declared record of a name that is not
optional. -/
def fieldsOf (Γ : Context) (object : Ty) (field : Ident) :
    Except TypeFault (List (String × Ty)) :=
  match object with
  | .record fields => .ok fields
  | .function .. => .error ⟨.memberOfFunction, field.span⟩
  | .named name optional =>
    match Γ.findRecord name with
    | none => .error ⟨.notRecord object, field.span⟩
    | some schema =>
      if optional then .error ⟨.memberOfOptional field.name object, field.span⟩
      else match schema with
        | .record fields => .ok fields
        | _ => .error ⟨.notRecord object, field.span⟩

def typeOfMember (Γ : Context) (object : Ty) (field : Ident) : Except TypeFault Ty := do
  let fields ← Γ.fieldsOf object field
  match fields.lookup field.name with
  | some t => pure t
  | none => .error ⟨.unknownField field.name object, field.span⟩

def checkInitial (Γ : Context) (span : Span) (declared actual : Ty) : Except TypeFault Unit :=
  if Γ.accepts declared actual then .ok () else .error ⟨.declarationMismatch declared actual, span⟩

end Context

/-! ### The state of a check -/

/-- Why a check ends early: a fault in the program, or a node whose slot was already written. -/
inductive Halt where
  | fault (f : TypeFault)
  | revisited
  deriving DecidableEq

/-- The context and the events so far, the latest first. -/
structure Checker where
  context : Context
  log : List Event

namespace Checker

/-- A checker that has seen nothing. -/
def new : Checker := ⟨.empty, []⟩

instance : Inhabited Checker := ⟨new⟩

def note (c : Checker) (e : Event) : Checker := { c with log := e :: c.log }

def enter (c : Checker) : Checker :=
  let Γ := c.context.enter
  ⟨Γ, .scopeEntered Γ.depth :: c.log⟩

/-- Leaving the outermost scope does nothing. -/
def exit (c : Checker) : Checker :=
  if c.context.depth = 0 then c
  else
    let Γ := c.context.exit
    ⟨Γ, .scopeLeft Γ.depth :: c.log⟩

/-- Declares a variable of the current scope. -/
def declare (c : Checker) (x : String) (t : Ty) (fault : TypeFault) : Except Halt Checker :=
  match c.context.declare x t with
  | some Γ => .ok { c with context := Γ }
  | none => .error (.fault fault)

/-- Declares the parameters of a function. -/
def declareParams (c : Checker) : List TypedName → List Ty → Except Halt Checker
  | p :: ps, t :: ts =>
    match c.declare p.name.name t ⟨.parameterDeclared p.name.name, p.span⟩ with
    | .ok c => c.declareParams ps ts
    | .error h => .error h
  | _, _ => .ok c

/-- Declares a record. -/
def declareRecord (c : Checker) (x : Ident) (fields : List TypedName) : Except Halt Checker :=
  match c.context.findRecord x.name with
  | some _ => .error (.fault ⟨.recordDeclared x.name, x.span⟩)
  | none =>
    match c.context.readFields x.name [] fields with
    | .error f => .error (.fault f)
    | .ok types =>
      match c.context.declareRecord x.name (.ofFields types) with
      | some Γ => .ok ⟨Γ, .recordDeclared x.name fields.length :: c.log⟩
      | none => .ok c

end Checker

/-- What a visit leaves: the nodes with the types written so far, the state, and how it ended. -/
structure Visit (ν α : Type) where
  nodes : ν
  result : Except Halt α
  state : Checker

namespace Visit

variable {ν μ α β : Type}

/-- A visit that finds something without looking at parts. -/
def done (nodes : ν) (result : Except Halt α) (state : Checker) : Visit ν α :=
  ⟨nodes, result, state⟩

/-- The visit of a part as a visit of the whole. -/
def map (f : ν → μ) (v : Visit ν α) : Visit μ α := ⟨f v.nodes, v.result, v.state⟩

/-- Goes on with other nodes, which stay as they are if the visit has ended early. -/
def andThen (v : Visit ν α) (others : μ) (next : α → Checker → Visit μ β) : Visit (ν × μ) β :=
  match v.result with
  | .error h => ⟨(v.nodes, others), .error h, v.state⟩
  | .ok a =>
    let w := next a v.state
    ⟨(v.nodes, w.nodes), w.result, w.state⟩

/-- Judges what was found. -/
def judge (v : Visit ν α) (f : α → Except TypeFault β) : Visit ν β :=
  match v.result with
  | .error h => ⟨v.nodes, .error h, v.state⟩
  | .ok a => ⟨v.nodes, (f a).mapError Halt.fault, v.state⟩

/-- Judges what was found in the context at the end of the visit. -/
def judgeIn (v : Visit ν α) (f : Context → α → Except TypeFault β) : Visit ν β :=
  v.judge (f v.state.context)

/-- A visit in a scope of its own, which is left however it ends. -/
def inScope (c : Checker) (visit : Checker → Visit ν α) : Visit ν α :=
  let v := visit c.enter
  ⟨v.nodes, v.result, v.state.exit⟩

/-- Writes the type that was found for a node. -/
def record (v : Visit Form Ty) (span : Span) (slot : Option Ty) : Visit Expr Ty :=
  match v.result, slot with
  | .error h, slot => ⟨.mk v.nodes span slot, .error h, v.state⟩
  | .ok t, none => ⟨.mk v.nodes span (some t), .ok t, v.state⟩
  | .ok _, some u => ⟨.mk v.nodes span (some u), .error .revisited, v.state⟩

end Visit

/-! ### The walk -/

mutual

/-- Finds the type of an expression and writes it into its slot. -/
def Expr.check : Expr → Checker → Visit Expr Ty
  | .mk form span slot, c => (form.check span c).record span slot

/-- Finds the type of an expression of this form. -/
def Form.check (span : Span) : Form → Checker → Visit Form Ty
  | .literal l, c => .done (.literal l) (.ok l.ty) c
  | .variable x, c =>
    .done (.variable x) ((c.context.typeOfVariable x span).mapError Halt.fault) c
  | .group e, c => (e.check c).map .group
  | .unary op e, c => ((e.check c).map (.unary op)).judge (Context.typeOfUnary op span)
  | .binary l op r, c =>
    ((l.check c).andThen r fun left c =>
        (r.check c).judgeIn fun Γ right => Γ.typeOfBinary op span left right).map
      fun (l, r) => .binary l op r
  | .logical l op r, c =>
    (((l.check c).judge (Context.checkOperand op l.span)).andThen r fun _ c =>
        (r.check c).judge fun t => (Context.checkOperand op r.span t).map fun _ => Ty.bool).map
      fun (l, r) => .logical l op r
  | .function params result body, c =>
    match c.context.readParams params, c.context.readType result with
    | .error f, _ => .done (.function params result body) (.error (.fault f)) c
    | .ok _, .error f => .done (.function params result body) (.error (.fault f)) c
    | .ok types, .ok type =>
      (Visit.inScope c fun c =>
        match c.declareParams params types with
        | .error h => .done body (.error h) c
        | .ok c =>
          let v := body.check c
          v.judgeIn fun Γ _ =>
            (Γ.checkBody type v.nodes).map fun _ => Ty.function types type).map
        (.function params result)
  | .call f args, c =>
    (((f.check c).judge (Context.signature f.span span args.length)).andThen args
        fun (params, result) c => (checkArgs 1 params args c).judge fun _ => .ok result).map
      fun (f, args) => .call f args
  | .get e x, c => ((e.check c).map (.get · x)).judgeIn fun Γ t => Γ.typeOfMember t x
  | .record name fields, c =>
    ((checkFields [] fields c).map (.record name)).judge fun types => .ok (.ofFields types)

/-- Checks arguments in order, the first at the given place. -/
def checkArgs (place : Nat) : List Ty → List Expr → Checker → Visit (List Expr) Unit
  | t :: ts, e :: es, c =>
    (((e.check c).judgeIn fun Γ actual => Γ.checkArgument place e.span t actual).andThen es
        fun _ c => checkArgs (place + 1) ts es c).map
      fun (e, es) => e :: es
  | _, es, c => .done es (.ok ()) c

/-- The types of the fields of a record literal, after some names that were seen. -/
def checkFields (seen : List String) :
    List (Ident × Expr) → Checker → Visit (List (Ident × Expr)) (List (String × Ty))
  | [], c => .done [] (.ok []) c
  | (x, e) :: fs, c =>
    if seen.contains x.name then
      .done ((x, e) :: fs) (.error (.fault ⟨.fieldInitialized x.name, x.span⟩)) c
    else
      ((e.check c).andThen fs fun t c =>
          (checkFields (x.name :: seen) fs c).judge fun ts => .ok ((x.name, t) :: ts)).map
        fun (e, fs) => (x, e) :: fs

/-- Checks a statement. A declared variable is visible in its own initial value, and stays
declared if that has a fault. -/
def Stmt.check : Stmt → Checker → Visit Stmt Unit
  | .expr e span, c =>
    ((e.check (c.note (.statement span.line "expr"))).map (.expr · span)).judge fun _ => .ok ()
  | .let_ x type none span, c =>
    let c := c.note (.statement span.line "let")
    match c.context.readType type with
    | .error f => .done (.let_ x type none span) (.error (.fault f)) c
    | .ok t =>
      match c.declare x.name t ⟨.variableDeclared x.name, x.span⟩ with
      | .error h => .done (.let_ x type none span) (.error h) c
      | .ok c => .done (.let_ x type none span) (.ok ()) c
  | .let_ x type (some e) span, c =>
    let c := c.note (.statement span.line "let")
    match c.context.readType type with
    | .error f => .done (.let_ x type (some e) span) (.error (.fault f)) c
    | .ok t =>
      match c.declare x.name t ⟨.variableDeclared x.name, x.span⟩ with
      | .error h => .done (.let_ x type (some e) span) (.error h) c
      | .ok c =>
        ((e.check c).judgeIn fun Γ actual => Γ.checkInitial span t actual).map
          fun e => .let_ x type (some e) span
  | .block body span, c =>
    (Visit.inScope (c.note (.statement span.line "block")) fun c => checkAll body c).map
      (.block · span)
  | .if_ e s none span, c =>
    (((e.check (c.note (.statement span.line "if"))).judge
        (Context.checkCondition .if_ e.span)).andThen s fun _ c => s.check c).map
      fun (e, s) => .if_ e s none span
  | .if_ e s (some t) span, c =>
    (((e.check (c.note (.statement span.line "if"))).judge
        (Context.checkCondition .if_ e.span)).andThen (s, t)
        fun _ c => (s.check c).andThen t fun _ c => t.check c).map
      fun (e, s, t) => .if_ e s (some t) span
  | .while_ e s span, c =>
    (((e.check (c.note (.statement span.line "while"))).judge
        (Context.checkCondition .while_ e.span)).andThen s fun _ c => s.check c).map
      fun (e, s) => .while_ e s span
  | .struct x fields span, c =>
    let c := c.note (.statement span.line "struct")
    match c.declareRecord x fields with
    | .error h => .done (.struct x fields span) (.error h) c
    | .ok c => .done (.struct x fields span) (.ok ()) c
  | .return_ none span, c =>
    .done (.return_ none span) (.error (.fault ⟨.returnWithoutValue, span⟩))
      (c.note (.statement span.line "return"))
  | .return_ (some e) span, c =>
    ((e.check (c.note (.statement span.line "return"))).map fun e =>
      Stmt.return_ (some e) span).judge fun _ => .ok ()

/-- Checks statements in order. -/
def checkAll : List Stmt → Checker → Visit (List Stmt) Unit
  | [], c => .done [] (.ok ()) c
  | s :: ss, c => ((s.check c).andThen ss fun _ c => checkAll ss c).map fun (s, ss) => s :: ss

end

/-- Checks a program, and logs how that ended. -/
def Program.check (p : Program) (c : Checker) : Visit Program Unit :=
  let v := (checkAll p.body c).map fun body => { p with body := body }
  match v.result with
  | .ok () => { v with state := v.state.note (.typeChecked p.body.length) }
  | .error (.fault f) => { v with state := v.state.note (.typeFault f.code f.line f.message) }
  | .error .revisited => v

end RecordLang
