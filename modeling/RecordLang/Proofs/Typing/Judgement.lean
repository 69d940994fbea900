import RecordLang.Proofs.Typing.Scope

/-!
# The typing judgement

The rules that say which programs have types, without a state: a context is given, and a rule for a
scope or a declaration names the context in which its parts are judged. `HasType R Γ e t` says that
the expression `e` has the type `t` in `Γ`, and `StmtTyped R Γ s ts` that the statement `s` is well
typed and that the values it returns have the types `ts`, in the order of the text.

`R` is what is asked of the slots of the expressions. With `SlotRule.any` the judgement is about the
program alone; with `SlotRule.written` it also says that every slot holds the type of its
expression.
-/

namespace RecordLang

/-- What is asked of the slot of an expression of some type. -/
abbrev SlotRule := Option Ty → Ty → Prop

namespace SlotRule

/-- Slots do not matter. -/
def any : SlotRule := fun _ _ => True

/-- A slot holds the type of its expression. -/
def written : SlotRule := fun slot t => slot = some t

end SlotRule

/-- The fields behind a type: those of a record, or of the visible record of a name that is not
optional. -/
def Context.HasFields (Γ : Context) (t : Ty) (fields : List (String × Ty)) : Prop :=
  t = .record fields ∨ ∃ name, t = .named name false ∧ Γ.findRecord name = some (.record fields)

/-- The last of the statements is a return. -/
def EndsWithReturn (body : List Stmt) : Prop :=
  ∃ last, body.getLast? = some last ∧ last.isReturn = true

/-! ### Rules -/

section Rules

variable (R : SlotRule)

mutual

/-- The expression has the type in the context. -/
inductive HasType : Context → Expr → Ty → Prop
  | mk {Γ : Context} {form : Form} {span : Span} {slot : Option Ty} {t : Ty}
      (typed : FormTyped Γ form t) (holds : R slot t) : HasType Γ (.mk form span slot) t

/-- An expression of the form has the type in the context. -/
inductive FormTyped : Context → Form → Ty → Prop
  | literal {Γ : Context} (l : Literal) : FormTyped Γ (.literal l) l.ty
  | name {Γ : Context} {x : String} {t : Ty} (found : Γ.findVariable x = some t) :
      FormTyped Γ (.variable x) t
  | group {Γ : Context} {e : Expr} {t : Ty} (inner : HasType Γ e t) : FormTyped Γ (.group e) t
  | unary {Γ : Context} {op : UnaryOp} {e : Expr} {t : Ty} (operand : HasType Γ e t)
      (applies : op.applies t = true) : FormTyped Γ (.unary op e) t
  | comparison {Γ : Context} {l r : Expr} {op : BinaryOp} {t u : Ty} (left : HasType Γ l t)
      (right : HasType Γ r u) (fits : Γ.accepts t u = true)
      (applies : op.applies t.baseName = true) (compares : op.isComparison = true) :
      FormTyped Γ (.binary l op r) .bool
  | arithmetic {Γ : Context} {l r : Expr} {op : BinaryOp} {t u : Ty} (left : HasType Γ l t)
      (right : HasType Γ r u) (fits : Γ.accepts t u = true)
      (applies : op.applies t.baseName = true) (computes : op.isComparison = false) :
      FormTyped Γ (.binary l op r) t
  | logical {Γ : Context} {l r : Expr} {op : LogicalOp} (left : HasType Γ l .bool)
      (right : HasType Γ r .bool) : FormTyped Γ (.logical l op r) .bool
  | function {Γ : Context} {params : List TypedName} {result : TypeExpr} {body : Stmt}
      (known : ∀ p ∈ params, Γ.Knows p.type.ty) (knownResult : Γ.Knows result.ty)
      (distinct : (params.map fun p => p.name.name).Nodup)
      (returns : BodyTyped (Γ.enter.extend (params.map TypedName.entry)) result.ty body) :
      FormTyped Γ (.function params result body)
        (.function (params.map fun p => p.type.ty) result.ty)
  | call {Γ : Context} {f : Expr} {args : List Expr} {params : List Ty} {result : Ty}
      (callee : HasType Γ f (.function params result)) (given : ArgsTyped Γ params args) :
      FormTyped Γ (.call f args) result
  | get {Γ : Context} {e : Expr} {x : Ident} {t u : Ty} {fields : List (String × Ty)}
      (object : HasType Γ e t) (record : Γ.HasFields t fields)
      (field : fields.lookup x.name = some u) : FormTyped Γ (.get e x) u
  | record {Γ : Context} {name : Ident} {fields : List (Ident × Expr)}
      {types : List (String × Ty)} (values : FieldsTyped Γ fields types)
      (distinct : (fields.map fun f => f.1.name).Nodup) :
      FormTyped Γ (.record name fields) (.ofFields types)

/-- There is an argument for each parameter, and the parameter's type accepts it. -/
inductive ArgsTyped : Context → List Ty → List Expr → Prop
  | nil {Γ : Context} : ArgsTyped Γ [] []
  | cons {Γ : Context} {e : Expr} {es : List Expr} {t u : Ty} {ts : List Ty}
      (first : HasType Γ e u) (fits : Γ.accepts t u = true) (rest : ArgsTyped Γ ts es) :
      ArgsTyped Γ (t :: ts) (e :: es)

/-- The fields of a record literal with the types of their values. -/
inductive FieldsTyped : Context → List (Ident × Expr) → List (String × Ty) → Prop
  | nil {Γ : Context} : FieldsTyped Γ [] []
  | cons {Γ : Context} {x : Ident} {e : Expr} {t : Ty} {fs : List (Ident × Expr)}
      {ts : List (String × Ty)} (first : HasType Γ e t) (rest : FieldsTyped Γ fs ts) :
      FieldsTyped Γ ((x, e) :: fs) ((x.name, t) :: ts)

/-- A function body: the value of an expression or of a return is accepted by the result type, and
a block ends with a return and all that it returns is accepted. It is the scope around a block that
decides what is accepted. -/
inductive BodyTyped : Context → Ty → Stmt → Prop
  | expr {Γ : Context} {result t : Ty} {e : Expr} {span : Span} (value : HasType Γ e t)
      (fits : Γ.accepts result t = true) : BodyTyped Γ result (.expr e span)
  | return_ {Γ : Context} {result t : Ty} {e : Expr} {span : Span} (value : HasType Γ e t)
      (fits : Γ.accepts result t = true) : BodyTyped Γ result (.return_ (some e) span)
  | block {Γ : Context} {result : Ty} {body : List Stmt} {span : Span} {ts : List Ty}
      (typed : BlockTyped Γ.enter body ts) (ends : EndsWithReturn body)
      (fits : ∀ t ∈ ts, Γ.accepts result t = true) : BodyTyped Γ result (.block body span)

/-- The statement is well typed and returns values of the types. -/
inductive StmtTyped : Context → Stmt → List Ty → Prop
  | expr {Γ : Context} {e : Expr} {t : Ty} {span : Span} (value : HasType Γ e t) :
      StmtTyped Γ (.expr e span) []
  | declared {Γ : Context} {x : Ident} {type : TypeExpr} {span : Span}
      (allowed : Γ.Allows (.variable x.name type.ty)) : StmtTyped Γ (.let_ x type none span) []
  | initialized {Γ : Context} {x : Ident} {type : TypeExpr} {e : Expr} {t : Ty} {span : Span}
      (allowed : Γ.Allows (.variable x.name type.ty))
      (value : HasType (Γ.extend [.variable x.name type.ty]) e t)
      (fits : (Γ.extend [.variable x.name type.ty]).accepts type.ty t = true) :
      StmtTyped Γ (.let_ x type (some e) span) []
  | block {Γ : Context} {body : List Stmt} {ts : List Ty} {span : Span}
      (typed : BlockTyped Γ.enter body ts) : StmtTyped Γ (.block body span) ts
  | if_ {Γ : Context} {e : Expr} {s : Stmt} {ts : List Ty} {span : Span}
      (condition : HasType Γ e .bool) (whenTrue : StmtTyped Γ s ts) :
      StmtTyped Γ (.if_ e s none span) ts
  | ifElse {Γ : Context} {e : Expr} {s s' : Stmt} {ts ts' : List Ty} {span : Span}
      (condition : HasType Γ e .bool) (whenTrue : StmtTyped Γ s ts)
      (whenFalse : StmtTyped (Γ.extend s.declarations) s' ts') :
      StmtTyped Γ (.if_ e s (some s') span) (ts ++ ts')
  | while_ {Γ : Context} {e : Expr} {s : Stmt} {ts : List Ty} {span : Span}
      (condition : HasType Γ e .bool) (body : StmtTyped Γ s ts) :
      StmtTyped Γ (.while_ e s span) ts
  | struct {Γ : Context} {x : Ident} {fields : List TypedName} {span : Span}
      (new : Γ.findRecord x.name = none) (distinct : (fields.map fun f => f.name.name).Nodup)
      (known : ∀ f ∈ fields, Γ.Knows f.type.ty) : StmtTyped Γ (.struct x fields span) []
  | return_ {Γ : Context} {e : Expr} {t : Ty} {span : Span} (value : HasType Γ e t) :
      StmtTyped Γ (.return_ (some e) span) [t]

/-- The statements are well typed one after another, each with what those before it declare. -/
inductive BlockTyped : Context → List Stmt → List Ty → Prop
  | nil {Γ : Context} : BlockTyped Γ [] []
  | cons {Γ : Context} {s : Stmt} {ss : List Stmt} {ts ts' : List Ty} (first : StmtTyped Γ s ts)
      (rest : BlockTyped (Γ.extend s.declarations) ss ts') : BlockTyped Γ (s :: ss) (ts ++ ts')

end

/-- The program has types, starting from nothing. -/
def Program.Typed (p : Program) : Prop := ∃ ts, BlockTyped R .empty p.body ts

end Rules

end RecordLang
