import Mathlib.Logic.Equiv.Basic
import RecordLang.Proofs.Program.Renamed
import RecordLang.Proofs.Typing.Related
import RecordLang.Proofs.Typing.Agreement

/-!
# Checking does not look at spellings

The check of a renamed tree in a renamed context does what the check of the tree does: it finds the
renamed type or a fault with renamed names at the same place, it writes the renamed types, and it
leaves the renamed context (`Expr.check_rename`, `Stmt.check_rename`). So names matter to the check
only by being the same or different (`Program.check_ignores_spelling`).
-/

namespace RecordLang

/-! ### Contexts -/

variable (ρ : Renaming)

namespace Entry

/-- The declaration with the new names. -/
def rename : Entry → Entry
  | .scope => .scope
  | .variable x t => .variable (ρ.ofVariable x) (t.rename ρ)
  | .record x schema => .record (ρ.ofRecord x) (schema.rename ρ)

@[simp] theorem isScope_rename (e : Entry) : (e.rename ρ).isScope = e.isScope := by
  cases e <;> rfl

@[simp] theorem isRecord_rename (e : Entry) : (e.rename ρ).isRecord = e.isRecord := by
  cases e <;> rfl

theorem variableOf_rename (x : String) (e : Entry) :
    (e.rename ρ).variableOf (ρ.ofVariable x) = (e.variableOf x).map (Ty.rename ρ) := by
  rcases e with _ | ⟨y, t⟩ | _
  · rfl
  · by_cases h : x = y <;> simp [rename, variableOf, ρ.injective_ofVariable.eq_iff, h]
  · rfl

theorem recordOf_rename (x : String) (e : Entry) :
    (e.rename ρ).recordOf (ρ.ofRecord x) = (e.recordOf x).map (Ty.rename ρ) := by
  rcases e with _ | _ | ⟨y, t⟩
  · rfl
  · rfl
  · by_cases h : x = y <;> simp [rename, recordOf, ρ.injective_ofRecord.eq_iff, h]

end Entry

namespace Context

/-- The context with the new names. -/
def rename (Γ : Context) : Context := ⟨Γ.entries.map (Entry.rename ρ)⟩

variable (Γ : Context)

theorem findSome?_rename {p q : Entry → Option Ty}
    (h : ∀ e, q (e.rename ρ) = (p e).map (Ty.rename ρ)) (es : List Entry) :
    (es.map (Entry.rename ρ)).findSome? q = (es.findSome? p).map (Ty.rename ρ) := by
  rw [List.findSome?_map, List.map_findSome?]
  exact congrArg (List.findSome? · es) (funext h)

@[simp] theorem findVariable_rename (x : String) :
    (Γ.rename ρ).findVariable (ρ.ofVariable x) = (Γ.findVariable x).map (Ty.rename ρ) :=
  findSome?_rename ρ (Entry.variableOf_rename ρ x) _

@[simp] theorem findRecord_rename (x : String) :
    (Γ.rename ρ).findRecord (ρ.ofRecord x) = (Γ.findRecord x).map (Ty.rename ρ) :=
  findSome?_rename ρ (Entry.recordOf_rename ρ x) _

@[simp] theorem knows_rename (name : String) :
    (Γ.rename ρ).knows (ρ.ofRecord name) = Γ.knows name := by
  simp [knows]

theorem exit_rename : Γ.exit.rename ρ = (Γ.rename ρ).exit := by
  have houter : ∀ es : List Entry,
      outer? (es.map (Entry.rename ρ)) = (outer? es).map (List.map (Entry.rename ρ)) := by
    intro es
    induction es with
    | nil => rfl
    | cons e es ih =>
      rw [List.map_cons, outer?, outer?, Entry.isScope_rename]
      split
      · rfl
      · exact ih
  have hentries : (Γ.rename ρ).entries = Γ.entries.map (Entry.rename ρ) := rfl
  rw [exit, exit, hentries, houter]
  cases outer? Γ.entries <;> rfl

theorem declare_rename (x : String) (t : Ty) :
    (Γ.rename ρ).declare (ρ.ofVariable x) (t.rename ρ) = (Γ.declare x t).map (rename ρ) := by
  have hcurrent : (Γ.rename ρ).current = Γ.current.map (Entry.rename ρ) := by
    rw [current, current, rename, List.takeWhile_map]
    refine congrArg (fun p => List.map (Entry.rename ρ) (List.takeWhile p Γ.entries)) ?_
    exact funext fun e => congrArg (! ·) (e.isScope_rename ρ)
  rw [declare, declare, hcurrent, findSome?_rename ρ (Entry.variableOf_rename ρ x)]
  cases Γ.current.findSome? (Entry.variableOf x) <;> rfl

theorem declareRecord_rename (x : String) (schema : Ty) :
    (Γ.rename ρ).declareRecord (ρ.ofRecord x) (schema.rename ρ) =
      (Γ.declareRecord x schema).map (rename ρ) := by
  rw [declareRecord, declareRecord, findRecord_rename]
  cases Γ.findRecord x <;> rfl

theorem resolveWithin_rename (n : Nat) (t : Ty) :
    (Γ.rename ρ).resolveWithin n (t.rename ρ) = (Γ.resolveWithin n t).rename ρ := by
  induction n generalizing t with
  | zero => rfl
  | succ n ih =>
    refine (Ty.rename_expand (fun name => ?_) t).symm
    rw [findRecord_rename, Option.map_map, Option.map_map]
    exact congrArg (Option.map · (Γ.findRecord name)) (funext ih)

theorem resolve_rename (t : Ty) : (Γ.rename ρ).resolve (t.rename ρ) = (Γ.resolve t).rename ρ := by
  have hcount : (Γ.rename ρ).recordCount = Γ.recordCount := by
    rw [recordCount, recordCount, rename, List.countP_map]
    exact congrArg (List.countP · Γ.entries) (funext (Entry.isRecord_rename ρ))
  rw [resolve, resolve, hcount, resolveWithin_rename]

@[simp] theorem accepts_rename (t u : Ty) :
    (Γ.rename ρ).accepts (t.rename ρ) (u.rename ρ) = Γ.accepts t u := by
  rw [accepts, accepts, resolve_rename, resolve_rename, Ty.accepts_rename]

end Context

/-! ### Faults -/

/-- The cause with the new names. -/
def TypeCause.rename : TypeCause → TypeCause
  | unknownType name => unknownType (ρ.ofRecord name)
  | declarationMismatch declared actual => declarationMismatch (declared.rename ρ) (actual.rename ρ)
  | conditionNotBool keyword actual => conditionNotBool keyword (actual.rename ρ)
  | operandsDiffer left right => operandsDiffer (left.rename ρ) (right.rename ρ)
  | operandNotBool op actual => operandNotBool op (actual.rename ρ)
  | argumentMismatch place expected actual =>
    argumentMismatch place (expected.rename ρ) (actual.rename ρ)
  | argumentCount expected actual => argumentCount expected actual
  | badOperator operator operand => badOperator operator (operand.rename ρ)
  | notCallable actual => notCallable (actual.rename ρ)
  | unknownField field object => unknownField (ρ.ofField field) (object.rename ρ)
  | memberOfFunction => memberOfFunction
  | memberOfOptional field object => memberOfOptional (ρ.ofField field) (object.rename ρ)
  | notRecord object => notRecord (object.rename ρ)
  | emptyBody => emptyBody
  | lastNotReturn => lastNotReturn
  | returnMismatch expected actual => returnMismatch (expected.rename ρ) (actual.rename ρ)
  | returnWithoutValue => returnWithoutValue
  | variableDeclared name => variableDeclared (ρ.ofVariable name)
  | parameterDeclared name => parameterDeclared (ρ.ofVariable name)
  | undefinedVariable name => undefinedVariable (ρ.ofVariable name)
  | recordDeclared name => recordDeclared (ρ.ofRecord name)
  | fieldDeclared field record => fieldDeclared (ρ.ofField field) (ρ.ofRecord record)
  | fieldInitialized field => fieldInitialized (ρ.ofField field)

/-- A new name does not change the code of a fault. -/
theorem TypeCause.code_rename (cause : TypeCause) : (cause.rename ρ).code = cause.code := by
  cases cause <;> rfl

/-- The fault with the new names, at the same place. -/
def TypeFault.rename (f : TypeFault) : TypeFault := ⟨f.cause.rename ρ, f.span⟩

/-- Both end alike, the second one with the renamed value or the renamed fault. -/
abbrev EndsRenamed {α β : Type} (new : α → β) : Except TypeFault α → Except TypeFault β → Prop :=
  Ends (fun f g => g = f.rename ρ) fun a b => b = new a

/-! ### Written types -/

mutual

/-- The first name that is not known is at the same place. -/
theorem TypeExpr.unknown?_rename {known known' : String → Bool}
    (h : ∀ name, known' (ρ.ofRecord name) = known name) : ∀ t : TypeExpr,
    (t.rename ρ).unknown? known' = (t.unknown? known).map (Prod.map ρ.ofRecord id)
  | .named name _ span => by
    rw [TypeExpr.rename, TypeExpr.unknown?, TypeExpr.unknown?, h]
    split <;> rfl
  | .function params result _ => by
    rw [TypeExpr.rename, TypeExpr.unknown?, TypeExpr.unknown?, unknownAmong?_renameTypes h params,
      result.unknown?_rename h]
    cases TypeExpr.unknownAmong? known params <;> rfl

theorem unknownAmong?_renameTypes {known known' : String → Bool}
    (h : ∀ name, known' (ρ.ofRecord name) = known name) : ∀ ts : List TypeExpr,
    TypeExpr.unknownAmong? known' (renameTypes ρ ts) =
      (TypeExpr.unknownAmong? known ts).map (Prod.map ρ.ofRecord id)
  | [] => rfl
  | t :: ts => by
    rw [renameTypes, TypeExpr.unknownAmong?, TypeExpr.unknownAmong?, t.unknown?_rename h,
      unknownAmong?_renameTypes h ts]
    cases t.unknown? known <;> rfl

end

namespace Context

variable (Γ : Context)

theorem readType_rename (t : TypeExpr) :
    EndsRenamed ρ (Ty.rename ρ) (Γ.readType t) ((Γ.rename ρ).readType (t.rename ρ)) := by
  rw [readType, readType, t.unknown?_rename ρ (Γ.knows_rename ρ), t.ty_rename]
  cases t.unknown? Γ.knows with
  | none => exact .ok rfl
  | some found => exact .error rfl

theorem readParams_rename (params : List TypedName) :
    EndsRenamed ρ (List.map (Ty.rename ρ)) (Γ.readParams params)
      ((Γ.rename ρ).readParams (params.map (TypedName.rename ρ ρ.ofVariable))) := by
  rw [readParams, readParams]
  induction params with
  | nil => exact .ok rfl
  | cons p ps ih =>
    rw [List.map_cons, List.mapM_cons, List.mapM_cons]
    refine (Γ.readType_rename ρ p.type).bind fun t u htu => ih.bind fun ts us htus => ?_
    exact .ok (by rw [htu, htus, List.map_cons])

theorem readFields_rename (record : String) (seen : List String) (fields : List TypedName) :
    EndsRenamed ρ (List.map (Ty.renameField ρ)) (Γ.readFields record seen fields)
      ((Γ.rename ρ).readFields (ρ.ofRecord record) (seen.map ρ.ofField)
        (fields.map (TypedName.rename ρ ρ.ofField))) := by
  induction fields generalizing seen with
  | nil => exact .ok rfl
  | cons f fs ih =>
    have hname : (f.rename ρ ρ.ofField).name.name = ρ.ofField f.name.name := rfl
    rw [List.map_cons, readFields, readFields, hname, ρ.contains_ofField]
    split
    · exact .error rfl
    · refine (Γ.readType_rename ρ f.type).bind fun t u htu => (ih _).bind fun ts us htus => ?_
      exact .ok (by rw [htu, htus]; rfl)

/-! ### Single nodes -/

/-- A judgement that asks for one thing. -/
theorem endsRenamed_ite {α β : Type} {F : α → β} {P Q : Prop} [Decidable P] [Decidable Q]
    (h : P ↔ Q) {a : α} {b : β} (hb : b = F a) {f g : TypeFault} (hg : g = f.rename ρ) :
    EndsRenamed ρ F (if P then .ok a else .error f) (if Q then .ok b else .error g) := by
  by_cases hP : P
  · rw [if_pos hP, if_pos (h.mp hP)]
    exact .ok hb
  · rw [if_neg hP, if_neg fun hQ => hP (h.mpr hQ)]
    exact .error hg

theorem typeOfVariable_rename (x : String) (span : Span) :
    EndsRenamed ρ (Ty.rename ρ) (Γ.typeOfVariable x span)
      ((Γ.rename ρ).typeOfVariable (ρ.ofVariable x) span) := by
  rw [typeOfVariable, typeOfVariable, findVariable_rename]
  cases Γ.findVariable x with
  | none => exact .error rfl
  | some t => exact .ok rfl

/-- Lists of built-in names do not tell a type from the renamed one. -/
theorem any_contains_rename {names : List String} (h : ∀ name ∈ names, Ty.isBuiltin name = true)
    (t : Ty) : (t.rename ρ).baseName.any names.contains = t.baseName.any names.contains := by
  cases t with
  | function | record => rfl
  | named name optional =>
    have hmem : ρ.ofRecord name ∈ names ↔ name ∈ names := by
      constructor
      · intro hm
        have hfix : ρ.ofRecord name = name :=
          ρ.injective_ofRecord (ρ.ofRecord_builtin _ (h _ hm))
        exact hfix ▸ hm
      · intro hm
        exact (ρ.ofRecord_builtin _ (h _ hm)).symm ▸ hm
    simp [Ty.rename, Ty.baseName, hmem]

theorem isBool_rename (t : Ty) : (t.rename ρ).isBool = t.isBool := by
  rw [Ty.isBool, Ty.isBool, decide_eq_decide]
  constructor
  · intro h
    cases t with
    | named name optional =>
      injection h with hname hopt
      have hfix : ρ.ofRecord name = ρ.ofRecord "bool" :=
        hname.trans (ρ.ofRecord_builtin "bool" rfl).symm
      rw [ρ.injective_ofRecord hfix, hopt]
      rfl
    | function => simp [Ty.bool, Ty.ofName] at h
    | record => cases h
  · rintro rfl
    exact Ty.rename_bool

theorem unary_applies_rename (op : UnaryOp) (t : Ty) : op.applies (t.rename ρ) = op.applies t := by
  cases op with
  | neg => exact any_contains_rename ρ (List.all_eq_true.mp rfl) t
  | not => exact isBool_rename ρ t

theorem binary_applies_rename (op : BinaryOp) (t : Ty) :
    op.applies (t.rename ρ).baseName = op.applies t.baseName := by
  unfold BinaryOp.applies
  split
  · rfl
  · next names hnames =>
    refine any_contains_rename ρ ?_ t
    cases op <;> cases hnames <;> exact List.all_eq_true.mp rfl

theorem typeOfUnary_rename (op : UnaryOp) (span : Span) (t : Ty) :
    EndsRenamed ρ (Ty.rename ρ) (typeOfUnary op span t) (typeOfUnary op span (t.rename ρ)) :=
  endsRenamed_ite ρ (by rw [unary_applies_rename]) rfl rfl

theorem typeOfBinary_rename (op : BinaryOp) (span : Span) (t u : Ty) :
    EndsRenamed ρ (Ty.rename ρ) (Γ.typeOfBinary op span t u)
      ((Γ.rename ρ).typeOfBinary op span (t.rename ρ) (u.rename ρ)) := by
  rw [typeOfBinary, typeOfBinary, accepts_rename, binary_applies_rename]
  split
  · exact .error rfl
  · split
    · exact .error rfl
    · split
      · exact .ok (Ty.rename_bool).symm
      · exact .ok rfl

theorem signature_rename (callee call : Span) (count : Nat) (t : Ty) :
    EndsRenamed ρ (Prod.map (List.map (Ty.rename ρ)) (Ty.rename ρ)) (signature callee call count t)
      (signature callee call count (t.rename ρ)) := by
  cases t with
  | function params result =>
    rw [Ty.rename_function, signature, signature, List.length_map]
    exact endsRenamed_ite ρ Iff.rfl rfl rfl
  | named => exact .error rfl
  | record => exact .error rfl

theorem fieldsOf_rename (t : Ty) (x : Ident) :
    EndsRenamed ρ (Ty.renameFields ρ) (Γ.fieldsOf t x)
      ((Γ.rename ρ).fieldsOf (t.rename ρ) (x.rename ρ.ofField)) := by
  cases t with
  | record fields => exact .ok rfl
  | function params result =>
    rw [Ty.rename_function]
    exact .error rfl
  | named name optional =>
    rw [Ty.rename_named, fieldsOf, fieldsOf, findRecord_rename]
    cases Γ.findRecord name with
    | none => exact .error rfl
    | some schema =>
      dsimp only [Option.map_some]
      split
      · exact .error rfl
      · cases schema with
        | record fields => exact .ok rfl
        | named => exact .error rfl
        | function params result =>
          rw [Ty.rename_function]
          exact .error rfl

theorem typeOfMember_rename (t : Ty) (x : Ident) :
    EndsRenamed ρ (Ty.rename ρ) (Γ.typeOfMember t x)
      ((Γ.rename ρ).typeOfMember (t.rename ρ) (x.rename ρ.ofField)) := by
  refine (Γ.fieldsOf_rename ρ t x).bind fun fields fields' heq => ?_
  subst heq
  have hname : (x.rename ρ.ofField).name = ρ.ofField x.name := rfl
  rw [hname, Ty.lookup_renameFields]
  cases fields.lookup x.name with
  | none => exact .error rfl
  | some u => exact .ok rfl

theorem checkReturned_rename (expected : Ty) (actual : Option Ty) (span : Span) :
    EndsRenamed ρ id (Γ.checkReturned expected actual span)
      ((Γ.rename ρ).checkReturned (expected.rename ρ) (actual.map (Ty.rename ρ)) span) := by
  cases actual with
  | none => exact .error rfl
  | some actual => exact endsRenamed_ite ρ (by rw [accepts_rename]) rfl rfl

end Context

/-! ### Function bodies -/

theorem Stmt.isReturn_rename (s : Stmt) : (s.rename ρ).isReturn = s.isReturn := by
  fun_cases Stmt.rename ρ s <;> rfl

/-- A return with the renamed type of its value. -/
def renameReturn (r : Option Ty × Span) : Option Ty × Span := (r.1.map (Ty.rename ρ), r.2)

mutual

theorem Stmt.returns_rename : ∀ s : Stmt, (s.rename ρ).returns = s.returns.map (renameReturn ρ)
  | .expr .. | .let_ _ _ none _ | .let_ _ _ (some _) _ | .struct .. => rfl
  | .return_ none _ => rfl
  | .return_ (some e) span => congrArg (fun t => [(t, span)]) (e.type_rename ρ)
  | .block body _ => returnsAll_rename body
  | .if_ _ s none _ => s.returns_rename
  | .if_ _ s (some t) _ => by
    rw [Stmt.rename, Stmt.returns, Stmt.returns, List.map_append, s.returns_rename,
      t.returns_rename]
  | .while_ _ s _ => s.returns_rename

theorem returnsAll_rename : ∀ ss : List Stmt,
    Stmt.returnsAll (renameStmts ρ ss) = (Stmt.returnsAll ss).map (renameReturn ρ)
  | [] => rfl
  | s :: ss => by
    rw [renameStmts, Stmt.returnsAll, Stmt.returnsAll, List.map_append, s.returns_rename,
      returnsAll_rename ss]

end

namespace Context

variable (Γ : Context)

theorem checkBody_rename (expected : Ty) (s : Stmt) :
    EndsRenamed ρ id (Γ.checkBody expected s)
      ((Γ.rename ρ).checkBody (expected.rename ρ) (s.rename ρ)) := by
  cases s with
  | expr e span =>
    rw [Stmt.rename, checkBody, checkBody, e.type_rename]
    exact Γ.checkReturned_rename ρ expected _ span
  | return_ value span =>
    cases value with
    | none => exact .error rfl
    | some e =>
      rw [Stmt.rename, checkBody, checkBody, Option.bind_some, Option.bind_some, e.type_rename]
      exact Γ.checkReturned_rename ρ expected _ span
  | block body span =>
    have hforM : ∀ rs : List (Option Ty × Span),
        EndsRenamed ρ id (rs.forM fun r => Γ.checkReturned expected r.1 r.2)
          ((rs.map (renameReturn ρ)).forM fun r =>
            (Γ.rename ρ).checkReturned (expected.rename ρ) r.1 r.2) := by
      intro rs
      induction rs with
      | nil => exact .ok rfl
      | cons r rs ih =>
        exact (Γ.checkReturned_rename ρ expected r.1 r.2).bind fun _ _ _ => ih
    have hreturns := returnsAll_rename ρ body
    rw [Stmt.rename, checkBody, checkBody]
    rw [renameStmts_eq_map] at hreturns ⊢
    rw [List.getLast?_map, hreturns]
    cases body.getLast? with
    | none => exact .error rfl
    | some last =>
      simp only [Option.map_some, last.isReturn_rename, last.span_rename]
      split
      · exact hforM _
      · exact .error rfl
  | let_ x type value span => cases value <;> exact .error rfl
  | if_ e s t span => cases t <;> exact .error rfl
  | while_ e s span => exact .error rfl
  | struct x fields span => exact .error rfl

end Context

/-! ### Declarations -/

namespace Checker

variable {c d : Checker}

/-- The context of the second checker is the renamed one of the first. -/
abbrev RenamedTo (c d : Checker) : Prop := d.context = c.context.rename ρ

/-- Both end alike, the second one with the renamed value or halted for the renamed fault. -/
abbrev HaltRenamed {α β : Type} : (α → β → Prop) → Except Halt α → Except Halt β → Prop :=
  Ends (Halt.Rel fun f g => g = f.rename ρ)

theorem declare_rename (h : RenamedTo ρ c d) (x : String) (t : Ty) {f g : TypeFault}
    (hfg : g = f.rename ρ) :
    HaltRenamed ρ (RenamedTo ρ) (c.declare x t f)
      (d.declare (ρ.ofVariable x) (t.rename ρ) g) := by
  rw [declare, declare, h, Context.declare_rename]
  cases c.context.declare x t with
  | none => exact .error (.fault hfg)
  | some Γ => exact .ok rfl

theorem declareParams_rename (h : RenamedTo ρ c d) (params : List TypedName) (ts : List Ty) :
    HaltRenamed ρ (RenamedTo ρ) (c.declareParams params ts)
      (d.declareParams (params.map (TypedName.rename ρ ρ.ofVariable)) (ts.map (Ty.rename ρ))) := by
  induction params generalizing c d ts with
  | nil => exact .ok h
  | cons p ps ih =>
    cases ts with
    | nil => exact .ok h
    | cons t ts =>
      have hdeclare := declare_rename ρ h p.name.name t
        (f := ⟨.parameterDeclared p.name.name, p.span⟩) rfl
      rw [List.map_cons, List.map_cons, declareParams, declareParams]
      generalize c.declare _ _ _ = x, hy : d.declare _ _ _ = y at hdeclare
      have hy' : d.declare (p.rename ρ ρ.ofVariable).name.name (t.rename ρ)
        ⟨.parameterDeclared (p.rename ρ ρ.ofVariable).name.name,
          (p.rename ρ ρ.ofVariable).span⟩ = y := hy
      rw [hy']
      cases hdeclare with
      | ok hcd => exact ih hcd ts
      | error he => exact .error he

/-- A declared type is read and its variable is declared, or the same is wrong with one of them. -/
theorem declareRead_rename (h : RenamedTo ρ c d) (x : Ident) (type : TypeExpr) :
    (∃ f, c.context.readType type = .error f ∧
      d.context.readType (type.rename ρ) = .error (f.rename ρ)) ∨
    ∃ t, c.context.readType type = .ok t ∧ d.context.readType (type.rename ρ) = .ok (t.rename ρ) ∧
      HaltRenamed ρ (RenamedTo ρ) (c.declare x.name t ⟨.variableDeclared x.name, x.span⟩)
        (d.declare (x.rename ρ.ofVariable).name (t.rename ρ)
          ⟨.variableDeclared (x.rename ρ.ofVariable).name, (x.rename ρ.ofVariable).span⟩) := by
  have htype := c.context.readType_rename ρ type
  rw [← h] at htype
  generalize c.context.readType type = y, d.context.readType (type.rename ρ) = y' at htype ⊢
  cases htype with
  | error hf => exact .inl ⟨_, rfl, congrArg _ hf⟩
  | ok htu => exact .inr ⟨_, rfl, congrArg _ htu, declare_rename ρ h x.name _ rfl⟩

theorem declareRecord_rename (h : RenamedTo ρ c d) (x : Ident) (fields : List TypedName) :
    HaltRenamed ρ (RenamedTo ρ) (c.declareRecord x fields)
      (d.declareRecord (x.rename ρ.ofRecord) (fields.map (TypedName.rename ρ ρ.ofField))) := by
  have hfields := c.context.readFields_rename ρ x.name [] fields
  have hname : (x.rename ρ.ofRecord).name = ρ.ofRecord x.name := rfl
  rw [declareRecord, declareRecord, hname, h, Context.findRecord_rename]
  cases c.context.findRecord x.name with
  | some schema => exact .error (.fault rfl)
  | none =>
    dsimp only [Option.map_none]
    rw [List.map_nil] at hfields
    generalize c.context.readFields _ _ fields = y, (c.context.rename ρ).readFields _ _ _ = z
      at hfields
    cases hfields with
    | error he => exact .error (.fault he)
    | @ok types types' hts =>
      subst hts
      dsimp only
      rw [← Ty.rename_ofFields, Context.declareRecord_rename]
      cases c.context.declareRecord x.name (.ofFields types) with
      | some Γ => exact .ok rfl
      | none => exact .ok h

end Checker

/-! ### Stages -/

/-- Two visits that are the same but for names: the second one has the renamed nodes, what it has
found is renamed by `new`, and it has come to the renamed context. -/
abbrev Visit.Renamed {ν α β : Type} (nodes : ν → ν) (new : α → β) : Visit ν α → Visit ν β → Prop :=
  Visit.Related (fun Γ Δ => Δ = Γ.rename ρ) (fun f g => g = f.rename ρ) (fun n n' => n' = nodes n)
    fun a b => b = new a

namespace Visit.Renamed

variable {ρ} {ν μ α α' β β' : Type} {f : ν → ν} {g : μ → μ} {new : α → α'} {new' : β → β'}
  {v : Visit ν α} {w : Visit ν α'}

theorem map {F F' : ν → μ} (h : Renamed ρ f new v w) (hF : ∀ n, F' (f n) = g (F n)) :
    Renamed ρ g new (v.map F) (w.map F') :=
  Related.map h fun n n' hn => by rw [hn, hF]

theorem judge {j : α → Except TypeFault β} {j' : α' → Except TypeFault β'}
    (h : Renamed ρ f new v w) (hj : ∀ a, EndsRenamed ρ new' (j a) (j' (new a))) :
    Renamed ρ f new' (v.judge j) (w.judge j') :=
  Related.judge h fun a _ ha => ha ▸ hj a

theorem judgeIn {j : Context → α → Except TypeFault β} {j' : Context → α' → Except TypeFault β'}
    (h : Renamed ρ f new v w) (hj : ∀ Γ a, EndsRenamed ρ new' (j Γ a) (j' (Γ.rename ρ) (new a))) :
    Renamed ρ f new' (v.judgeIn j) (w.judgeIn j') :=
  Related.judgeIn h fun Γ _ a _ hΓ ha => hΓ ▸ ha ▸ hj Γ a

theorem andThen {others : μ} {next : α → Checker → Visit μ β} {next' : α' → Checker → Visit μ β'}
    (h : Renamed ρ f new v w)
    (hnext : ∀ a c d, Checker.RenamedTo ρ c d → Renamed ρ g new' (next a c) (next' (new a) d)) :
    Renamed ρ (Prod.map f g) new' (v.andThen others next) (w.andThen (g others) next') := by
  have hnext' : ∀ a a' c d, a' = new a → Checker.RenamedTo ρ c d →
      Renamed ρ g new' (next a c) (next' a' d) := by
    rintro a _ c d rfl hcd
    exact hnext a c d hcd
  have hothers : g others = g others := rfl
  have hpair := Related.andThen (M := fun n n' => n' = g n) h hothers hnext'
  exact ⟨Prod.ext hpair.nodes.1 hpair.nodes.2, hpair.result, hpair.context⟩

theorem inScope {c d : Checker} {visit : Checker → Visit ν α} {visit' : Checker → Visit ν α'}
    (h : Renamed ρ f new (visit c.enter) (visit' d.enter)) :
    Renamed ρ f new (Visit.inScope c visit) (Visit.inScope d visit') :=
  Related.inScope h fun Γ _ hΓ => hΓ ▸ (Γ.exit_rename ρ).symm

theorem record {v w : Visit Form Ty} (h : Renamed ρ (Form.rename ρ) (Ty.rename ρ) v w)
    (span : Span) (slot : Option Ty) :
    Renamed ρ (Expr.rename ρ) (Ty.rename ρ) (v.record span slot)
      (w.record span (slot.map (Ty.rename ρ))) := by
  have hslot : Option.Rel (fun t u => u = t.rename ρ) slot (slot.map (Ty.rename ρ)) := by
    cases slot with
    | none => exact .none
    | some t => exact .some rfl
  refine Related.record h hslot fun n n' s s' hn hs => ?_
  subst hn
  cases hs with
  | none => rfl
  | some ht => rw [ht]; rfl

/-- The condition of a statement. -/
theorem condition {v w : Visit Expr Ty} (h : Renamed ρ (Expr.rename ρ) (Ty.rename ρ) v w) (e : Expr)
    (keyword : Keyword) : Renamed ρ (Expr.rename ρ) id
      (v.judge (Context.checkCondition keyword e.span))
      (w.judge (Context.checkCondition keyword (e.rename ρ).span)) := by
  refine h.judge fun t => ?_
  rw [e.span_rename]
  exact Context.endsRenamed_ite ρ (by rw [Context.isBool_rename]) rfl rfl

end Visit.Renamed

/-! ### The walk -/

mutual

/-- The check of a renamed expression is the renamed check. -/
theorem Expr.check_rename : ∀ (e : Expr) {c d : Checker}, Checker.RenamedTo ρ c d →
    Visit.Renamed ρ (Expr.rename ρ) (Ty.rename ρ) (e.check c) ((e.rename ρ).check d)
  | .mk form span slot, _, _, h => (form.check_rename span h).record span slot

theorem Form.check_rename : ∀ (form : Form) (span : Span) {c d : Checker},
    Checker.RenamedTo ρ c d →
      Visit.Renamed ρ (Form.rename ρ) (Ty.rename ρ) (form.check span c)
        ((form.rename ρ).check span d)
  | .literal l, _, _, _, h => by
    have hl : l.ty = l.ty.rename ρ := by cases l <;> exact (Ty.rename_ofName rfl).symm
    exact ⟨rfl, .ok hl, h⟩
  | .variable x, span, c, d, h => by
    have hx := c.context.typeOfVariable_rename ρ x span
    rw [← h] at hx
    exact ⟨rfl, hx.mapError_fault, h⟩
  | .group e, _, _, _, h => (e.check_rename h).map fun _ => rfl
  | .unary op e, span, _, _, h => by
    rw [Form.rename, Form.check, Form.check]
    exact Visit.Renamed.judge (Visit.Renamed.map (e.check_rename h) fun _ => rfl)
      fun t => Context.typeOfUnary_rename ρ op span t
  | .binary l op r, span, _, _, h => by
    rw [Form.rename, Form.check, Form.check]
    exact Visit.Renamed.map (Visit.Renamed.andThen (l.check_rename h) fun t _ _ h =>
      (r.check_rename h).judgeIn fun Γ u => Γ.typeOfBinary_rename ρ op span t u) fun _ => rfl
  | .logical l op r, span, _, _, h => by
    have hoperand : ∀ (e : Expr) t, EndsRenamed ρ id (Context.checkOperand op e.span t)
        (Context.checkOperand op (e.rename ρ).span (t.rename ρ)) := fun e t => by
      rw [e.span_rename]
      exact Context.endsRenamed_ite ρ (by rw [Context.isBool_rename]) rfl rfl
    rw [Form.rename, Form.check, Form.check]
    exact Visit.Renamed.map (Visit.Renamed.andThen ((l.check_rename h).judge (hoperand l))
      fun _ _ _ h => (r.check_rename h).judge fun t =>
        (hoperand r t).map fun _ _ _ => (Ty.rename_bool).symm) fun _ => rfl
  | .function params result body, _, c, d, h => by
    have hparams := c.context.readParams_rename ρ params
    have hresult := c.context.readType_rename ρ result
    rw [← h] at hparams hresult
    rw [Form.rename, Form.check, Form.check]
    generalize c.context.readParams params = x, d.context.readParams (params.map _) = x' at hparams
    generalize c.context.readType result = y, d.context.readType (result.rename ρ) = y' at hresult
    cases hparams with
    | error hf => exact ⟨rfl, .error (.fault hf), h⟩
    | @ok ts us hts =>
      cases hresult with
      | error hf => exact ⟨rfl, .error (.fault hf), h⟩
      | @ok t u htu =>
        subst hts htu
        have henter : Checker.RenamedTo ρ c.enter d.enter := congrArg Context.enter h
        have hdeclare := Checker.declareParams_rename ρ henter params ts
        refine Visit.Renamed.map (Visit.Renamed.inScope ?_) fun _ => rfl
        generalize c.enter.declareParams params _ = z, d.enter.declareParams (params.map _) _ = z'
          at hdeclare ⊢
        cases hdeclare with
        | error he => exact ⟨rfl, .error he, henter⟩
        | ok hcd =>
          have hbody := body.check_rename hcd
          refine hbody.judgeIn fun Γ _ => ?_
          rw [hbody.nodes]
          exact (Γ.checkBody_rename ρ _ _).map fun _ _ _ => (Ty.rename_function ts t).symm
  | .call f args, span, c, d, h => by
    rw [Form.rename, Form.check, Form.check, length_renameArgs, f.span_rename]
    refine Visit.Renamed.map (Visit.Renamed.andThen ((f.check_rename h).judge fun t =>
      Context.signature_rename ρ _ span args.length t) fun sig c d h => ?_) fun _ => rfl
    exact (checkArgs_rename args 1 sig.1 h).judge fun _ => .ok rfl
  | .get e x, _, _, _, h => by
    rw [Form.rename, Form.check, Form.check]
    exact Visit.Renamed.judgeIn (Visit.Renamed.map (e.check_rename h) fun _ => rfl)
      fun Γ t => Γ.typeOfMember_rename ρ t x
  | .record name fields, _, _, _, h =>
    Visit.Renamed.judge (Visit.Renamed.map (checkFields_rename fields [] h) fun _ => rfl)
      fun types => .ok (Ty.rename_ofFields ρ types).symm

theorem checkArgs_rename : ∀ (args : List Expr) (place : Nat) (ts : List Ty) {c d : Checker},
    Checker.RenamedTo ρ c d →
      Visit.Renamed ρ (renameArgs ρ) id (checkArgs place ts args c)
        (checkArgs place (ts.map (Ty.rename ρ)) (renameArgs ρ args) d)
  | [], _, [], _, _, h | [], _, _ :: _, _, _, h | _ :: _, _, [], _, _, h => ⟨rfl, .ok rfl, h⟩
  | e :: es, place, t :: ts, _, _, h => by
    rw [List.map_cons, renameArgs, checkArgs, checkArgs, e.span_rename]
    exact Visit.Renamed.map (Visit.Renamed.andThen ((e.check_rename h).judgeIn fun Γ u =>
      Context.endsRenamed_ite ρ (F := id) (by rw [Context.accepts_rename]) rfl rfl)
        fun _ _ _ h => checkArgs_rename es (place + 1) ts h) fun _ => rfl

theorem checkFields_rename : ∀ (fields : List (Ident × Expr)) (seen : List String)
    {c d : Checker}, Checker.RenamedTo ρ c d →
      Visit.Renamed ρ (renameInitials ρ) (List.map (Ty.renameField ρ)) (checkFields seen fields c)
        (checkFields (seen.map ρ.ofField) (renameInitials ρ fields) d)
  | [], _, _, _, h => ⟨rfl, .ok rfl, h⟩
  | (x, e) :: fs, seen, c, d, h => by
    have hname : (x.rename ρ.ofField).name = ρ.ofField x.name := rfl
    rw [renameInitials, checkFields, checkFields, hname,
      ρ.contains_ofField]
    split
    · exact ⟨rfl, .error (.fault rfl), h⟩
    · refine Visit.Renamed.map (Visit.Renamed.andThen (e.check_rename h) fun t c d h => ?_)
        fun _ => rfl
      exact (checkFields_rename fs (x.name :: seen) h).judge fun _ => .ok rfl

/-- The check of a renamed statement is the renamed check. -/
theorem Stmt.check_rename : ∀ (s : Stmt) {c d : Checker}, Checker.RenamedTo ρ c d →
    Visit.Renamed ρ (Stmt.rename ρ) id (s.check c) ((s.rename ρ).check d)
  | .expr e span, c, d, h => by
    rw [Stmt.rename, Stmt.check, Stmt.check]
    exact Visit.Renamed.judge (Visit.Renamed.map (e.check_rename h) fun _ => rfl)
      fun _ => .ok rfl
  | .let_ x type none span, c, d, h => by
    rw [Stmt.rename, Stmt.check, Stmt.check]
    rcases Checker.declareRead_rename ρ (c := c.note (.statement span.line "let"))
      (d := d.note (.statement span.line "let")) h x type with
      ⟨f, hf, hg⟩ | ⟨t, ht, ht', hdeclare⟩
    · simp only [hf, hg]
      exact ⟨rfl, .error (.fault rfl), h⟩
    · simp only [ht, ht']
      generalize (c.note _).declare _ _ _ = z, (d.note _).declare _ _ _ = z' at hdeclare ⊢
      cases hdeclare with
      | error he => exact ⟨rfl, .error he, h⟩
      | ok hcd => exact ⟨rfl, .ok rfl, hcd⟩
  | .let_ x type (some e) span, c, d, h => by
    rw [Stmt.rename, Stmt.check, Stmt.check]
    rcases Checker.declareRead_rename ρ (c := c.note (.statement span.line "let"))
      (d := d.note (.statement span.line "let")) h x type with
      ⟨f, hf, hg⟩ | ⟨t, ht, ht', hdeclare⟩
    · simp only [hf, hg]
      exact ⟨rfl, .error (.fault rfl), h⟩
    · simp only [ht, ht']
      generalize (c.note _).declare _ _ _ = z, (d.note _).declare _ _ _ = z' at hdeclare ⊢
      cases hdeclare with
      | error he => exact ⟨rfl, .error he, h⟩
      | ok hcd =>
        exact Visit.Renamed.map ((e.check_rename hcd).judgeIn fun Γ u =>
          Context.endsRenamed_ite ρ (F := id) (by rw [Context.accepts_rename]) rfl rfl)
            fun _ => rfl
  | .block body span, c, d, h => by
    have henter : Checker.RenamedTo ρ (c.note (.statement span.line "block")).enter
        (d.note (.statement span.line "block")).enter := congrArg Context.enter h
    rw [Stmt.rename, Stmt.check, Stmt.check]
    exact Visit.Renamed.map (Visit.Renamed.inScope (checkAll_rename body henter)) fun _ => rfl
  | .if_ e s none span, c, d, h => by
    have he := e.check_rename (c := c.note (.statement span.line "if"))
      (d := d.note (.statement span.line "if")) h
    rw [Stmt.rename, Stmt.check, Stmt.check]
    exact Visit.Renamed.map (Visit.Renamed.andThen (Visit.Renamed.condition he e _)
      fun _ _ _ h => s.check_rename h) fun _ => rfl
  | .if_ e s (some t) span, c, d, h => by
    have he := e.check_rename (c := c.note (.statement span.line "if"))
      (d := d.note (.statement span.line "if")) h
    rw [Stmt.rename, Stmt.check, Stmt.check]
    refine Visit.Renamed.map (Visit.Renamed.andThen (g := Prod.map (Stmt.rename ρ) (Stmt.rename ρ))
      (Visit.Renamed.condition he e _) fun _ _ _ h => ?_) fun _ => rfl
    exact (s.check_rename h).andThen fun _ _ _ h => t.check_rename h
  | .while_ e s span, c, d, h => by
    have he := e.check_rename (c := c.note (.statement span.line "while"))
      (d := d.note (.statement span.line "while")) h
    rw [Stmt.rename, Stmt.check, Stmt.check]
    exact Visit.Renamed.map (Visit.Renamed.andThen (Visit.Renamed.condition he e _)
      fun _ _ _ h => s.check_rename h) fun _ => rfl
  | .struct x fields span, c, d, h => by
    have hdeclare := Checker.declareRecord_rename ρ (c := c.note (.statement span.line "struct"))
      (d := d.note (.statement span.line "struct")) h x fields
    rw [Stmt.rename, Stmt.check, Stmt.check]
    generalize (c.note _).declareRecord _ _ = z, (d.note _).declareRecord _ _ = z' at hdeclare ⊢
    cases hdeclare with
    | error he => exact ⟨rfl, .error he, h⟩
    | ok hcd => exact ⟨rfl, .ok rfl, hcd⟩
  | .return_ none span, _, _, h => ⟨rfl, .error (.fault rfl), h⟩
  | .return_ (some e) span, c, d, h => by
    rw [Stmt.rename, Stmt.check, Stmt.check]
    exact Visit.Renamed.judge (Visit.Renamed.map (e.check_rename h) fun _ => rfl)
      fun _ => .ok rfl

theorem checkAll_rename : ∀ (ss : List Stmt) {c d : Checker}, Checker.RenamedTo ρ c d →
    Visit.Renamed ρ (renameStmts ρ) id (checkAll ss c) (checkAll (renameStmts ρ ss) d)
  | [], _, _, h => ⟨rfl, .ok rfl, h⟩
  | s :: ss, _, _, h =>
    Visit.Renamed.map
      (Visit.Renamed.andThen (s.check_rename h) fun _ _ _ h => checkAll_rename ss h)
      fun _ => rfl

end

/-! ### Programs -/

/-- The check does not depend on the spelling of names. A renamed program is accepted if and only if
the program is; otherwise it is refused with the renamed fault, which has the same code and stands
at the same place, or both checks come to a node that was visited before; and the types that are
written on its nodes are the renamed ones. -/
theorem Program.check_ignores_spelling (p : Program) :
    (((p.rename ρ).check .new).result = .ok () ↔ (p.check .new).result = .ok ()) ∧
    (∀ f, (p.check .new).result = .error (.fault f) →
      ((p.rename ρ).check .new).result = .error (.fault (f.rename ρ)) ∧
        (f.rename ρ).code = f.code ∧ (f.rename ρ).span = f.span) ∧
    (((p.rename ρ).check .new).result = .error .revisited ↔
      (p.check .new).result = .error .revisited) ∧
    ((p.rename ρ).check .new).nodes = (p.check .new).nodes.rename ρ := by
  have hbody := checkAll_rename ρ p.body (c := .new) (d := .new) rfl
  have hresult := hbody.result
  have hrenamed : (p.rename ρ).body = renameStmts ρ p.body := rfl
  rw [p.check_result, p.check_nodes, (p.rename ρ).check_result, (p.rename ρ).check_nodes, hrenamed]
  rw [← and_assoc, ← and_assoc]
  refine ⟨?_, congrArg (Program.mk · p.span) hbody.nodes⟩
  generalize (checkAll p.body .new).result = x,
    (checkAll (renameStmts ρ p.body) .new).result = y at hresult ⊢
  cases hresult with
  | ok _ => simp
  | error hhalt =>
    cases hhalt with
    | revisited => simp
    | @fault f g hg =>
      refine ⟨⟨by simp, fun f' hf' => ?_⟩, by simp⟩
      cases hf'
      exact ⟨by rw [hg], f.cause.code_rename ρ, rfl⟩

/-- Exchanges the names `P` and `Q` of records, and `a` and `b` of variables and fields. -/
def Renaming.exchange : Renaming where
  ofVariable := Equiv.swap "a" "b"
  ofRecord := Equiv.swap "P" "Q"
  ofField := Equiv.swap "a" "b"
  injective_ofVariable := (Equiv.swap _ _).injective
  injective_ofRecord := (Equiv.swap _ _).injective
  injective_ofField := (Equiv.swap _ _).injective
  ofRecord_builtin name h := by
    refine Equiv.swap_apply_of_ne_of_ne ?_ ?_
    · rintro rfl; cases h
    · rintro rfl; cases h

/-- The fields change places in the order of names. -/
example : (Ty.record [("a", .int), ("b", .named "P" true)]).rename .exchange =
    .record [("a", .named "Q" true), ("b", .int)] := rfl

/-- A record `P` with the fields `a` and `b`, a variable `a` of this type, and one of its fields. -/
def Program.pair : Program :=
  let a : Ident := ⟨"a", default⟩
  let b : Ident := ⟨"b", default⟩
  let P : Ident := ⟨"P", default⟩
  let int : TypeExpr := .named "int" false default
  ⟨[.struct P [⟨a, int, default⟩, ⟨b, .named "bool" false default, default⟩] default,
    .let_ a (.named "P" false default) (some (.new (.record P
      [(b, .new (.literal (.bool true)) default), (a, .new (.literal (.int 1)) default)]) default))
      default,
    .let_ b int (some (.new (.get (.new (.variable "a") default) a) default)) default], default⟩

/-- A use of `a`, which is not declared. -/
def Program.stray : Program :=
  ⟨[.expr (.new (.variable "a") ⟨⟨1, 1⟩, ⟨1, 1⟩⟩) ⟨⟨1, 1⟩, ⟨1, 2⟩⟩], ⟨⟨1, 1⟩, ⟨1, 2⟩⟩⟩

theorem Program.pair_exchanged :
    (Program.pair.check .new).result = .ok () ∧
      ((Program.pair.rename .exchange).check .new).result = .ok () ∧
      ((Program.pair.rename .exchange).check .new).nodes =
        (Program.pair.check .new).nodes.rename .exchange ∧
      ∃ f, (Program.stray.check .new).result = .error (.fault f) ∧
        ((Program.stray.rename .exchange).check .new).result =
          .error (.fault (f.rename .exchange)) := by
  have haccepted : (Program.pair.check .new).result = .ok () := rfl
  have hrefused : (Program.stray.check .new).result =
      .error (.fault ⟨.undefinedVariable "a", ⟨⟨1, 1⟩, ⟨1, 1⟩⟩⟩) := rfl
  obtain ⟨hok, -, -, hnodes⟩ := Program.check_ignores_spelling .exchange .pair
  obtain ⟨-, hfault, -, -⟩ := Program.check_ignores_spelling .exchange .stray
  exact ⟨haccepted, hok.mpr haccepted, hnodes, _, hrefused, (hfault _ hrefused).1⟩

end RecordLang
