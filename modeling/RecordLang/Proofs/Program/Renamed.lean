import RecordLang.Program.Tree
import RecordLang.Proofs.Ty.Renamed

/-!
# Renamed programs

`rename` gives new names to all variables, records and fields of a tree, where they are declared,
where they are used and in the types that are written on the nodes. It changes neither the form nor
the places of the nodes.
-/

namespace RecordLang

variable (ρ : Renaming)

def Ident.rename (new : String → String) (x : Ident) : Ident := ⟨new x.name, x.span⟩

mutual

def TypeExpr.rename : TypeExpr → TypeExpr
  | .named name optional span => .named (ρ.ofRecord name) optional span
  | .function params result span => .function (renameTypes params) result.rename span

def renameTypes : List TypeExpr → List TypeExpr
  | [] => []
  | t :: ts => t.rename :: renameTypes ts

end

/-- Parameters are variables, and what a record declares are fields. -/
def TypedName.rename (new : String → String) (x : TypedName) : TypedName :=
  ⟨x.name.rename new, x.type.rename ρ, x.span⟩

mutual

def Expr.rename : Expr → Expr
  | .mk form span type => .mk form.rename span (type.map (Ty.rename ρ))

def Form.rename : Form → Form
  | .literal l => .literal l
  | .variable x => .variable (ρ.ofVariable x)
  | .group e => .group e.rename
  | .unary op e => .unary op e.rename
  | .binary l op r => .binary l.rename op r.rename
  | .logical l op r => .logical l.rename op r.rename
  | .function params result body =>
    .function (params.map (TypedName.rename ρ ρ.ofVariable)) (result.rename ρ) body.rename
  | .call f args => .call f.rename (renameArgs args)
  | .get e x => .get e.rename (x.rename ρ.ofField)
  | .record name fields => .record (name.rename ρ.ofRecord) (renameInitials fields)

def renameArgs : List Expr → List Expr
  | [] => []
  | e :: es => e.rename :: renameArgs es

def renameInitials : List (Ident × Expr) → List (Ident × Expr)
  | [] => []
  | (x, e) :: fs => (x.rename ρ.ofField, e.rename) :: renameInitials fs

def Stmt.rename : Stmt → Stmt
  | .expr e span => .expr e.rename span
  | .let_ x type none span => .let_ (x.rename ρ.ofVariable) (type.rename ρ) none span
  | .let_ x type (some e) span =>
    .let_ (x.rename ρ.ofVariable) (type.rename ρ) (some e.rename) span
  | .block body span => .block (renameStmts body) span
  | .if_ e s none span => .if_ e.rename s.rename none span
  | .if_ e s (some t) span => .if_ e.rename s.rename (some t.rename) span
  | .while_ e s span => .while_ e.rename s.rename span
  | .struct x fields span =>
    .struct (x.rename ρ.ofRecord) (fields.map (TypedName.rename ρ ρ.ofField)) span
  | .return_ none span => .return_ none span
  | .return_ (some e) span => .return_ (some e.rename) span

def renameStmts : List Stmt → List Stmt
  | [] => []
  | s :: ss => s.rename :: renameStmts ss

end

def Program.rename (p : Program) : Program := { p with body := renameStmts ρ p.body }

/-! ### What names do not matter for -/

theorem length_renameArgs (es : List Expr) : (renameArgs ρ es).length = es.length := by
  induction es with
  | nil => rfl
  | cons e es ih => exact congrArg Nat.succ ih

theorem renameStmts_eq_map (ss : List Stmt) : renameStmts ρ ss = ss.map (Stmt.rename ρ) := by
  induction ss with
  | nil => rfl
  | cons s ss ih => rw [renameStmts, ih, List.map_cons]

theorem Expr.span_rename (e : Expr) : (e.rename ρ).span = e.span := by
  cases e
  rfl

theorem Expr.type_rename (e : Expr) : (e.rename ρ).type = e.type.map (Ty.rename ρ) := by
  cases e
  rfl

theorem Stmt.span_rename (s : Stmt) : (s.rename ρ).span = s.span := by
  fun_cases Stmt.rename ρ s <;> rfl

mutual

/-- The type that is written with the new names. -/
theorem TypeExpr.ty_rename : ∀ t : TypeExpr, (t.rename ρ).ty = t.ty.rename ρ
  | .named .. => rfl
  | .function params result _ => by
    rw [TypeExpr.rename, TypeExpr.ty, TypeExpr.ty, tys_renameTypes params, result.ty_rename,
      Ty.rename_function]

theorem tys_renameTypes : ∀ ts : List TypeExpr,
    TypeExpr.tys (renameTypes ρ ts) = (TypeExpr.tys ts).map (Ty.rename ρ)
  | [] => rfl
  | t :: ts => by
    rw [renameTypes, TypeExpr.tys, TypeExpr.tys, t.ty_rename, tys_renameTypes ts, List.map_cons]

end

end RecordLang
