import RecordLang.Proofs.Typing.Scope

/-!
# Trees without types

`bare` empties the slots of a tree; a tree is bare if that changes nothing. A check writes slots and
changes nothing else: the nodes it leaves are, without their types, those it was given, however it
ends (`Expr.check_bare`, `Stmt.check_bare`).
-/

namespace RecordLang

mutual

/-- The expression with all slots empty. -/
def Expr.bare : Expr → Expr
  | .mk form span _ => .mk form.bare span none

def Form.bare : Form → Form
  | .literal l => .literal l
  | .variable x => .variable x
  | .group e => .group e.bare
  | .unary op e => .unary op e.bare
  | .binary l op r => .binary l.bare op r.bare
  | .logical l op r => .logical l.bare op r.bare
  | .function params result body => .function params result body.bare
  | .call f args => .call f.bare (bareArgs args)
  | .get e x => .get e.bare x
  | .record name fields => .record name (bareFields fields)

def bareArgs : List Expr → List Expr
  | [] => []
  | e :: es => e.bare :: bareArgs es

def bareFields : List (Ident × Expr) → List (Ident × Expr)
  | [] => []
  | (x, e) :: fs => (x, e.bare) :: bareFields fs

/-- The statement with all slots empty. -/
def Stmt.bare : Stmt → Stmt
  | .expr e span => .expr e.bare span
  | .let_ x type none span => .let_ x type none span
  | .let_ x type (some e) span => .let_ x type (some e.bare) span
  | .block body span => .block (bareAll body) span
  | .if_ e s none span => .if_ e.bare s.bare none span
  | .if_ e s (some t) span => .if_ e.bare s.bare (some t.bare) span
  | .while_ e s span => .while_ e.bare s.bare span
  | .struct x fields span => .struct x fields span
  | .return_ none span => .return_ none span
  | .return_ (some e) span => .return_ (some e.bare) span

def bareAll : List Stmt → List Stmt
  | [] => []
  | s :: ss => s.bare :: bareAll ss

end

/-- The program with all slots empty. -/
def Program.bare (p : Program) : Program := { p with body := bareAll p.body }

theorem bareAll_eq_map (ss : List Stmt) : bareAll ss = ss.map Stmt.bare := by
  induction ss with
  | nil => rfl
  | cons s ss ih => simp [bareAll, ih]

/-! ### What does not depend on the slots -/

theorem Stmt.declarations_bare : ∀ s : Stmt, s.bare.declarations = s.declarations
  | .expr .. | .let_ _ _ none _ | .let_ _ _ (some _) _ | .block .. | .struct .. => rfl
  | .return_ none _ | .return_ (some _) _ => rfl
  | .if_ e s none span => s.declarations_bare
  | .if_ e s (some t) span => by
    rw [Stmt.bare, declarations, s.declarations_bare, t.declarations_bare, declarations]
  | .while_ e s span => s.declarations_bare

theorem Stmt.isReturn_bare (s : Stmt) : s.bare.isReturn = s.isReturn := by
  fun_cases Stmt.bare s <;> rfl

/-! ### Visits that keep their nodes -/

namespace Visit

variable {ν μ α β : Type} {v : Visit ν α} {others : μ} {next : α → Checker → Visit μ β}

/-- What holds of the nodes if the second visit is not made, and if it is, holds of them. -/
theorem andThen_nodes {P : ν × μ → Prop} (error : P (v.nodes, others))
    (ok : ∀ a c, P (v.nodes, (next a c).nodes)) : P (v.andThen others next).nodes := by
  cases h : v.result with
  | error e => rw [andThen_of_error h]; exact error
  | ok a => rw [andThen_of_ok h]; exact ok a _

theorem record_nodes (v : Visit Form Ty) (span : Span) (slot : Option Ty) :
    ∃ slot', (v.record span slot).nodes = .mk v.nodes span slot' := by
  unfold record
  split
  exacts [⟨_, rfl⟩, ⟨_, rfl⟩, ⟨_, rfl⟩]

end Visit

mutual

/-- The check of an expression only writes slots. -/
theorem Expr.check_bare : ∀ (e : Expr) (c : Checker), (e.check c).nodes.bare = e.bare
  | .mk form span slot, c => by
    obtain ⟨slot', hs⟩ := (form.check span c).record_nodes span slot
    rw [Expr.check, hs, Expr.bare, form.check_bare, Expr.bare]

theorem Form.check_bare : ∀ (form : Form) (span : Span) (c : Checker),
    (form.check span c).nodes.bare = form.bare
  | .literal l, span, c => rfl
  | .variable x, span, c => rfl
  | .group e, span, c => by
    rw [Form.check, Visit.map_nodes, Form.bare, e.check_bare, Form.bare]
  | .unary op e, span, c => by
    rw [Form.check, Visit.judge_nodes, Visit.map_nodes, Form.bare, e.check_bare, Form.bare]
  | .binary l op r, span, c => by
    rw [Form.check, Visit.map_nodes]
    refine Visit.andThen_nodes (P := fun n => (Form.binary n.1 op n.2).bare = _) ?_ fun _ c' => ?_
    · rw [Form.bare, l.check_bare]; rfl
    · rw [Form.bare, l.check_bare, Visit.judgeIn_nodes, r.check_bare]; rfl
  | .logical l op r, span, c => by
    rw [Form.check, Visit.map_nodes]
    refine Visit.andThen_nodes (P := fun n => (Form.logical n.1 op n.2).bare = _) ?_ fun _ c' => ?_
    · rw [Form.bare, Visit.judge_nodes, l.check_bare]; rfl
    · rw [Form.bare, Visit.judge_nodes, l.check_bare, Visit.judge_nodes, r.check_bare]; rfl
  | .function params result body, span, c => by
    rw [Form.check]
    split
    · rfl
    · rfl
    · rw [Visit.map_nodes, Visit.inScope_nodes, Form.bare]
      split
      · rfl
      · rw [Visit.judgeIn_nodes, body.check_bare, Form.bare]
  | .call f args, span, c => by
    rw [Form.check, Visit.map_nodes]
    refine Visit.andThen_nodes (P := fun n => (Form.call n.1 n.2).bare = _) ?_ fun sig c' => ?_
    · rw [Form.bare, Visit.judge_nodes, f.check_bare]; rfl
    · rw [Form.bare, Visit.judge_nodes, f.check_bare, Visit.judge_nodes, checkArgs_bare]; rfl
  | .get e x, span, c => by
    rw [Form.check, Visit.judgeIn_nodes, Visit.map_nodes, Form.bare, e.check_bare, Form.bare]
  | .record name fields, span, c => by
    rw [Form.check, Visit.judge_nodes, Visit.map_nodes, Form.bare, checkFields_bare, Form.bare]

theorem checkArgs_bare : ∀ (args : List Expr) (place : Nat) (ts : List Ty) (c : Checker),
    bareArgs (checkArgs place ts args c).nodes = bareArgs args
  | [], place, ts, c => by cases ts <;> rfl
  | e :: es, place, [], c => rfl
  | e :: es, place, t :: ts, c => by
    rw [checkArgs, Visit.map_nodes]
    refine Visit.andThen_nodes (P := fun n => bareArgs (n.1 :: n.2) = _) ?_ fun _ c' => ?_
    · rw [bareArgs, Visit.judgeIn_nodes, e.check_bare]; rfl
    · rw [bareArgs, Visit.judgeIn_nodes, e.check_bare, checkArgs_bare]; rfl

theorem checkFields_bare : ∀ (fields : List (Ident × Expr)) (seen : List String) (c : Checker),
    bareFields (checkFields seen fields c).nodes = bareFields fields
  | [], seen, c => rfl
  | (x, e) :: fs, seen, c => by
    rw [checkFields]
    split
    · rfl
    · rw [Visit.map_nodes]
      refine Visit.andThen_nodes (P := fun n => bareFields ((x, n.1) :: n.2) = _) ?_ fun _ c' => ?_
      · rw [bareFields, e.check_bare]; rfl
      · rw [bareFields, e.check_bare, Visit.judge_nodes, checkFields_bare]; rfl

/-- The check of a statement only writes slots. -/
theorem Stmt.check_bare : ∀ (s : Stmt) (c : Checker), (s.check c).nodes.bare = s.bare
  | .expr e span, c => by
    rw [Stmt.check, Visit.judge_nodes, Visit.map_nodes, Stmt.bare, e.check_bare, Stmt.bare]
  | .let_ x type none span, c => by
    by_cases h : c.context.Allows (.variable x.name type.ty)
    · rw [Stmt.check_let_none h]; rfl
    · obtain ⟨f, hf⟩ := Stmt.check_let_of_refused h none span
      rw [hf]; rfl
  | .let_ x type (some e) span, c => by
    by_cases h : c.context.Allows (.variable x.name type.ty)
    · rw [Stmt.check_let_some h, Visit.map_nodes, Visit.judgeIn_nodes, Stmt.bare, e.check_bare,
        Stmt.bare]
    · obtain ⟨f, hf⟩ := Stmt.check_let_of_refused h (some e) span
      rw [hf]; rfl
  | .block body span, c => by
    rw [Stmt.check, Visit.map_nodes, Visit.inScope_nodes, Stmt.bare, checkAll_bare, Stmt.bare]
  | .if_ e s none span, c => by
    rw [Stmt.check, Visit.map_nodes]
    refine Visit.andThen_nodes (P := fun n => (Stmt.if_ n.1 n.2 none span).bare = _) ?_ fun _ c' => ?_
    · rw [Stmt.bare, Visit.judge_nodes, e.check_bare]; rfl
    · rw [Stmt.bare, Visit.judge_nodes, e.check_bare, s.check_bare]; rfl
  | .if_ e s (some t) span, c => by
    rw [Stmt.check, Visit.map_nodes]
    refine Visit.andThen_nodes
      (P := fun (n : Expr × Stmt × Stmt) => (Stmt.if_ n.1 n.2.1 (some n.2.2) span).bare = _) ?_
      fun _ c' => ?_
    · rw [Stmt.bare, Visit.judge_nodes, e.check_bare]; rfl
    · rw [Stmt.bare, Visit.judge_nodes, e.check_bare]
      refine Visit.andThen_nodes
        (P := fun (n : Stmt × Stmt) => Stmt.if_ e.bare n.1.bare (some n.2.bare) span = _) ?_
        fun _ c'' => ?_
      · rw [s.check_bare]; rfl
      · rw [s.check_bare, t.check_bare]; rfl
  | .while_ e s span, c => by
    rw [Stmt.check, Visit.map_nodes]
    refine Visit.andThen_nodes (P := fun n => (Stmt.while_ n.1 n.2 span).bare = _) ?_ fun _ c' => ?_
    · rw [Stmt.bare, Visit.judge_nodes, e.check_bare]; rfl
    · rw [Stmt.bare, Visit.judge_nodes, e.check_bare, s.check_bare]; rfl
  | .struct x fields span, c => by
    rw [Stmt.check]
    split <;> rfl
  | .return_ none span, c => rfl
  | .return_ (some e) span, c => by
    rw [Stmt.check, Visit.judge_nodes, Visit.map_nodes, Stmt.bare, e.check_bare, Stmt.bare]

theorem checkAll_bare : ∀ (ss : List Stmt) (c : Checker), bareAll (checkAll ss c).nodes = bareAll ss
  | [], c => rfl
  | s :: ss, c => by
    rw [checkAll, Visit.map_nodes]
    refine Visit.andThen_nodes (P := fun n => bareAll (n.1 :: n.2) = _) ?_ fun _ c' => ?_
    · rw [bareAll, s.check_bare]; rfl
    · rw [bareAll, s.check_bare, checkAll_bare]; rfl

end

theorem Stmt.check_declarations (s : Stmt) (c : Checker) :
    (s.check c).nodes.declarations = s.declarations := by
  rw [← Stmt.declarations_bare, s.check_bare, Stmt.declarations_bare]

end RecordLang
