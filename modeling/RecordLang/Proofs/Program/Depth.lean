import RecordLang.Proofs.Program.Complete
import RecordLang.Proofs.Program.Levels

/-!
# How deep a tree can be

`depth` counts the statements, groups, operators, calls and member accesses on the longest path from
the root of a tree. The limit on nesting bounds the levels of a tree, and so its depth, but not by the
limit itself: the operators of a chain are on the path to its first operand, which does not take their
levels. With `m` levels an expression gets as deep as `deepest m`.
-/

namespace RecordLang

mutual

def Expr.depth : Expr → Nat
  | .mk form _ _ => form.depth

def Form.depth : Form → Nat
  | .literal _ | .variable _ => 0
  | .group e | .unary _ e | .get e _ => e.depth + 1
  | .binary l _ r | .logical l _ r => max l.depth r.depth + 1
  | .function _ _ body => body.depth
  | .call f args => max f.depth (depthArgs args) + 1
  | .record _ fields => depthFields fields

def depthArgs : List Expr → Nat
  | [] => 0
  | e :: es => max e.depth (depthArgs es)

def depthFields : List (Ident × Expr) → Nat
  | [] => 0
  | (_, e) :: fs => max e.depth (depthFields fs)

def Stmt.depth : Stmt → Nat
  | .expr e _ | .let_ _ _ (some e) _ | .return_ (some e) _ => e.depth + 1
  | .let_ _ _ none _ | .struct .. | .return_ none _ => 1
  | .block body _ => depthAll body + 1
  | .if_ e s none _ | .while_ e s _ => max e.depth s.depth + 1
  | .if_ e s (some t) _ => max e.depth (max s.depth t.depth) + 1

def depthAll : List Stmt → Nat
  | [] => 0
  | s :: ss => max s.depth (depthAll ss)

end

mutual

theorem Expr.depth_unplaced : ∀ e : Expr, e.unplaced.depth = e.depth
  | .mk form _ _ => form.depth_unplaced

theorem Form.depth_unplaced : ∀ f : Form, f.unplaced.depth = f.depth
  | .literal _ | .variable _ => rfl
  | .group e | .unary _ e | .get e _ => congrArg (· + 1) e.depth_unplaced
  | .binary l _ r | .logical l _ r => by
    simp only [Form.unplaced, Form.depth, l.depth_unplaced, r.depth_unplaced]
  | .function _ _ body => body.depth_unplaced
  | .call f args => by
    simp only [Form.unplaced, Form.depth, f.depth_unplaced, depthArgs_unplaced args]
  | .record _ fields => depthFields_unplaced fields

theorem depthArgs_unplaced : ∀ es : List Expr, depthArgs (unplacedArgs es) = depthArgs es
  | [] => rfl
  | e :: es => by simp only [unplacedArgs, depthArgs, e.depth_unplaced, depthArgs_unplaced es]

theorem depthFields_unplaced : ∀ fs : List (Ident × Expr),
    depthFields (unplacedFields fs) = depthFields fs
  | [] => rfl
  | (_, e) :: fs => by
    simp only [unplacedFields, depthFields, e.depth_unplaced, depthFields_unplaced fs]

theorem Stmt.depth_unplaced : ∀ s : Stmt, s.unplaced.depth = s.depth
  | .expr e _ | .let_ _ _ (some e) _ | .return_ (some e) _ => congrArg (· + 1) e.depth_unplaced
  | .let_ _ _ none _ | .struct .. | .return_ none _ => rfl
  | .block body _ => congrArg (· + 1) (depthAll_unplaced body)
  | .if_ e s none _ | .while_ e s _ => by
    simp only [Stmt.unplaced, Stmt.depth, e.depth_unplaced, s.depth_unplaced]
  | .if_ e s (some t) _ => by
    simp only [Stmt.unplaced, Stmt.depth, e.depth_unplaced, s.depth_unplaced, t.depth_unplaced]

theorem depthAll_unplaced : ∀ ss : List Stmt, depthAll (unplacedAll ss) = depthAll ss
  | [] => rfl
  | s :: ss => by simp only [unplacedAll, depthAll, s.depth_unplaced, depthAll_unplaced ss]

end

def Program.levels (p : Program) : Nat := levelsAll p.body

def Program.depth (p : Program) : Nat := depthAll p.body

/-! ### Bounds -/

namespace Depth

/-- The greatest depth of an expression that takes so many levels, its own included. -/
def expression : Nat → Nat
  | 0 => 0
  | m + 1 => (if m = 0 then 0 else expression m + 1) + 7 * m

/-- The greatest depth of an atom: a group can be inside only if there is a level for it. -/
def atom (m : Nat) : Nat := if m = 0 then 0 else expression m + 1

/-- The greatest depth of an operand of the operators of a level: each level below and the calls and
member accesses make the way to the first atom longer by as much as there are levels. -/
def operand (l m : Nat) : Nat := atom m + (l + 1) * m

/-- The greatest depth of what is inside a statement: expressions, or only statements. -/
def inside (m : Nat) : Nat := max m (expression m)

def statement : Nat → Nat
  | 0 => 0
  | m + 1 => inside m + 1

theorem expression_succ (m : Nat) : expression (m + 1) = operand Operator.levels m := rfl

theorem expression_le_succ (m : Nat) : expression m ≤ expression (m + 1) := by
  rw [expression]
  split
  · next h => rw [h]; exact Nat.le_refl _
  · omega

theorem expression_mono {m m' : Nat} (h : m ≤ m') : expression m ≤ expression m' := by
  induction h with
  | refl => exact Nat.le_refl _
  | step _ ih => exact Nat.le_trans ih (expression_le_succ _)

theorem expression_le_atom (m : Nat) : expression m ≤ atom m := by
  unfold atom
  split
  · next h => rw [h]; exact Nat.le_refl _
  · omega

theorem atom_mono {m m' : Nat} (h : m ≤ m') : atom m ≤ atom m' := by
  have he := expression_mono h
  unfold atom
  split <;> split <;> omega

theorem operand_mono {l m m' : Nat} (h : m ≤ m') : operand l m ≤ operand l m' :=
  Nat.add_le_add (atom_mono h) (Nat.mul_le_mul_left _ h)

theorem operand_succ (l m : Nat) : operand (l + 1) m = operand l m + m := by
  rw [operand, operand, Nat.succ_mul, Nat.add_assoc]

theorem inside_mono {m m' : Nat} (h : m ≤ m') : inside m ≤ inside m' := by
  have he := expression_mono h
  unfold inside
  omega

theorem expression_le_inside {m m' : Nat} (h : m ≤ m') : expression m ≤ inside m' :=
  Nat.le_trans (expression_mono h) (Nat.le_max_right _ _)

theorem statement_le_inside {m m' : Nat} (h : m ≤ m') : statement m ≤ inside m' := by
  refine Nat.le_trans ?_ (inside_mono h)
  cases m with
  | zero => exact Nat.zero_le _
  | succ m =>
    rw [statement, inside, inside, expression]
    split
    · next h => rw [h]; exact Nat.le_refl _
    · omega

theorem statement_mono {m m' : Nat} (h : m ≤ m') : statement m ≤ statement m' := by
  cases h with
  | refl => exact Nat.le_refl _
  | step h => exact Nat.le_succ_of_le (statement_le_inside h)

theorem statement_maxNesting : statement GrammarCause.maxNesting = 13734 := by decide +kernel

end Depth

/-! ### Depth of what is read -/

def Item.depth : (i : Item) → i.Tree → Nat
  | .type, _ | .typedName, _ => 0
  | .field, f => f.2.depth
  | .expression, e => e.depth

def Item.depthOf (i : Item) : List i.Tree → Nat
  | [] => 0
  | a :: as => max (i.depth a) (i.depthOf as)

theorem depthArgs_eq (es : List Expr) : depthArgs es = Item.expression.depthOf es := by
  induction es with
  | nil => rfl
  | cons e es ih => rw [depthArgs, ih]; rfl

theorem depthFields_eq (fs : List (Ident × Expr)) : depthFields fs = Item.field.depthOf fs := by
  induction fs with
  | nil => rfl
  | cons f fs ih => rw [depthFields, ih]; rfl

theorem Operator.depth_form (op : Operator) (left right : Expr) (span : Span) :
    (Expr.new (op.form left right) span).depth = max left.depth right.depth + 1 := by
  cases op <;> rfl

/-- The depth of what is read with so many levels. Each operator of a chain may add one to a bound
that holds for the first operand and for all operands inside. -/
def Part.DepthWithin (m : Nat) : (s : Part) → s.Tree → Prop
  | .item i, a => i.depth a ≤ Depth.expression m
  | .items i _, as => i.depthOf as ≤ Depth.expression m
  | .statement, s => s.depth ≤ Depth.statement m
  | .statements _, ss => depthAll ss ≤ Depth.statement m
  | .operand l, e => e.depth ≤ Depth.operand l m
  | .unary, e => e.depth ≤ Depth.operand 0 m
  | .primary, e => e.depth ≤ Depth.atom m
  | .chain l left, e => ∀ b, left.depth ≤ b → Depth.operand l (m - 1) ≤ b → e.depth ≤ b + m
  | .suffixes first, e => ∀ b, first.depth ≤ b → Depth.expression (m - 1) ≤ b → e.depth ≤ b + m

theorem Reads.depth_le {s : Part} {m : Nat} {ks ks' : List Kind} {a : s.Tree}
    (h : Reads s m ks a ks') : s.DepthWithin m a := by
  induction h with
  | itemsNil => exact Nat.zero_le _
  | itemsLast _ ih => exact Nat.max_le.mpr ⟨ih, Nat.zero_le _⟩
  | itemsNext _ _ ih ih' =>
    refine Nat.max_le.mpr ⟨Nat.le_trans ih ?_, Nat.le_trans ih' ?_⟩
    · exact Depth.expression_mono (Nat.le_max_left _ _)
    · exact Depth.expression_mono (Nat.le_max_right _ _)
  | named | null | functionType | typedName => exact Nat.zero_le _
  | field _ ih | expression _ ih | operandZero _ ih => exact ih
  | @operandSucc l m m' _ _ _ _ _ _ _ ih ih' =>
    have hfirst := Nat.le_trans ih (Depth.operand_mono (Nat.le_max_left m m'))
    have hrest : Depth.operand l (m' - 1) ≤ Depth.operand l (max m m') :=
      Depth.operand_mono (by omega)
    have h := ih' _ hfirst hrest
    simp only [Part.DepthWithin, Depth.operand_succ]
    omega
  | chainNil => exact fun b hleft _ => hleft
  | @chainCons l m m' _ op _ _ _ left right _ span _ _ _ ih ih' =>
    intro b hleft hb
    have hright := Nat.le_trans ih (Nat.le_trans (Depth.operand_mono (Nat.le_max_left m m')) hb)
    have hrest : Depth.operand l (m' - 1) ≤ b + 1 :=
      Nat.le_trans (Depth.operand_mono (by omega)) (Nat.le_succ_of_le hb)
    -- the new node is one deeper than its operands, so the rest of the chain starts from `b + 1`
    have hnode : (Expr.new (op.form left right) span).depth ≤ b + 1 := by
      rw [Operator.depth_form]
      omega
    have h := ih' (b + 1) hnode hrest
    omega
  | @unaryOp m _ _ _ _ _ _ _ _ ih =>
    have hatom : Depth.atom m ≤ Depth.atom (m + 1) := Depth.atom_mono (Nat.le_succ m)
    simp only [Part.DepthWithin, Depth.operand] at ih ⊢
    simp only [Expr.new, Expr.depth, Form.depth]
    omega
  | @function m _ _ _ _ _ _ _ _ _ _ _ _ _ ih =>
    have hs := Depth.statement_le_inside (Nat.le_refl m)
    have ha := Depth.expression_le_atom m
    simp only [Part.DepthWithin, Depth.operand, Depth.inside] at hs ih ⊢
    simp only [Expr.new, Expr.depth, Form.depth]
    omega
  | @suffixed m m' _ _ _ _ _ _ _ ih ih' =>
    have hfirst := Nat.le_trans ih (Depth.atom_mono (Nat.le_max_left m m'))
    have hrest : Depth.expression (m' - 1) ≤ Depth.atom (max m m') :=
      Nat.le_trans (Depth.expression_mono (by omega)) (Depth.expression_le_atom _)
    have h := ih' _ hfirst hrest
    simp only [Part.DepthWithin, Depth.operand]
    omega
  | literal | variable_ => exact Nat.zero_le _
  | group inner ih =>
    -- what is in a group takes a level of its own, so there is one for the group
    have hm := inner.levels_eq
    simp only [Part.Levels, Part.DepthWithin, Item.levels, Item.depth] at hm ih ⊢
    rw [Depth.atom, if_neg (by omega)]
    exact Nat.succ_le_succ ih
  | record _ _ ih =>
    refine Nat.le_trans ?_ (Depth.expression_le_atom _)
    exact Nat.le_trans (Nat.le_of_eq (depthFields_eq _)) ih
  | suffixesNil => exact fun b hfirst _ => hfirst
  | @get m _ _ _ _ _ _ _ ih =>
    intro b hfirst hb
    have hrest : Depth.expression (m - 1) ≤ b + 1 :=
      Nat.le_trans (Depth.expression_mono (by omega)) (Nat.le_succ_of_le hb)
    have h := ih (b + 1) (Nat.succ_le_succ hfirst) hrest
    omega
  | @call m m' _ _ _ e _ args span _ _ ih ih' =>
    intro b hfirst hb
    have hargs := Nat.le_trans ih (Nat.le_trans (Depth.expression_mono (Nat.le_max_left m m')) hb)
    have hrest : Depth.expression (m' - 1) ≤ b + 1 :=
      Nat.le_trans (Depth.expression_mono (by omega)) (Nat.le_succ_of_le hb)
    have hnode : (Expr.new (.call e args) span).depth ≤ b + 1 := by
      simp only [Expr.new, Expr.depth, Form.depth, depthArgs_eq]
      omega
    have h := ih' (b + 1) hnode hrest
    omega
  | expr _ ih | returnSome _ ih =>
    exact Nat.succ_le_succ (Nat.le_trans ih (Depth.expression_le_inside (Nat.le_refl _)))
  | initialized _ _ _ ih =>
    exact Nat.succ_le_succ (Nat.le_trans ih (Depth.expression_le_inside (Nat.le_refl _)))
  | declared | struct | returnNone => exact Nat.le_refl 1
  | statementsNil => exact Nat.zero_le _
  | block _ ih =>
    exact Nat.succ_le_succ (Nat.le_trans ih (Depth.statement_le_inside (Nat.le_refl _)))
  | if_ _ _ _ ih ih' | while_ _ _ ih ih' =>
    refine Nat.succ_le_succ (Nat.max_le.mpr ⟨Nat.le_trans ih ?_, Nat.le_trans ih' ?_⟩)
    · exact Depth.expression_le_inside (Nat.le_max_left _ _)
    · exact Depth.statement_le_inside (Nat.le_max_right _ _)
  | ifElse _ _ _ ih ih' ih'' =>
    refine Nat.succ_le_succ (Nat.max_le.mpr ⟨Nat.le_trans ih ?_, Nat.max_le.mpr
      ⟨Nat.le_trans ih' ?_, Nat.le_trans ih'' ?_⟩⟩)
    · exact Depth.expression_le_inside (by omega)
    · exact Depth.statement_le_inside (by omega)
    · exact Depth.statement_le_inside (by omega)
  | statementsCons _ _ ih ih' =>
    refine Nat.max_le.mpr ⟨Nat.le_trans ih ?_, Nat.le_trans ih' ?_⟩
    · exact Depth.statement_mono (Nat.le_max_left _ _)
    · exact Depth.statement_mono (Nat.le_max_right _ _)

end RecordLang
