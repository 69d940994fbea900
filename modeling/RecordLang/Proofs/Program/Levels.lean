import RecordLang.Proofs.Program.Precedence

/-!
# The levels that a tree takes

`levels` counts on a tree what reading it takes. An operand is read inside the operators before it in
its chain, but the first operand of a chain is read before all of them, and so is the first expression
of a chain of calls and member accesses. So a chain adds its operators to its right operands only
(`Expr.spine`, `Expr.tail`). The levels of a tree are those that the grammar reads it with
(`Reads.levels_eq`).
-/

namespace RecordLang

mutual

/-- How many operators of a level are at the top, one the left operand of the other. -/
def Expr.spine (l : Nat) : Expr → Nat
  | .mk form _ _ => form.spine l

def Form.spine (l : Nat) : Form → Nat
  | .binary left op _ => if (Operator.binary op).level = l then left.spine l + 1 else 0
  | .logical left op _ => if (Operator.logical op).level = l then left.spine l + 1 else 0
  | .literal _ | .variable _ | .group _ | .unary .. | .function .. | .call .. | .get .. |
    .record .. => 0

end

mutual

/-- How many calls and member accesses are at the top, one behind the other. -/
def Expr.tail : Expr → Nat
  | .mk form _ _ => form.tail

def Form.tail : Form → Nat
  | .call f _ => f.tail + 1
  | .get e _ => e.tail + 1
  | .literal _ | .variable _ | .group _ | .unary .. | .binary .. | .logical .. | .function .. |
    .record .. => 0

end

mutual

/-- The levels that reading an operand takes; an expression takes one more. -/
def Expr.levels : Expr → Nat
  | .mk form _ _ => form.levels

def Form.levels : Form → Nat
  | .literal _ | .variable _ => 0
  | .group e | .unary _ e => e.levels + 1
  | .binary l op r => max l.levels (l.spine (Operator.binary op).level + r.levels + 1)
  | .logical l op r => max l.levels (l.spine (Operator.logical op).level + r.levels + 1)
  | .function _ _ body => body.levels
  | .call f args => max f.levels (f.tail + levelsArgs args + 1)
  | .get e _ => max e.levels (e.tail + 1)
  | .record _ fields => levelsFields fields

def levelsArgs : List Expr → Nat
  | [] => 0
  | e :: es => max (e.levels + 1) (levelsArgs es)

def levelsFields : List (Ident × Expr) → Nat
  | [] => 0
  | (_, e) :: fs => max (e.levels + 1) (levelsFields fs)

def Stmt.levels : Stmt → Nat
  | .expr e _ | .let_ _ _ (some e) _ | .return_ (some e) _ => e.levels + 1 + 1
  | .let_ _ _ none _ | .struct .. | .return_ none _ => 1
  | .block body _ => levelsAll body + 1
  | .if_ e s none _ | .while_ e s _ => max (e.levels + 1) s.levels + 1
  | .if_ e s (some t) _ => max (e.levels + 1) (max s.levels t.levels) + 1

def levelsAll : List Stmt → Nat
  | [] => 0
  | s :: ss => max s.levels (levelsAll ss)

end

/-! ### Chains -/

theorem Expr.spine_le_levels (l : Nat) (e : Expr) : e.spine l ≤ e.levels := by
  obtain ⟨form, span, type⟩ := e
  cases form with
  | binary | logical =>
    simp only [spine, Form.spine, levels, Form.levels]
    split
    · next h => rw [h]; omega
    · omega
  | _ => exact Nat.zero_le _

theorem Expr.tail_le_levels (e : Expr) : e.tail ≤ e.levels := by
  obtain ⟨form, span, type⟩ := e
  cases form with
  | call | get =>
    simp only [tail, Form.tail, levels, Form.levels]
    omega
  | _ => exact Nat.zero_le _

/-- What is tighter than a level has no operator of it at its top. -/
theorem Expr.spine_of_looseness {l : Nat} {e : Expr} (h : e.form.looseness ≤ l) : e.spine l = 0 := by
  obtain ⟨form, span, type⟩ := e
  cases form with
  | binary | logical => exact if_neg (Nat.ne_of_lt h)
  | _ => rfl

theorem Expr.tail_of_isAtom {e : Expr} (h : e.form.isAtom = true) : e.tail = 0 := by
  obtain ⟨form, span, type⟩ := e
  cases form with
  | call | get => cases h
  | _ => rfl

theorem Operator.spine_form (op : Operator) (left right : Expr) (span : Span) :
    (Expr.new (op.form left right) span).spine op.level = left.spine op.level + 1 := by
  cases op <;> exact if_pos rfl

theorem Operator.levels_form (op : Operator) (left right : Expr) (span : Span) :
    (Expr.new (op.form left right) span).levels =
      max left.levels (left.spine op.level + right.levels + 1) := by
  cases op <;> rfl

/-! ### Levels of a reading -/

def Item.levels : (i : Item) → i.Tree → Nat
  | .type, _ | .typedName, _ => 0
  | .field, f => f.2.levels + 1
  | .expression, e => e.levels + 1

def Item.levelsOf (i : Item) : List i.Tree → Nat
  | [] => 0
  | a :: as => max (i.levels a) (i.levelsOf as)

theorem levelsArgs_eq (es : List Expr) : levelsArgs es = Item.expression.levelsOf es := by
  induction es with
  | nil => rfl
  | cons e es ih => rw [levelsArgs, ih]; rfl

theorem levelsFields_eq (fs : List (Ident × Expr)) : levelsFields fs = Item.field.levelsOf fs := by
  induction fs with
  | nil => rfl
  | cons f fs ih => rw [levelsFields, ih]; rfl

/-- So many levels are those of the tree. A chain adds to the levels of its first operand. -/
def Part.Levels (m : Nat) : (s : Part) → s.Tree → Prop
  | .item i, a => i.levels a = m
  | .items i _, as => i.levelsOf as = m
  | .statement, s => s.levels = m
  | .statements _, ss => levelsAll ss = m
  | .operand _, e | .unary, e | .primary, e => e.levels = m
  | .chain l left, e => e.levels = max left.levels (left.spine l + m)
  | .suffixes first, e => e.levels = max first.levels (first.tail + m)

/-- The grammar reads a tree with as many levels as the tree has. -/
theorem Reads.levels_eq {s : Part} {m : Nat} {ks ks' : List Kind} {a : s.Tree}
    (h : Reads s m ks a ks') : s.Levels m a := by
  induction h with
  | itemsNil => exact rfl
  | itemsLast _ ih => exact (Nat.max_zero _).trans ih
  | itemsNext _ _ ih ih' => exact congr (congrArg max ih) ih'
  | named | null | functionType | typedName => exact rfl
  | field _ ih | operandZero _ ih => exact ih
  | expression _ ih => exact congrArg (· + 1) ih
  | operandSucc first _ ih ih' =>
    -- the first operand is too tight for an operator of this level to be at its top
    have hspine := Expr.spine_of_looseness first.fits
    simp only [Part.Levels] at ih ih' ⊢
    omega
  | @chainNil l _ _ left =>
    have hspine := left.spine_le_levels l
    simp only [Part.Levels]
    omega
  | chainCons h second _ ih ih' =>
    obtain ⟨-, rfl⟩ := Operator.at?_eq_some h
    simp only [Part.Levels, Operator.spine_form, Operator.levels_form] at ih ih' ⊢
    omega
  | unaryOp _ _ ih => exact congrArg (· + 1) ih
  | function _ _ _ _ _ ih => exact ih
  | suffixed inFirst _ ih ih' =>
    -- nothing is called or accessed before the first suffix
    have htail := Expr.tail_of_isAtom inFirst.fits
    simp only [Part.Levels] at ih ih' ⊢
    omega
  | literal | variable_ => exact rfl
  | group _ ih => exact ih
  | record _ _ ih => exact (levelsFields_eq _).trans ih
  | @suffixesNil _ _ e =>
    have htail := e.tail_le_levels
    simp only [Part.Levels]
    omega
  | get _ ih =>
    simp only [Part.Levels, Expr.new, Expr.tail, Form.tail, Expr.levels, Form.levels] at ih ⊢
    omega
  | call _ _ ih ih' =>
    simp only [Part.Levels, Expr.new, Expr.tail, Form.tail, Expr.levels, Form.levels,
      levelsArgs_eq] at ih ih' ⊢
    omega
  | expr _ ih | returnSome _ ih | block _ ih => exact congrArg (· + 1) ih
  | initialized _ _ _ ih => exact congrArg (· + 1) ih
  | declared | struct | returnNone | statementsNil => exact rfl
  | if_ _ _ _ ih ih' | while_ _ _ ih ih' =>
    simp only [Part.Levels, Item.levels] at ih ih' ⊢
    rw [Stmt.levels, ih, ih']
  | ifElse _ _ _ ih ih' ih'' =>
    simp only [Part.Levels, Item.levels] at ih ih' ih'' ⊢
    rw [Stmt.levels, ih, ih', ih'']
  | statementsCons _ _ ih ih' => exact congr (congrArg max ih) ih'

end RecordLang
