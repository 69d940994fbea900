import RecordLang.Proofs.Program.Reads

/-!
# Precedence and associativity

`Form.looseness` grades the operators; what has no operator at its top is graded zero. In what the
grammar reads, a left operand is no looser than its operator, a right operand is tighter, the operand
of a unary operator has no operator at its top, and only atoms, calls and member accesses are called
or accessed (`Reads.bound`).
-/

namespace RecordLang

/-- How loosely the operator at the top binds, from one on; zero if there is none. -/
def Form.looseness : Form → Nat
  | .binary _ op _ => (Operator.binary op).level + 1
  | .logical _ op _ => (Operator.logical op).level + 1
  | _ => 0

def Form.isAtom : Form → Bool
  | .literal _ | .variable _ | .group _ | .record .. => true
  | _ => false

/-- An atom, or a call or member access. -/
def Form.isPostfix : Form → Bool
  | .call .. | .get .. => true
  | f => f.isAtom

/-- The node keeps the order of precedence towards its operands. -/
def Form.Bound : Form → Prop
  | .unary _ e => e.form.looseness = 0
  | .binary l op r =>
    l.form.looseness ≤ (Operator.binary op).level + 1 ∧
      r.form.looseness < (Operator.binary op).level + 1
  | .logical l op r =>
    l.form.looseness ≤ (Operator.logical op).level + 1 ∧
      r.form.looseness < (Operator.logical op).level + 1
  | .call f _ => f.form.isPostfix = true
  | .get e _ => e.form.isPostfix = true
  | .literal _ | .variable _ | .group _ | .function .. | .record .. => True

theorem Form.isPostfix_of_isAtom {f : Form} (h : f.isAtom = true) : f.isPostfix = true := by
  cases f <;> first | rfl | exact h

theorem Form.looseness_of_isPostfix {f : Form} (h : f.isPostfix = true) : f.looseness = 0 := by
  cases f <;> first | rfl | cases h

/-! ### Nodes of a tree -/

mutual

/-- The nodes of an expression. -/
def Expr.forms : Expr → List Form
  | .mk form _ _ => form :: form.inner

/-- The nodes below one. -/
def Form.inner : Form → List Form
  | .literal _ | .variable _ => []
  | .group e | .unary _ e | .get e _ => e.forms
  | .binary l _ r | .logical l _ r => l.forms ++ r.forms
  | .function _ _ body => body.forms
  | .call f args => f.forms ++ formsArgs args
  | .record _ fields => formsFields fields

def formsArgs : List Expr → List Form
  | [] => []
  | e :: es => e.forms ++ formsArgs es

def formsFields : List (Ident × Expr) → List Form
  | [] => []
  | (_, e) :: fs => e.forms ++ formsFields fs

/-- The expression nodes of a statement. -/
def Stmt.forms : Stmt → List Form
  | .expr e _ | .let_ _ _ (some e) _ | .return_ (some e) _ => e.forms
  | .let_ _ _ none _ | .struct .. | .return_ none _ => []
  | .block body _ => formsAll body
  | .if_ e s none _ | .while_ e s _ => e.forms ++ s.forms
  | .if_ e s (some t) _ => e.forms ++ (s.forms ++ t.forms)

def formsAll : List Stmt → List Form
  | [] => []
  | s :: ss => s.forms ++ formsAll ss

end

/-- The expression nodes of a program. -/
def Program.forms (p : Program) : List Form := formsAll p.body

theorem mem_formsArgs {f : Form} {es : List Expr} : f ∈ formsArgs es ↔ ∃ e ∈ es, f ∈ e.forms := by
  induction es with
  | nil => simp [formsArgs]
  | cons e es ih => simp [formsArgs, ih]

theorem mem_formsFields {f : Form} {fs : List (Ident × Expr)} :
    f ∈ formsFields fs ↔ ∃ x ∈ fs, f ∈ x.2.forms := by
  induction fs with
  | nil => simp [formsFields]
  | cons x fs ih => simp [formsFields, ih]

/-! ### Operators and their kinds -/

theorem Operator.at?_eq_some {l : Nat} {k : Kind} {op : Operator} (h : at? l k = some op) :
    ofKind? k = some op ∧ op.level = l := by
  simpa [at?, Option.filter_eq_some_iff] using h

/-- The kind that stands for an operator. -/
def Operator.kind : Operator → Kind
  | .binary op => .symbol op.symbol
  | .logical op => .keyword op.keyword

theorem Operator.ofKind?_kind (op : Operator) : ofKind? op.kind = some op := by
  cases op with
  | binary op => exact congrArg (Option.map Operator.binary) op.ofSymbol?_symbol
  | logical op => cases op <;> rfl

theorem Operator.at?_kind (op : Operator) (l : Nat) :
    at? l op.kind = if op.level = l then some op else none := by
  rw [at?, op.ofKind?_kind]
  by_cases h : op.level = l <;> simp [Option.filter, h]

theorem Operator.looseness_form (op : Operator) (left right : Expr) :
    (op.form left right).looseness = op.level + 1 := by
  cases op <;> rfl

/-! ### Ends of operands -/

/-- An operand of the operators of a level ends before this kind. -/
structure Kind.Ends (l : Nat) (k : Kind) : Prop where
  noCall : k ≠ .symbol .openParen
  noGet : k ≠ .symbol .dot
  noOperator : ∀ i, i < l → Operator.at? i k = none

theorem Kind.Ends.mono {l l' : Nat} {k : Kind} (h : k.Ends l) (hl : l' ≤ l) : k.Ends l' :=
  ⟨h.noCall, h.noGet, fun i hi => h.noOperator i (Nat.lt_of_lt_of_le hi hl)⟩

theorem Operator.ends_kind (op : Operator) : op.kind.Ends op.level := by
  refine ⟨?_, ?_, fun i hi => ?_⟩
  · cases op with | binary op | logical op => cases op <;> exact nofun
  · cases op with | binary op | logical op => cases op <;> exact nofun
  · rw [op.at?_kind, if_neg (by omega)]

theorem Kind.ends_eof (l : Nat) : Kind.eof.Ends l := ⟨nofun, nofun, fun _ _ => rfl⟩

/-- The first of the kinds ends an operand of the operators of a level. -/
def EndsBefore (l : Nat) (ks : List Kind) : Prop := ∃ k ks', ks = k :: ks' ∧ k.Ends l

theorem EndsBefore.mono {l l' : Nat} {ks : List Kind} (h : EndsBefore l ks) (hl : l' ≤ l) :
    EndsBefore l' ks := by
  obtain ⟨k, ks', rfl, hk⟩ := h
  exact ⟨k, ks', rfl, hk.mono hl⟩

/-- An atom is an operand if nothing is called or accessed. -/
theorem Reads.unary {m : Nat} {ks ks' : List Kind} {e : Expr} (h : Reads .primary m ks e ks')
    (hend : EndsBefore 0 ks') : Reads .unary m ks e ks' := by
  obtain ⟨k, ks', rfl, hk⟩ := hend
  have hall := h.suffixed (.suffixesNil hk.noCall hk.noGet)
  rwa [Nat.max_zero] at hall

/-- What is read as an operand of the tightest operators is one of looser operators as well. -/
theorem Reads.operand {m : Nat} {ks ks' : List Kind} {e : Expr} (h : Reads .unary m ks e ks') (l : Nat)
    (hend : EndsBefore l ks') : Reads (.operand l) m ks e ks' := by
  induction l with
  | zero => exact .operandZero h
  | succ l ih =>
    have hfirst := ih (hend.mono (Nat.le_succ l))
    obtain ⟨k, ks', rfl, hk⟩ := hend
    have hall := hfirst.operandSucc (.chainNil (hk.noOperator l (Nat.lt_succ_self l)))
    rwa [Nat.max_zero] at hall

/-- An expression up to the end of the text is a program of one statement. -/
theorem Reads.program {m : Nat} {ks rest : List Kind} {e : Expr}
    (h : Reads (.operand Operator.levels) m ks e (.eof :: rest)) :
    Reads (.statements .eof) (m + 2) ks [.expr e default] (.eof :: rest) := by
  have hall := (@Reads.expr _ _ _ _ default (.expression h)).statementsCons .statementsNil
  rwa [Nat.max_zero] at hall

/-! ### What is read at which place -/

/-- The places of a part where its tree may stand. -/
def Part.Fits : (s : Part) → s.Tree → Prop
  | .operand l, e => e.form.looseness ≤ l
  | .chain l left, e => left.form.looseness ≤ l + 1 → e.form.looseness ≤ l + 1
  | .unary, e => e.form.looseness = 0
  | .primary, e => e.form.isAtom = true
  | .suffixes first, e => first.form.isPostfix = true → e.form.isPostfix = true
  | .item _, _ | .items .., _ | .statement, _ | .statements _, _ => True

theorem Reads.fits {s : Part} {m : Nat} {ks ks' : List Kind} {a : s.Tree}
    (h : Reads s m ks a ks') : s.Fits a := by
  induction h with
  | operandZero _ ih => exact Nat.le_of_eq ih
  | operandSucc _ _ ih ih' => exact ih' (Nat.le_succ_of_le ih)
  | chainNil => exact id
  | chainCons h _ _ _ ih =>
    intro _
    obtain ⟨-, hlevel⟩ := Operator.at?_eq_some h
    exact ih (Nat.le_of_eq ((Operator.looseness_form ..).trans (congrArg (· + 1) hlevel)))
  | unaryOp | function => exact rfl
  | suffixed _ _ ih ih' => exact Form.looseness_of_isPostfix (ih' (Form.isPostfix_of_isAtom ih))
  | literal | group | record | variable_ => exact rfl
  | suffixesNil => exact id
  | get _ ih | call _ _ _ ih => exact fun _ => ih rfl
  | _ => trivial

/-! ### All nodes -/

/-- The nodes of an item. -/
def Item.forms : (i : Item) → i.Tree → List Form
  | .type, _ | .typedName, _ => []
  | .field, f => f.2.forms
  | .expression, e => e.forms

/-- All nodes keep the order of precedence. -/
def Expr.Bound (e : Expr) : Prop := ∀ f ∈ e.forms, f.Bound

def Part.Bound : (s : Part) → s.Tree → Prop
  | .item i, a => ∀ f ∈ i.forms a, f.Bound
  | .items i _, as => ∀ a ∈ as, ∀ f ∈ i.forms a, f.Bound
  | .statement, s => ∀ f ∈ s.forms, f.Bound
  | .statements _, ss => ∀ f ∈ formsAll ss, f.Bound
  | .operand _, e | .unary, e | .primary, e => e.Bound
  | .chain l left, e => left.form.looseness ≤ l + 1 → left.Bound → e.Bound
  | .suffixes first, e => first.form.isPostfix = true → first.Bound → e.Bound

theorem Expr.Bound.new {form : Form} {span : Span} (h : form.Bound)
    (hinner : ∀ f ∈ form.inner, f.Bound) : (Expr.new form span).Bound :=
  List.forall_mem_cons.mpr ⟨h, hinner⟩

theorem Operator.bound_form {op : Operator} {left right : Expr} {span : Span}
    (hl : left.form.looseness ≤ op.level + 1) (hr : right.form.looseness ≤ op.level)
    (hleft : left.Bound) (hright : right.Bound) : (Expr.new (op.form left right) span).Bound := by
  have hall := List.forall_mem_append.mpr ⟨hleft, hright⟩
  cases op with
  | binary op => exact .new ⟨hl, Nat.lt_succ_of_le hr⟩ hall
  | logical op => exact .new ⟨hl, Nat.lt_succ_of_le hr⟩ hall

/-- All nodes of what the grammar reads keep the order of precedence. -/
theorem Reads.bound {s : Part} {m : Nat} {ks ks' : List Kind} {a : s.Tree}
    (h : Reads s m ks a ks') : s.Bound a := by
  induction h with
  | itemsNil => exact nofun
  | itemsLast _ ih => exact List.forall_mem_singleton.mpr ih
  | itemsNext _ _ ih ih' => exact List.forall_mem_cons.mpr ⟨ih, ih'⟩
  | named | null | functionType | typedName => exact nofun
  | field _ ih | expression _ ih | operandZero _ ih => exact ih
  | operandSucc first _ ih ih' => exact ih' (Nat.le_succ_of_le first.fits) ih
  | chainNil => exact fun _ hleft => hleft
  | chainCons h second _ ih ih' =>
    intro hl hleft
    obtain ⟨-, rfl⟩ := Operator.at?_eq_some h
    refine ih' ?_ (Operator.bound_form hl second.fits hleft ih)
    exact Nat.le_of_eq (Operator.looseness_form ..)
  | unaryOp _ operand ih => exact Expr.Bound.new operand.fits ih
  | function _ _ _ _ _ ih => exact Expr.Bound.new trivial ih
  | suffixed inFirst _ ih ih' => exact ih' (Form.isPostfix_of_isAtom inFirst.fits) ih
  | literal | variable_ => exact Expr.Bound.new trivial nofun
  | group _ ih => exact Expr.Bound.new trivial ih
  | record _ _ ih =>
    refine Expr.Bound.new trivial fun f hf => ?_
    obtain ⟨x, hx, hf⟩ := mem_formsFields.mp hf
    exact ih x hx f hf
  | suffixesNil => exact fun _ hfirst => hfirst
  | get _ ih => exact fun hpost hfirst => ih rfl (.new hpost hfirst)
  | call _ _ ih ih' =>
    intro hpost hfirst
    refine ih' rfl (.new hpost (List.forall_mem_append.mpr ⟨hfirst, fun f hf => ?_⟩))
    obtain ⟨e, he, hf⟩ := mem_formsArgs.mp hf
    exact ih e he f hf
  | expr _ ih | returnSome _ ih | block _ ih => exact ih
  | initialized _ _ _ ih => exact ih
  | declared | struct | returnNone | statementsNil => exact nofun
  | if_ _ _ _ ih ih' => exact List.forall_mem_append.mpr ⟨ih, ih'⟩
  | ifElse _ _ _ ih ih' ih'' =>
    exact List.forall_mem_append.mpr ⟨ih, List.forall_mem_append.mpr ⟨ih', ih''⟩⟩
  | while_ _ _ ih ih' => exact List.forall_mem_append.mpr ⟨ih, ih'⟩
  | statementsCons _ _ ih ih' => exact List.forall_mem_append.mpr ⟨ih, ih'⟩

end RecordLang
