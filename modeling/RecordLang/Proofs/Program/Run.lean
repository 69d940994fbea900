import RecordLang.Program.Parser.Grammar
import RecordLang.Proofs.Diagnostic.Capped

/-!
# Runs of parsers

A run sees the kinds of the tokens ahead of it (`Cursor.kinds`), the last of which is the end of the
text, and it stops before that. It adds faults to those that were there, at the end, and adds at
least one if it yields nothing: all parsers of the grammar are `Parser.Reporting`. So a run without
a fault is made of runs without a fault.
-/

namespace RecordLang

/-! ### Kinds ahead -/

namespace Cursor

variable {c : Cursor} {k : Kind} {ks : List Kind}

/-- The kinds of the current token and of those ahead. -/
def kinds (c : Cursor) : List Kind := c.kind :: c.ahead.map Token.kind

/-- The last of the tokens is the end of the text. -/
def Closed (c : Cursor) : Prop := c.kinds.getLast? = some .eof

theorem kind_of_kinds (h : c.kinds = k :: ks) : c.kind = k := (List.cons.inj h).1

theorem length_kinds (c : Cursor) : c.kinds.length = c.remaining + 1 := by
  simp [kinds, remaining]

/-- A token other than the last one is passed over. -/
theorem kinds_advance (hc : c.Closed) (hk : c.kind ≠ .eof) :
    c.kinds = c.kind :: c.advance.kinds := by
  rcases c with ⟨last, current, _ | ⟨t, ts⟩, faults⟩
  · have he : current.kind = .eof := by simpa [Closed, kinds, kind] using hc
    exact absurd he hk
  · rfl

theorem Closed.advance (hc : c.Closed) : c.advance.Closed := by
  rcases c with ⟨last, current, _ | ⟨t, ts⟩, faults⟩
  · exact hc
  · simpa [Closed, kinds, kind, Cursor.advance] using hc

theorem faults_advance (c : Cursor) : c.advance.faults = c.faults := by
  rcases c with ⟨last, current, _ | ⟨t, ts⟩, faults⟩ <;> rfl

theorem sees_iff {x : Symbol} : c.sees x = true ↔ c.kind = .symbol x := by simp [sees]

end Cursor

/-! ### Faults of a run -/

/-- A parser that adds to the faults, and that adds one if it yields nothing. -/
class Parser.Reporting {α : Type} (p : Parser α) : Prop where
  reports : ∀ c, ∃ fs, (p c).2.faults = c.faults.pushAll fs ∧ ((p c).1 = none → fs ≠ [])

namespace Parser

variable {α β : Type} {p : Parser α} {f : α → Parser β}

/-- A run that ends without faults began without. -/
theorem faults_eq_empty [Reporting p] {c d : Cursor} {r : Option α} (h : p c = (r, d))
    (hd : d.faults = .empty) : c.faults = .empty := by
  obtain ⟨fs, hf, -⟩ := Reporting.reports (p := p) c
  rw [h, hd] at hf
  exact (Capped.pushAll_eq_empty.mp hf.symm).1

/-- A run that yields nothing leaves a fault. -/
theorem faults_ne_empty [Reporting p] {c d : Cursor} (h : p c = (none, d)) : d.faults ≠ .empty := by
  intro hd
  obtain ⟨fs, hf, hn⟩ := Reporting.reports (p := p) c
  rw [h, hd] at hf
  rw [h] at hn
  exact hn rfl (Capped.pushAll_eq_empty.mp hf.symm).2

/-- A run that leaves the faults alone and yields something. -/
theorem reporting_of_some (h : ∀ c, (p c).2.faults = c.faults ∧ ∃ a, (p c).1 = some a) :
    Reporting p := by
  refine ⟨fun c => ⟨[], (h c).1, fun hn => ?_⟩⟩
  obtain ⟨a, ha⟩ := (h c).2
  rw [ha] at hn
  cases hn

theorem bind_eq_some {c e : Cursor} {b : β} : (p >>= f) c = (some b, e) ↔
    ∃ a d, p c = (some a, d) ∧ f a d = (some b, e) := by
  rw [bind_apply]
  rcases p c with ⟨_ | a, d⟩
  · simp
  · simp [and_assoc]

instance {a : α} : Reporting (pure a : Parser α) := reporting_of_some fun _ => ⟨rfl, a, rfl⟩

instance reporting_bind [Reporting p] [∀ a, Reporting (f a)] : Reporting (p >>= f) := by
  refine ⟨fun c => ?_⟩
  obtain ⟨fs, hf, hn⟩ := Reporting.reports (p := p) c
  rw [bind_apply]
  rcases hp : p c with ⟨_ | a, d⟩
  · rw [hp] at hf hn
    exact ⟨fs, hf, fun _ => hn rfl⟩
  · rw [hp] at hf
    obtain ⟨gs, hg, hgn⟩ := Reporting.reports (p := f a) d
    refine ⟨fs ++ gs, ?_, fun h => List.append_ne_nil_of_right_ne_nil fs (hgn h)⟩
    rw [Capped.pushAll_append, ← hf]
    exact hg

instance : Reporting peek := reporting_of_some fun c => ⟨rfl, c.kind, rfl⟩

instance : Reporting here := reporting_of_some fun c => ⟨rfl, c.current.span, rfl⟩

instance : Reporting advance := reporting_of_some fun c => ⟨c.faults_advance, (), rfl⟩

instance {cause : GrammarCause} : Reporting (fail cause : Parser α) :=
  ⟨fun c => ⟨[⟨cause, c.current.span⟩], rfl, fun _ => nofun⟩⟩

instance {P : Prop} [Decidable P] {q : Parser α} [Reporting p] [Reporting q] :
    Reporting (if P then p else q) := by
  split <;> infer_instance

instance {k : Kind} : Reporting (expect k) := by
  unfold expect
  infer_instance

instance {x : Symbol} : Reporting (symbol x) := by
  unfold symbol
  infer_instance

instance {k : Kind} : Reporting (eat k) := by
  unfold eat
  infer_instance

/-- A parser that looks at the current kind first. -/
theorem Reporting.of_peek {f : Kind → Parser α} (h : ∀ k, Reporting (f k)) :
    Reporting (peek >>= f) :=
  inferInstance

instance : Reporting identifier := by
  unfold identifier
  refine @reporting_bind _ _ _ _ _ fun span => .of_peek fun k => ?_
  split <;> infer_instance

instance reporting_spanned {p : Parser (Span → α)} [Reporting p] : Reporting (spanned p) := by
  refine ⟨fun c => ?_⟩
  obtain ⟨fs, hf, hn⟩ := Reporting.reports (p := p) c
  rw [spanned]
  rcases hp : p c with ⟨_ | a, d⟩
  · rw [hp] at hf hn
    exact ⟨fs, hf, fun _ => hn rfl⟩
  · rw [hp] at hf
    exact ⟨fs, hf, nofun⟩

instance reporting_items {close : Symbol} [Reporting p] : Reporting (items close p) := by
  refine ⟨fun c => ?_⟩
  fun_induction items close p c with
  | case1 c h => exact ⟨[], rfl, nofun⟩
  | case2 c h d hp =>
    obtain ⟨fs, hf, hn⟩ := Reporting.reports (p := p) c
    rw [hp] at hf hn
    exact ⟨fs, hf, fun _ => hn rfl⟩
  | case3 c h a d hp hcomma hlt as e he ih =>
    obtain ⟨fs, hf, -⟩ := Reporting.reports (p := p) c
    obtain ⟨gs, hg, -⟩ := ih
    rw [hp] at hf
    rw [he, d.faults_advance, hf] at hg
    exact ⟨fs ++ gs, by rw [Capped.pushAll_append]; exact hg, nofun⟩
  | case4 c h a d hp hcomma hlt e he ih =>
    obtain ⟨fs, hf, -⟩ := Reporting.reports (p := p) c
    obtain ⟨gs, hg, hn⟩ := ih
    rw [hp] at hf
    rw [he, d.faults_advance, hf] at hg
    rw [he] at hn
    refine ⟨fs ++ gs, by rw [Capped.pushAll_append]; exact hg, fun _ => ?_⟩
    exact List.append_ne_nil_of_right_ne_nil fs (hn rfl)
  | case5 c h a d hp hcomma hlt =>
    obtain ⟨fs, hf, -⟩ := Reporting.reports (p := p) c
    rw [hp] at hf
    exact ⟨fs, d.faults_advance.trans hf, nofun⟩
  | case6 c h a d hp hcomma =>
    obtain ⟨fs, hf, -⟩ := Reporting.reports (p := p) c
    rw [hp] at hf
    exact ⟨fs, hf, nofun⟩

-- a list of items is a function of the cursor, which instances do not see to be a parser
instance {close : Symbol} {f : List α → Parser β} [Reporting p] [∀ as, Reporting (f as)] :
    Reporting (do f (← items close p)) :=
  reporting_bind (p := items close p)

/-- Statements up to a token that ends them, as a parser. -/
def body (ends : Kind → Bool) (statement : Parser Stmt) : Parser (List Stmt) := fun c =>
  (some (statements ends statement c).1, (statements ends statement c).2)

theorem faults_resync (d c : Cursor) : (d.resync c).faults = d.faults := by
  have hskip : ∀ d : Cursor, d.skip.faults = d.faults := fun _ => rfl
  unfold Cursor.resync
  split
  · rw [hskip, d.faults_advance]
  · rw [hskip]

instance reporting_body {ends : Kind → Bool} {p : Parser Stmt} [Reporting p] :
    Reporting (body ends p) := by
  refine ⟨fun c => ?_⟩
  have key : ∃ fs, (statements ends p c).2.faults = c.faults.pushAll fs := by
    fun_induction statements ends p c with
    | case1 c h => exact ⟨[], rfl⟩
    | case2 c h s d hp hlt ss e he ih =>
      obtain ⟨fs, hf, -⟩ := Reporting.reports (p := p) c
      obtain ⟨gs, hg⟩ := ih
      rw [hp] at hf
      rw [he, hf] at hg
      exact ⟨fs ++ gs, by rw [Capped.pushAll_append]; exact hg⟩
    | case3 c h s d hp hlt =>
      obtain ⟨fs, hf, -⟩ := Reporting.reports (p := p) c
      rw [hp] at hf
      exact ⟨fs, hf⟩
    | case4 c h d hp hlt ih =>
      obtain ⟨fs, hf, -⟩ := Reporting.reports (p := p) c
      obtain ⟨gs, hg⟩ := ih
      rw [hp] at hf
      rw [faults_resync, hf] at hg
      exact ⟨fs ++ gs, by rw [Capped.pushAll_append]; exact hg⟩
    | case5 c h d hp hlt =>
      obtain ⟨fs, hf, -⟩ := Reporting.reports (p := p) c
      rw [hp] at hf
      exact ⟨fs, (faults_resync d c).trans hf⟩
  obtain ⟨fs, hf⟩ := key
  exact ⟨fs, hf, nofun⟩

/-! ### Parsers of the grammar -/

instance reporting_typeExprWithin : ∀ depth, Reporting (typeExprWithin depth)
  | 0 => by
    unfold typeExprWithin
    infer_instance
  | depth + 1 => by
    have ih := reporting_typeExprWithin depth
    unfold typeExprWithin
    refine @reporting_spanned _ _ (.of_peek fun k => ?_)
    split <;> infer_instance

instance : Reporting typeExpr :=
  ⟨fun c => Reporting.reports (p := typeExprWithin (c.remaining + 1)) c⟩

instance : Reporting typedName := by
  unfold typedName
  infer_instance

/-- A field of a record literal. -/
def field (expression : Parser Expr) : Parser (Ident × Expr) := do
  let field ← identifier
  symbol .colon
  let value ← expression
  pure (field, value)

section Parts

variable {statement : Parser Stmt} {expression : Parser Expr} [Reporting statement]
  [Reporting expression]

omit [Reporting statement] [Reporting expression] in
theorem block_eq : block statement = spanned (do
    symbol .openBrace
    let stmts ← body (fun k => k == .symbol .closeBrace || k == .eof) statement
    symbol .closeBrace
    pure (Stmt.block stmts)) := rfl

instance : Reporting (block statement) := by
  rw [block_eq]
  infer_instance

instance : Reporting (statementBody statement expression) := by
  unfold statementBody
  refine .of_peek fun k => ?_
  split
  · unfold letStatement; infer_instance
  · infer_instance
  · unfold ifStatement; infer_instance
  · unfold whileStatement; infer_instance
  · unfold structStatement; infer_instance
  · unfold returnStatement; infer_instance
  · infer_instance

set_option synthInstance.maxSize 300 in
instance : Reporting (functionLiteral statement) := by
  unfold functionLiteral
  infer_instance

omit [Reporting statement] in
instance : Reporting (field expression) := by
  unfold field
  infer_instance

omit [Reporting statement] [Reporting expression] in
theorem recordLiteral_eq : recordLiteral expression = spanned (do
    let name ← identifier
    symbol .openBrace
    let fields ← items .closeBrace (field expression)
    symbol .closeBrace
    pure (.new (.record name fields))) := rfl

instance : Reporting (recordLiteral expression) := by
  rw [recordLiteral_eq]
  infer_instance

instance : Reporting (group expression) := by
  unfold group
  infer_instance

instance : Reporting (primary expression) := by
  refine ⟨fun c => ?_⟩
  unfold primary
  split
  · exact ⟨[], c.faults_advance, nofun⟩
  · split
    · exact Reporting.reports (p := group expression) c
    · split
      · exact Reporting.reports (p := recordLiteral expression) c
      · exact ⟨[], c.faults_advance, nofun⟩
    · exact Reporting.reports (p := fail _) c

instance {e : Expr} : Reporting (suffix expression e) := by
  unfold suffix
  infer_instance

end Parts

end Parser

namespace Grammar

open RecordLang.Parser

/-- All parsers of a grammar report. -/
structure Reports (g : Grammar) : Prop where
  statement : Reporting g.statement
  expression : Reporting g.expression
  unary : Reporting g.unary
  chain : ∀ l left, Reporting (g.chain l left)
  suffixes : ∀ e, Reporting (g.suffixes e)

theorem Reports.operand {g : Grammar} (h : g.Reports) : ∀ l, Reporting (g.operand l)
  | 0 => h.unary
  | l + 1 => by
    have hl := h.operand l
    have hc := h.chain l
    unfold Grammar.operand
    infer_instance

theorem reporting_nested {α : Type} {inner : Option Grammar} {p : Grammar → Parser α}
    (h : ∀ g, inner = some g → Reporting (p g)) : Reporting (nested inner p) := by
  cases inner with
  | none => exact inferInstanceAs (Reporting (fail _))
  | some g => exact h g rfl

theorem reports_around {inner : Option Grammar} (h : ∀ g, inner = some g → g.Reports) :
    (around inner).Reports := by
  have hs : Reporting (statementAround inner) := reporting_nested fun g hg => by
    have := (h g hg).statement
    have := (h g hg).expression
    infer_instance
  have he : Reporting (expressionAround inner) := reporting_nested fun g hg => (h g hg).operand _
  have hx : ∀ e, Reporting (suffixesAround inner e) := fun e => .of_peek fun k => by
    have hn : Reporting (nested inner fun g => do g.suffixes (← suffix g.expression e)) :=
      reporting_nested fun g hg => by
        have := (h g hg).expression
        have := (h g hg).suffixes
        infer_instance
    split <;> infer_instance
  have hu : Reporting (unaryAround inner) := by
    have hn : Reporting (nested inner fun g => g.unary) := reporting_nested fun g hg =>
      (h g hg).unary
    refine @reporting_bind _ _ _ _ _ fun start => .of_peek fun k => ?_
    split <;> infer_instance
  have hc : ∀ l left, Reporting (chainAround inner l left) := fun l left => .of_peek fun k => by
    split
    · infer_instance
    · refine reporting_nested fun g hg => ?_
      have := (h g hg).operand l
      have := (h g hg).chain l
      infer_instance
  exact ⟨hs, he, hu, hc, hx⟩

theorem reports_allowing : ∀ n, (allowing n).Reports
  | 0 => reports_around nofun
  | n + 1 => reports_around fun _ hg => Option.some.inj hg ▸ reports_allowing n

instance {n : Nat} : Reporting (allowing n).statement := (reports_allowing n).statement

instance {n : Nat} : Reporting (allowing n).expression := (reports_allowing n).expression

instance {n l : Nat} {left : Expr} : Reporting ((allowing n).chain l left) :=
  (reports_allowing n).chain l left

instance {n : Nat} {e : Expr} : Reporting ((allowing n).suffixes e) :=
  (reports_allowing n).suffixes e

end Grammar

end RecordLang
