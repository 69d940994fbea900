import Mathlib.Tactic.Common
import RecordLang.Proofs.Program.Progress
import RecordLang.Proofs.Program.Unplaced

/-!
# Reading does not look at places

Two lists of tokens that have the same kinds are read alike: the programs are the same up to the
places of their nodes, and the faults have the same causes (`parse_unplaced`). Every parser keeps
this of two cursors that stand at the same kinds, whatever the spans are.
-/

namespace RecordLang

/-! ### Two cursors -/

/-- The cursors stand at the same kinds and have found the same causes. -/
structure Cursor.Alike (c d : Cursor) : Prop where
  kinds : c.kinds = d.kinds
  causes : c.faults.map Located.cause = d.faults.map Located.cause

namespace Cursor.Alike

variable {c d c' d' : Cursor}

theorem kind (h : c.Alike d) : c.kind = d.kind := (List.cons.inj h.kinds).1

theorem ahead (h : c.Alike d) : c.ahead.map Token.kind = d.ahead.map Token.kind :=
  (List.cons.inj h.kinds).2

theorem remaining (h : c.Alike d) : c.remaining = d.remaining := by
  have hlen := congrArg List.length h.ahead
  rwa [List.length_map, List.length_map] at hlen

theorem sees (h : c.Alike d) (x : Symbol) : c.sees x = d.sees x := by
  rw [Cursor.sees, h.kind, Cursor.sees]

theorem atEnd (h : c.Alike d) : c.atEnd = d.atEnd := by rw [Cursor.atEnd, h.kind, Cursor.atEnd]

theorem peekAhead (h : c.Alike d) (n : Nat) : c.peekAhead n = d.peekAhead n := by
  rw [Cursor.peekAhead, ← List.getElem?_map, h.ahead, List.getElem?_map]
  rfl

theorem full (h : c.Alike d) : c.faults.full = d.faults.full := by
  rw [← Capped.full_map Located.cause c.faults, h.causes]
  rfl

theorem advance (h : c.Alike d) : c.advance.Alike d.advance := by
  have hahead := h.ahead
  rcases c with ⟨last, current, _ | ⟨t, ts⟩, faults⟩ <;>
    rcases d with ⟨last', current', _ | ⟨t', ts'⟩, faults'⟩
  · exact h
  · cases hahead
  · cases hahead
  · exact ⟨hahead, h.causes⟩

theorem report (h : c.Alike d) (cause : GrammarCause) :
    (c.report cause).Alike (d.report cause) := by
  refine ⟨h.kinds, ?_⟩
  show (c.faults.push _).map Located.cause = (d.faults.push _).map Located.cause
  rw [Capped.map_push, Capped.map_push, h.causes]

/-- Both go on at the same place. -/
theorem skipTo {s s' : Span} {t t' : Token} {ts ts' : List Token} (ht : t.kind = t'.kind)
    (hts : ts.map Token.kind = ts'.map Token.kind) :
    (Cursor.skipTo s t ts).2.1.kind = (Cursor.skipTo s' t' ts').2.1.kind ∧
    (Cursor.skipTo s t ts).2.2.map Token.kind = (Cursor.skipTo s' t' ts').2.2.map Token.kind := by
  induction ts generalizing s s' t t' ts' with
  | nil =>
    obtain rfl := List.map_eq_nil_iff.mp hts.symm
    exact ⟨ht, rfl⟩
  | cons u us ih =>
    obtain ⟨u', us', rfl, hu, hus⟩ := List.map_eq_cons_iff.mp hts.symm
    rw [Cursor.skipTo, Cursor.skipTo, ← ht]
    split
    · exact ⟨ht, hts⟩
    · exact ih hu.symm hus.symm

theorem skip (h : c.Alike d) : c.skip.Alike d.skip := by
  obtain ⟨hcurrent, hahead⟩ :=
    @skipTo c.last d.last c.current d.current c.ahead d.ahead h.kind h.ahead
  exact ⟨by rw [Cursor.kinds, Cursor.kinds]; exact congrArg₂ List.cons hcurrent hahead, h.causes⟩

theorem resync (h : c.Alike d) (h' : c'.Alike d') : (c.resync c').Alike (d.resync d') := by
  rw [Cursor.resync, Cursor.resync, h.remaining, h'.remaining, h.atEnd]
  split
  · exact h.advance.skip
  · exact h.skip

theorem startsRecord (h : c.Alike d) (name : String) :
    Parser.startsRecord name c = Parser.startsRecord name d := by
  rw [Parser.startsRecord, Parser.startsRecord, h.peekAhead, h.peekAhead, h.peekAhead]

end Cursor.Alike

theorem alike_ofTokens {ts us : List Token} (h : ts.map Token.kind = us.map Token.kind) :
    (Cursor.ofTokens ts).Alike (Cursor.ofTokens us) := by
  have hclosed : ∀ {ts us : List Token} {t u : Token}, t.kind = u.kind →
      ts.map Token.kind = us.map Token.kind →
      (Cursor.closed t ts).map Token.kind = (Cursor.closed u us).map Token.kind := by
    intro ts
    induction ts with
    | nil =>
      intro us t u hk h
      obtain rfl := List.map_eq_nil_iff.mp h.symm
      rw [Cursor.closed, Cursor.closed, hk]
      split <;> rfl
    | cons t' ts ih =>
      intro us t u hk h
      obtain ⟨u', us', rfl, hu, hus⟩ := List.map_eq_cons_iff.mp h.symm
      rw [Cursor.closed, Cursor.closed, List.map_cons, List.map_cons, hu, ih hu.symm hus.symm]
  cases ts with
  | nil =>
    obtain rfl := List.map_eq_nil_iff.mp h.symm
    exact ⟨rfl, rfl⟩
  | cons t ts =>
    obtain ⟨u, us', rfl, hu, hus⟩ := List.map_eq_cons_iff.mp h.symm
    exact ⟨congrArg₂ List.cons hu.symm (hclosed hu.symm hus.symm), rfl⟩

/-! ### Two runs -/

/-- Two values are the same in what is compared of them. -/
abbrev Like {α γ : Type} (view : α → γ) (a b : α) : Prop := view a = view b

namespace Parser

variable {α β γ δ : Type}

/-- Two runs have both failed or have yielded related values, and have come to the same kinds. -/
inductive Matched (R : α → β → Prop) : Option α × Cursor → Option β × Cursor → Prop
  | none {c d : Cursor} (h : c.Alike d) : Matched R (none, c) (none, d)
  | some {a : α} {b : β} {c d : Cursor} (hab : R a b) (h : c.Alike d) :
      Matched R (some a, c) (some b, d)

/-- The parsers do the same wherever they see the same kinds. -/
structure Alike (R : α → β → Prop) (p : Parser α) (q : Parser β) : Prop where
  run : ∀ c d : Cursor, c.Alike d → Matched R (p c) (q d)

namespace Alike

variable {R : α → β → Prop} {S : γ → δ → Prop} {p : Parser α} {q : Parser β}

theorem pure {a : α} {b : β} (h : R a b) : Alike R (pure a) (pure b) :=
  ⟨fun _ _ hcd => .some h hcd⟩

theorem fail {cause : GrammarCause} : Alike R (fail cause) (fail cause) :=
  ⟨fun _ _ hcd => .none (hcd.report cause)⟩

theorem bind {f : α → Parser γ} {g : β → Parser δ} (h : Alike R p q)
    (hf : ∀ a b, R a b → Alike S (f a) (g b)) : Alike S (p >>= f) (q >>= g) := by
  refine ⟨fun c d hcd => ?_⟩
  have hrun := h.run c d hcd
  rw [bind_apply, bind_apply]
  generalize p c = r, q d = r' at hrun
  cases hrun with
  | none hcd' => exact .none hcd'
  | some hab hcd' => exact (hf _ _ hab).run _ _ hcd'

/-- What comes first yields the same for both. -/
theorem andThen {p q : Parser α} {f : α → Parser γ} {g : α → Parser δ} (h : Alike Eq p q)
    (hf : ∀ a, Alike S (f a) (g a)) : Alike S (p >>= f) (q >>= g) :=
  h.bind fun a _ hab => hab ▸ hf a

theorem ite {C : Prop} [Decidable C] {p' : Parser α} {q' : Parser β} (h : Alike R p q)
    (h' : Alike R p' q') : Alike R (if C then p else p') (if C then q else q') := by
  split
  · exact h
  · exact h'

theorem peek : Alike Eq peek peek := ⟨fun _ _ hcd => .some hcd.kind hcd⟩

theorem here : Alike (fun _ _ => True) here here := ⟨fun _ _ hcd => .some trivial hcd⟩

theorem advance : Alike Eq advance advance := ⟨fun _ _ hcd => .some rfl hcd.advance⟩

theorem expect {k : Kind} : Alike Eq (expect k) (expect k) :=
  .andThen .peek fun _ => .ite .advance .fail

theorem symbol {x : Symbol} : Alike Eq (symbol x) (symbol x) := .expect

theorem eat {k : Kind} : Alike Eq (eat k) (eat k) :=
  .andThen .peek fun _ => .ite (.andThen .advance fun _ => .pure rfl) (.pure rfl)

theorem identifier : Alike (Like Ident.unplaced) identifier identifier := by
  refine .bind .here fun _ _ _ => .andThen .peek fun k => ?_
  cases k with
  | ident name => exact .andThen .advance fun _ => .pure rfl
  | _ => exact .fail

theorem spanned {view : α → γ} {p q : Parser (Span → α)}
    (h : Alike (fun f g => ∀ s t, view (f s) = view (g t)) p q) :
    Alike (Like view) (spanned p) (spanned q) := by
  refine ⟨fun c d hcd => ?_⟩
  have hrun := h.run c d hcd
  rw [Parser.spanned, Parser.spanned]
  generalize p c = r, q d = r' at hrun
  cases hrun with
  | none hcd' => exact .none hcd'
  | some hfg hcd' => exact .some (hfg _ _) hcd'

theorem items {view : α → γ} {close : Symbol} {p q : Parser α} (h : Alike (Like view) p q) :
    Alike (Like (List.map view)) (items close p) (items close q) := by
  refine ⟨fun c d hcd => ?_⟩
  induction hn : c.remaining using Nat.strongRecOn generalizing c d with
  | ind n ih =>
  subst hn
  have hrun := h.run c d hcd
  unfold Parser.items
  rw [hcd.sees, hcd.atEnd]
  split
  · exact .some rfl hcd
  · generalize p c = r, q d = r' at hrun
    cases hrun with
    | none hcd' => exact .none hcd'
    | @some a b c' d' hab hcd' =>
      have hone : Like (List.map view) [a] [b] := congrArg ([·]) hab
      have hnext := hcd'.advance
      dsimp only
      rw [hcd'.sees, hnext.remaining, hcd.remaining]
      split
      · split
        · next hlt =>
          have hrest := ih _ (by rwa [hnext.remaining, hcd.remaining]) _ _ hnext rfl
          generalize Parser.items close p c'.advance = r, Parser.items close q d'.advance = r'
            at hrest
          cases hrest with
          | none he => exact .none he
          | some has he => exact .some (congrArg₂ List.cons hab has) he
        · exact .some hone hnext
      · exact .some hone hcd'

theorem body {ends : Kind → Bool} {p q : Parser Stmt} (h : Alike (Like Stmt.unplaced) p q) :
    Alike (Like unplacedAll) (body ends p) (body ends q) := by
  refine ⟨fun c d hcd => ?_⟩
  induction hn : c.remaining using Nat.strongRecOn generalizing c d with
  | ind n ih =>
  subst hn
  have hrun := h.run c d hcd
  rw [Parser.body, Parser.body]
  unfold Parser.statements
  rw [hcd.kind, hcd.full]
  split
  · exact .some rfl hcd
  · generalize p c = r, q d = r' at hrun
    cases hrun with
    | @none c' d' hcd' =>
      have hnext := hcd'.resync hcd
      dsimp only
      rw [hnext.remaining, hcd.remaining]
      split
      · next hlt => exact ih _ (by rwa [hnext.remaining, hcd.remaining]) _ _ hnext rfl
      · exact .some rfl hnext
    | @some s t c' d' hst hcd' =>
      dsimp only
      rw [hcd'.remaining, hcd.remaining]
      split
      · next hlt =>
        have hrest := ih _ (by rwa [hcd'.remaining, hcd.remaining]) _ _ hcd' rfl
        rw [Parser.body, Parser.body] at hrest
        generalize Parser.statements ends p c' = r, Parser.statements ends q d' = r' at hrest
        cases hrest with
        | some hss he => exact .some (congrArg₂ List.cons hst hss) he
      · exact .some (congrArg ([·]) hst) hcd'

end Alike

/-! ### Types -/

theorem alike_functionType {p : Parser TypeExpr} (hp : Alike (Like TypeExpr.unplaced) p p) :
    Alike (fun f g => ∀ s t, (f s).unplaced = (g t).unplaced) (functionType p)
      (functionType p) := by
  refine .bind (.items hp) fun ts us hts => .andThen .symbol fun _ => .andThen .symbol fun _ =>
    .bind hp fun t u htu => .pure fun _ _ => ?_
  simp only [TypeExpr.unplaced, unplacedTypes_eq_map]
  rw [hts, htu]

theorem alike_typeExprWithin (depth : Nat) :
    Alike (Like TypeExpr.unplaced) (typeExprWithin depth) (typeExprWithin depth) := by
  induction depth with
  | zero => exact .andThen .peek fun _ => .fail
  | succ depth ih =>
    have hnamed : ∀ name, Alike (fun f g => ∀ s t, (f s).unplaced = (g t).unplaced)
        (do advance; let optional ← eat (.symbol .question); pure (TypeExpr.named name optional))
        (do advance; let optional ← eat (.symbol .question); pure (TypeExpr.named name optional)) :=
      fun name => .andThen .advance fun _ => .andThen .eat fun _ => .pure fun _ _ => rfl
    rw [typeExprWithin_succ]
    refine .spanned (.andThen .peek fun k => ?_)
    cases k with
    | ident name => exact hnamed name
    | keyword w =>
      cases w with
      | null => exact hnamed "null"
      | _ => exact .fail
    | symbol x =>
      cases x with
      | openParen => exact .andThen .advance fun _ => alike_functionType ih
      | _ => exact .fail
    | _ => exact .fail

theorem alike_typeExpr : Alike (Like TypeExpr.unplaced) typeExpr typeExpr := by
  refine ⟨fun c d hcd => ?_⟩
  rw [typeExpr, typeExpr, hcd.remaining]
  exact (alike_typeExprWithin _).run c d hcd

theorem alike_typedName : Alike (Like TypedName.unplaced) typedName typedName := by
  refine .spanned (.bind .identifier fun x y hxy => .andThen .symbol fun _ =>
    .bind alike_typeExpr fun t u htu => .pure fun _ _ => ?_)
  simp only [TypedName.unplaced]
  rw [hxy, htu]

/-! ### Statements and expressions -/

section Parts

variable {statement : Parser Stmt} {expression : Parser Expr}

theorem alike_block (hs : Alike (Like Stmt.unplaced) statement statement) :
    Alike (Like Stmt.unplaced) (block statement) (block statement) := by
  rw [block_eq]
  refine .spanned (.andThen .symbol fun _ => .bind (.body hs) fun as bs hab =>
    .andThen .symbol fun _ => .pure fun _ _ => ?_)
  simp only [Stmt.unplaced]
  rw [hab]

theorem alike_letStatement (he : Alike (Like Expr.unplaced) expression expression) :
    Alike (Like Stmt.unplaced) (letStatement expression) (letStatement expression) := by
  refine .spanned (.andThen .advance fun _ => .bind .identifier fun x y hxy =>
    .andThen .symbol fun _ => .bind alike_typeExpr fun t u htu => .andThen .eat fun _ =>
      .ite (.bind he fun e f hef => .pure fun _ _ => ?_) (.pure fun _ _ => ?_))
  · simp only [Stmt.unplaced]
    rw [hxy, htu, hef]
  · simp only [Stmt.unplaced]
    rw [hxy, htu]

theorem alike_ifStatement (hs : Alike (Like Stmt.unplaced) statement statement)
    (he : Alike (Like Expr.unplaced) expression expression) :
    Alike (Like Stmt.unplaced) (ifStatement statement expression)
      (ifStatement statement expression) := by
  refine .spanned (.andThen .advance fun _ => .bind he fun e f hef => .bind hs fun s t hst =>
    .andThen .eat fun _ => .ite (.bind hs fun s' t' hst' => .pure fun _ _ => ?_)
      (.pure fun _ _ => ?_))
  · simp only [Stmt.unplaced]
    rw [hef, hst, hst']
  · simp only [Stmt.unplaced]
    rw [hef, hst]

theorem alike_whileStatement (hs : Alike (Like Stmt.unplaced) statement statement)
    (he : Alike (Like Expr.unplaced) expression expression) :
    Alike (Like Stmt.unplaced) (whileStatement statement expression)
      (whileStatement statement expression) := by
  refine .spanned (.andThen .advance fun _ => .bind he fun e f hef => .bind hs fun s t hst =>
    .pure fun _ _ => ?_)
  simp only [Stmt.unplaced]
  rw [hef, hst]

theorem alike_structStatement : Alike (Like Stmt.unplaced) structStatement structStatement := by
  refine .spanned (.andThen .advance fun _ => .bind .identifier fun x y hxy =>
    .andThen .symbol fun _ => .bind (.items alike_typedName) fun as bs hab =>
      .andThen .symbol fun _ => .pure fun _ _ => ?_)
  simp only [Stmt.unplaced]
  rw [hxy, hab]

theorem alike_returnStatement (he : Alike (Like Expr.unplaced) expression expression) :
    Alike (Like Stmt.unplaced) (returnStatement expression) (returnStatement expression) := by
  refine .spanned (.andThen .advance fun _ => .andThen .peek fun _ => .ite (.pure fun _ _ => rfl)
    (.bind he fun e f hef => .pure fun _ _ => ?_))
  simp only [Stmt.unplaced]
  rw [hef]

theorem alike_statementBody (hs : Alike (Like Stmt.unplaced) statement statement)
    (he : Alike (Like Expr.unplaced) expression expression) :
    Alike (Like Stmt.unplaced) (statementBody statement expression)
      (statementBody statement expression) := by
  have hvalue : Alike (Like Stmt.unplaced)
      (do let value ← expression; pure (Stmt.expr value value.span))
      (do let value ← expression; pure (Stmt.expr value value.span)) := by
    refine .bind he fun e f hef => .pure ?_
    simp only [Like, Stmt.unplaced]
    rw [hef]
  refine .andThen .peek fun k => ?_
  cases k with
  | keyword w =>
    cases w with
    | let_ => exact alike_letStatement he
    | if_ => exact alike_ifStatement hs he
    | while_ => exact alike_whileStatement hs he
    | struct => exact alike_structStatement
    | return_ => exact alike_returnStatement he
    | _ => exact hvalue
  | symbol x =>
    cases x with
    | openBrace => exact alike_block hs
    | _ => exact hvalue
  | _ => exact hvalue

theorem alike_functionLiteral (hs : Alike (Like Stmt.unplaced) statement statement) :
    Alike (Like Expr.unplaced) (functionLiteral statement) (functionLiteral statement) := by
  refine .spanned (.andThen .advance fun _ => .andThen .symbol fun _ =>
    .bind (.items alike_typedName) fun as bs hab => .andThen .symbol fun _ =>
      .andThen .symbol fun _ => .bind alike_typeExpr fun t u htu => .andThen .symbol fun _ =>
        .bind hs fun s s' hss => .pure fun _ _ => ?_)
  simp only [Expr.new, Expr.unplaced, Form.unplaced]
  rw [hab, htu, hss]

theorem alike_field (he : Alike (Like Expr.unplaced) expression expression) :
    Alike (Like fun f : Ident × Expr => (f.1.unplaced, f.2.unplaced)) (field expression)
      (field expression) :=
  .bind .identifier fun _ _ hxy => .andThen .symbol fun _ => .bind he fun _ _ hef =>
    .pure (congrArg₂ Prod.mk hxy hef)

theorem alike_recordLiteral (he : Alike (Like Expr.unplaced) expression expression) :
    Alike (Like Expr.unplaced) (recordLiteral expression) (recordLiteral expression) := by
  rw [recordLiteral_eq]
  refine .spanned (.bind .identifier fun x y hxy => .andThen .symbol fun _ =>
    .bind (.items (alike_field he)) fun as bs hab => .andThen .symbol fun _ => .pure fun _ _ => ?_)
  simp only [Expr.new, Expr.unplaced, Form.unplaced, unplacedFields_eq_map]
  rw [hxy, hab]

theorem alike_group (he : Alike (Like Expr.unplaced) expression expression) :
    Alike (Like Expr.unplaced) (group expression) (group expression) := by
  refine .spanned (.andThen .advance fun _ => .bind he fun e f hef => .andThen .symbol fun _ =>
    .pure fun _ _ => ?_)
  simp only [Expr.new, Expr.unplaced, Form.unplaced]
  rw [hef]

theorem alike_named (he : Alike (Like Expr.unplaced) expression expression) (name : String) :
    Alike (Like Expr.unplaced) (named expression name) (named expression name) := by
  refine ⟨fun c d hcd => ?_⟩
  rw [named, named, hcd.startsRecord]
  split
  · exact (alike_recordLiteral he).run c d hcd
  · exact .some rfl hcd.advance

theorem alike_primary (he : Alike (Like Expr.unplaced) expression expression) :
    Alike (Like Expr.unplaced) (primary expression) (primary expression) := by
  rw [primary_eq]
  refine .bind .here fun _ _ _ => .andThen .peek fun k => ?_
  cases Literal.ofKind? k with
  | some l => exact .andThen .advance fun _ => .pure rfl
  | none =>
    cases k with
    | symbol x =>
      cases x with
      | openParen => exact alike_group he
      | _ => exact .fail
    | ident name => exact alike_named he name
    | _ => exact .fail

theorem alike_suffix (he : Alike (Like Expr.unplaced) expression expression) {e f : Expr}
    (hef : e.unplaced = f.unplaced) :
    Alike (Like Expr.unplaced) (suffix expression e) (suffix expression f) := by
  refine .andThen .eat fun _ => .ite (.bind .identifier fun x y hxy => .pure ?_)
    (.andThen .symbol fun _ => .bind (.items he) fun as bs hab => .bind .here fun _ _ _ =>
      .andThen .symbol fun _ => .pure ?_)
  · simp only [Like, Expr.new, Expr.unplaced, Form.unplaced]
    rw [hef, hxy]
  · simp only [Like, Expr.new, Expr.unplaced, Form.unplaced, unplacedArgs_eq_map]
    rw [hef, hab]

end Parts

end Parser

/-! ### Grammars -/

theorem Operator.unplaced_apply (op : Operator) {e e' f f' : Expr} (he : e.unplaced = e'.unplaced)
    (hf : f.unplaced = f'.unplaced) : (op.apply e f).unplaced = (op.apply e' f').unplaced := by
  cases op with
  | binary op =>
    simp only [apply, Expr.new, Expr.unplaced, Form.unplaced]
    rw [he, hf]
  | logical op =>
    simp only [apply, Expr.new, Expr.unplaced, Form.unplaced]
    rw [he, hf]

namespace Grammar

/-- The parsers of a grammar do the same wherever they see the same kinds. -/
structure Alike (g : Grammar) : Prop where
  statement : Parser.Alike (Like Stmt.unplaced) g.statement g.statement
  expression : Parser.Alike (Like Expr.unplaced) g.expression g.expression
  unary : Parser.Alike (Like Expr.unplaced) g.unary g.unary
  chain : ∀ l e f, e.unplaced = f.unplaced →
    Parser.Alike (Like Expr.unplaced) (g.chain l e) (g.chain l f)
  suffixes : ∀ e f, e.unplaced = f.unplaced →
    Parser.Alike (Like Expr.unplaced) (g.suffixes e) (g.suffixes f)

theorem Alike.operand {g : Grammar} (h : g.Alike) (l : Nat) :
    Parser.Alike (Like Expr.unplaced) (g.operand l) (g.operand l) := by
  induction l with
  | zero => exact h.unary
  | succ l ih => exact .bind ih (h.chain l)

section Around

variable {inner : Option Grammar}

theorem alike_nested {α β : Type} {R : α → β → Prop} {p : Grammar → Parser α}
    {q : Grammar → Parser β} (h : ∀ g, inner = some g → Parser.Alike R (p g) (q g)) :
    Parser.Alike R (nested inner p) (nested inner q) := by
  cases inner with
  | none => exact .fail
  | some g => exact h g rfl

variable (h : ∀ g, inner = some g → g.Alike)
include h

theorem alike_statementAround :
    Parser.Alike (Like Stmt.unplaced) (statementAround inner) (statementAround inner) :=
  alike_nested fun g hg => Parser.alike_statementBody (h g hg).statement (h g hg).expression

theorem alike_expressionAround :
    Parser.Alike (Like Expr.unplaced) (expressionAround inner) (expressionAround inner) :=
  alike_nested fun g hg => (h g hg).operand _

theorem alike_suffixesAround (e f : Expr) (hef : e.unplaced = f.unplaced) :
    Parser.Alike (Like Expr.unplaced) (suffixesAround inner e) (suffixesAround inner f) := by
  have hnested : Parser.Alike (Like Expr.unplaced)
      (nested inner fun g => do g.suffixes (← Parser.suffix g.expression e))
      (nested inner fun g => do g.suffixes (← Parser.suffix g.expression f)) :=
    alike_nested fun g hg =>
      .bind (Parser.alike_suffix (h g hg).expression hef) (h g hg).suffixes
  refine .andThen .peek fun k => ?_
  cases k with
  | symbol x =>
    cases x with
    | openParen => exact hnested
    | dot => exact hnested
    | _ => exact .pure hef
  | _ => exact .pure hef

theorem alike_unaryAround :
    Parser.Alike (Like Expr.unplaced) (unaryAround inner) (unaryAround inner) := by
  refine .bind .here fun _ _ _ => .andThen .peek fun k => ?_
  cases UnaryOp.ofKind? k with
  | some op =>
    refine .andThen .advance fun _ => .bind (alike_nested fun g hg => (h g hg).unary)
      fun e f hef => .pure ?_
    simp only [Like, Expr.new, Expr.unplaced, Form.unplaced]
    rw [hef]
  | none =>
    exact .ite (Parser.alike_functionLiteral (alike_statementAround h))
      (.bind (Parser.alike_primary (alike_expressionAround h)) (alike_suffixesAround h))

theorem alike_chainAround (l : Nat) (e f : Expr) (hef : e.unplaced = f.unplaced) :
    Parser.Alike (Like Expr.unplaced) (chainAround inner l e) (chainAround inner l f) := by
  refine .andThen .peek fun k => ?_
  cases Operator.at? l k with
  | none => exact .pure hef
  | some op =>
    exact alike_nested fun g hg => .andThen .advance fun _ => .bind ((h g hg).operand l)
      fun r r' hr => (h g hg).chain l _ _ (op.unplaced_apply hef hr)

theorem alike_around : (around inner).Alike :=
  ⟨alike_statementAround h, alike_expressionAround h, alike_unaryAround h, alike_chainAround h,
    alike_suffixesAround h⟩

end Around

theorem alike_allowing (n : Nat) : (allowing n).Alike := by
  induction n with
  | zero => exact alike_around (by simp)
  | succ n ih =>
    refine alike_around fun g hg => ?_
    obtain rfl := Option.some.inj hg
    exact ih

end Grammar

theorem isEmpty_unplacedAll (ss : List Stmt) : (unplacedAll ss).isEmpty = ss.isEmpty := by
  cases ss <;> rfl

/-- Tokens of the same kinds are read alike: there is no program for both, or programs that are the
same up to the places of their nodes, and the faults have the same causes in the same order. -/
theorem parse_unplaced {ts us : List Token} (h : ts.map Token.kind = us.map Token.kind) :
    (parse ts).program.map Program.unplaced = (parse us).program.map Program.unplaced ∧
    (parse ts).faults.map Located.cause = (parse us).faults.map Located.cause := by
  have hstatement := (Grammar.alike_allowing GrammarCause.maxNesting).statement
  have hrun := (@Parser.Alike.body (· == .eof) _ _ hstatement).run _ _ (alike_ofTokens h)
  rw [Parser.body, Parser.body] at hrun
  rw [parse, parse, Grammar.full]
  dsimp only
  generalize Parser.statements (· == .eof) _ (Cursor.ofTokens ts) = r at hrun ⊢
  generalize Parser.statements (· == .eof) _ (Cursor.ofTokens us) = r' at hrun ⊢
  rcases r with ⟨ss, c⟩
  rcases r' with ⟨ss', d⟩
  cases hrun with
  | some hss hcd =>
    have hbody : unplacedAll ss = unplacedAll ss' := hss
    have hempty : ss.isEmpty = ss'.isEmpty := by
      rw [← isEmpty_unplacedAll, hbody, isEmpty_unplacedAll]
    have hfaults : c.faults.nonempty = d.faults.nonempty := by
      have htotal := congrArg Capped.total hcd.causes
      rw [Capped.nonempty, Capped.nonempty]
      exact congrArg (fun n => decide (0 < n)) htotal
    refine ⟨?_, hcd.causes⟩
    dsimp only
    rw [hempty, hfaults]
    split
    · rfl
    · exact congrArg (fun b => some (Program.mk b default)) hbody

end RecordLang
