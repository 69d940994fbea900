import RecordLang.Proofs.Program.Moves

/-!
# Invariants of cursors

What advancing and reporting keep is kept by every parser of the grammar
(`Grammar.preserving_allowing`), whatever it yields: parsers reach the cursor in no other way. In
particular every fault stands at a token (`parse_faults`).
-/

namespace RecordLang

/-- Advancing and reporting keep this. -/
class Cursor.Invariant (I : Cursor → Prop) : Prop where
  advance : ∀ {c : Cursor}, I c → I c.advance
  report : ∀ {c : Cursor} (cause : GrammarCause), I c → I (c.report cause)

namespace Cursor.Invariant

variable {I : Cursor → Prop} [Invariant I] {c : Cursor}

theorem skip (h : I c) : I c.skip := by
  rcases c with ⟨last, current, ahead, faults⟩
  induction ahead generalizing last current with
  | nil => exact h
  | cons t ts ih =>
    by_cases hk : resumes current.kind = true
    · rw [skip_of_resumes (c := ⟨last, current, t :: ts, faults⟩) hk]
      exact h
    · rw [skip_of_not_resumes (c := ⟨last, current, t :: ts, faults⟩) rfl (Bool.eq_false_iff.mpr hk)]
      exact ih current.span t (advance h)

theorem resync (h : I c) (start : Cursor) : I (c.resync start) := by
  rw [Cursor.resync]
  split
  · exact skip (advance h)
  · exact skip h

end Cursor.Invariant

/-- Every run of the parser keeps this. -/
class Parser.Preserving {α : Type} (I : Cursor → Prop) (p : Parser α) : Prop where
  keeps : ∀ {c : Cursor}, I c → I (p c).2

namespace Parser

open Cursor (Invariant)

variable {α β : Type} {I : Cursor → Prop} {p : Parser α} {f : α → Parser β}

theorem Preserving.of_run [Preserving I p] {c d : Cursor} {r : Option α} (h : I c)
    (hrun : p c = (r, d)) : I d := by
  have hkeeps := Preserving.keeps (p := p) h
  rwa [hrun] at hkeeps

instance {a : α} : Preserving I (pure a : Parser α) := ⟨fun h => h⟩

instance preserving_bind [Preserving I p] [∀ a, Preserving I (f a)] : Preserving I (p >>= f) := by
  refine ⟨fun {c} h => ?_⟩
  rw [bind_apply]
  rcases hp : p c with ⟨_ | a, d⟩
  · exact Preserving.of_run h hp
  · exact Preserving.keeps (p := f a) (Preserving.of_run h hp)

instance : Preserving I peek := ⟨fun h => h⟩

instance : Preserving I here := ⟨fun h => h⟩

instance [Invariant I] : Preserving I advance := ⟨fun h => Invariant.advance h⟩

instance [Invariant I] {cause : GrammarCause} : Preserving I (fail cause : Parser α) :=
  ⟨fun h => Invariant.report cause h⟩

instance {P : Prop} [Decidable P] {q : Parser α} [Preserving I p] [Preserving I q] :
    Preserving I (if P then p else q) := by
  split <;> infer_instance

/-- A parser that looks at the current kind first. -/
theorem Preserving.of_peek {f : Kind → Parser α} (h : ∀ k, Preserving I (f k)) :
    Preserving I (peek >>= f) :=
  inferInstance

instance preserving_spanned {p : Parser (Span → α)} [Preserving I p] : Preserving I (spanned p) := by
  refine ⟨fun {c} h => ?_⟩
  rw [spanned]
  rcases hp : p c with ⟨_ | a, d⟩
  · exact Preserving.of_run h hp
  · exact Preserving.of_run h hp

section Grammar

variable [Invariant I]

instance {k : Kind} : Preserving I (expect k) := by
  unfold expect
  infer_instance

instance {x : Symbol} : Preserving I (symbol x) := by
  unfold symbol
  infer_instance

instance {k : Kind} : Preserving I (eat k) := by
  unfold eat
  infer_instance

instance : Preserving I identifier := by
  unfold identifier
  refine @preserving_bind _ _ _ _ _ _ fun span => .of_peek fun k => ?_
  split <;> infer_instance

instance preserving_items {close : Symbol} [Preserving I p] : Preserving I (items close p) := by
  refine ⟨fun {c} h => ?_⟩
  fun_induction items close p c with
  | case1 c hend => exact h
  | case2 c hend d hp => exact Preserving.of_run h hp
  | case3 c hend a d hp hcomma hlt as e he ih =>
    rw [he] at ih
    exact ih (Invariant.advance (Preserving.of_run h hp))
  | case4 c hend a d hp hcomma hlt e he ih =>
    rw [he] at ih
    exact ih (Invariant.advance (Preserving.of_run h hp))
  | case5 c hend a d hp hcomma hlt => exact Invariant.advance (Preserving.of_run h hp)
  | case6 c hend a d hp hcomma => exact Preserving.of_run h hp

-- as for faults, instances do not see that a list of items is a parser
instance {close : Symbol} {f : List α → Parser β} [Preserving I p] [∀ as, Preserving I (f as)] :
    Preserving I (do f (← items close p)) :=
  preserving_bind (p := items close p)

instance preserving_body {ends : Kind → Bool} {p : Parser Stmt} [Preserving I p] :
    Preserving I (body ends p) := by
  refine ⟨fun {c} h => ?_⟩
  show I (statements ends p c).2
  fun_induction statements ends p c with
  | case1 c hend => exact h
  | case2 c hend s d hp hlt ss e he ih =>
    rw [he] at ih
    exact ih (Preserving.of_run h hp)
  | case3 c hend s d hp hlt => exact Preserving.of_run h hp
  | case4 c hend d hp hlt ih => exact ih (Invariant.resync (Preserving.of_run h hp) c)
  | case5 c hend d hp hlt => exact Invariant.resync (Preserving.of_run h hp) c

instance preserving_typeExprWithin (depth : Nat) : Preserving I (typeExprWithin depth) := by
  induction depth with
  | zero =>
    unfold typeExprWithin
    infer_instance
  | succ depth ih =>
    unfold typeExprWithin
    refine @preserving_spanned _ _ _ (.of_peek fun k => ?_)
    split <;> infer_instance

instance : Preserving I typeExpr :=
  ⟨fun {c} h => Preserving.keeps (p := typeExprWithin (c.remaining + 1)) h⟩

instance : Preserving I typedName := by
  unfold typedName
  infer_instance

section Parts

variable {statement : Parser Stmt} {expression : Parser Expr} [Preserving I statement]
  [Preserving I expression]

instance : Preserving I (block statement) := by
  rw [block_eq]
  infer_instance

instance : Preserving I (statementBody statement expression) := by
  unfold statementBody
  refine .of_peek fun k => ?_
  split
  · unfold letStatement; infer_instance
  · infer_instance
  · unfold ifStatement; infer_instance
  · unfold whileStatement; infer_instance
  · unfold structStatement; infer_instance
  · unfold returnStatement; infer_instance
  · infer_instance

set_option synthInstance.maxSize 400 in
instance : Preserving I (functionLiteral statement) := by
  unfold functionLiteral
  infer_instance

instance : Preserving I (field expression) := by
  unfold field
  infer_instance

instance : Preserving I (recordLiteral expression) := by
  rw [recordLiteral_eq]
  infer_instance

instance : Preserving I (group expression) := by
  unfold group
  infer_instance

instance : Preserving I (primary expression) := by
  refine ⟨fun {c} h => ?_⟩
  unfold primary
  split
  · exact Invariant.advance h
  · split
    · exact Preserving.keeps (p := group expression) h
    · split
      · exact Preserving.keeps (p := recordLiteral expression) h
      · exact Invariant.advance h
    · exact Invariant.report _ h

instance {e : Expr} : Preserving I (suffix expression e) := by
  unfold suffix
  infer_instance

end Parts

end Grammar

end Parser

/-! ### The grammar -/

namespace Grammar

open RecordLang.Parser

/-- All parsers of a grammar keep this. -/
structure Preserving (I : Cursor → Prop) (g : Grammar) : Prop where
  statement : Parser.Preserving I g.statement
  expression : Parser.Preserving I g.expression
  unary : Parser.Preserving I g.unary
  chain : ∀ l left, Parser.Preserving I (g.chain l left)
  suffixes : ∀ e, Parser.Preserving I (g.suffixes e)

variable {I : Cursor → Prop}

theorem Preserving.operand {g : Grammar} (h : g.Preserving I) (l : Nat) :
    Parser.Preserving I (g.operand l) := by
  induction l with
  | zero => exact h.unary
  | succ l ih =>
    have hc := h.chain l
    unfold Grammar.operand
    infer_instance

variable [Cursor.Invariant I] {inner : Option Grammar}

theorem preserving_nested {α : Type} {p : Grammar → Parser α}
    (h : ∀ g, inner = some g → Parser.Preserving I (p g)) :
    Parser.Preserving I (nested inner p) := by
  cases inner with
  | none => exact inferInstanceAs (Parser.Preserving I (fail _))
  | some g => exact h g rfl

theorem preserving_around (h : ∀ g, inner = some g → g.Preserving I) :
    (around inner).Preserving I := by
  have hs : Parser.Preserving I (statementAround inner) := preserving_nested fun g hg => by
    have := (h g hg).statement
    have := (h g hg).expression
    infer_instance
  have he : Parser.Preserving I (expressionAround inner) :=
    preserving_nested fun g hg => (h g hg).operand _
  have hx : ∀ e, Parser.Preserving I (suffixesAround inner e) := fun e => .of_peek fun k => by
    have hn : Parser.Preserving I (nested inner fun g => do g.suffixes (← suffix g.expression e)) :=
      preserving_nested fun g hg => by
        have := (h g hg).expression
        have := (h g hg).suffixes
        infer_instance
    split <;> infer_instance
  have hu : Parser.Preserving I (unaryAround inner) := by
    have hn : Parser.Preserving I (nested inner fun g => g.unary) :=
      preserving_nested fun g hg => (h g hg).unary
    refine @preserving_bind _ _ _ _ _ _ fun start => .of_peek fun k => ?_
    split <;> infer_instance
  have hc : ∀ l left, Parser.Preserving I (chainAround inner l left) := fun l left =>
    .of_peek fun k => by
      split
      · infer_instance
      · refine preserving_nested fun g hg => ?_
        have := (h g hg).operand l
        have := (h g hg).chain l
        infer_instance
  exact ⟨hs, he, hu, hc, hx⟩

theorem preserving_allowing (n : Nat) : (allowing n).Preserving I := by
  induction n with
  | zero => exact preserving_around (by simp)
  | succ n ih => exact preserving_around fun _ hg => Option.some.inj hg ▸ ih

end Grammar

/-! ### Where faults stand -/

/-- The spans of the tokens ahead and of the faults have `S`. -/
structure Cursor.Within (S : Span → Prop) (c : Cursor) : Prop where
  tokens : ∀ t ∈ c.tokens, S t.span
  faults : ∀ f ∈ c.faults.kept, S f.span

instance {S : Span → Prop} : Cursor.Invariant (Cursor.Within S) where
  advance := by
    rintro ⟨last, current, _ | ⟨t, ts⟩, faults⟩ h
    · exact h
    · exact ⟨(List.forall_mem_cons.mp h.tokens).2, h.faults⟩
  report := by
    intro c cause h
    refine ⟨h.tokens, fun f hf => ?_⟩
    rcases Capped.mem_kept_push hf with hf | rfl
    · exact h.faults f hf
    · exact h.tokens c.current List.mem_cons_self

/-- The end of the text that is put behind some tokens stands at the last of them. -/
theorem Cursor.within_closed {S : Span → Prop} {t : Token} {ts : List Token} (ht : S t.span)
    (hts : ∀ u ∈ ts, S u.span) : ∀ u ∈ Cursor.closed t ts, S u.span := by
  induction ts generalizing t with
  | nil =>
    intro u hu
    rw [Cursor.closed] at hu
    split at hu
    · cases hu
    · rw [List.mem_singleton.mp hu]
      exact ht
  | cons v ts ih =>
    obtain ⟨hv, hts⟩ := List.forall_mem_cons.mp hts
    exact List.forall_mem_cons.mpr ⟨hv, ih hv hts⟩

theorem Cursor.within_ofTokens {S : Span → Prop} {tokens : List Token}
    (horigin : S (.point .origin)) (h : ∀ t ∈ tokens, S t.span) :
    (Cursor.ofTokens tokens).Within S := by
  cases tokens with
  | nil =>
    refine ⟨fun t ht => ?_, fun f hf => ?_⟩
    · rw [List.mem_singleton.mp ht]
      exact horigin
    · cases hf
  | cons t ts =>
    obtain ⟨ht, hts⟩ := List.forall_mem_cons.mp h
    refine ⟨List.forall_mem_cons.mpr ⟨ht, Cursor.within_closed ht hts⟩, fun f hf => ?_⟩
    cases hf

/-- Every fault stands at a token, or at the origin if there are none. -/
theorem parse_faults {tokens : List Token} {S : Span → Prop} (horigin : S (.point .origin))
    (h : ∀ t ∈ tokens, S t.span) : ∀ f ∈ (parse tokens).faults.kept, S f.span := by
  have hfull : Parser.Preserving (Cursor.Within S) Grammar.full.statement :=
    (Grammar.preserving_allowing GrammarCause.maxNesting).statement
  have hend : (Parser.body (· == .eof) Grammar.full.statement (Cursor.ofTokens tokens)).2.Within S :=
    Parser.Preserving.keeps (Cursor.within_ofTokens horigin h)
  exact hend.faults

end RecordLang
