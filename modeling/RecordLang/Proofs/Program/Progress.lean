import RecordLang.Proofs.Program.Complete
import RecordLang.Proofs.Program.Steady

/-!
# Reading goes forward and ends

All parsers of the grammar are steady (`Grammar.steady_allowing`), so the bounds in their definitions
are never reached: a written type is read as if its nesting were not bounded
(`Parser.typeExpr_unbounded`), no list of items is cut off, and statements are read in rounds
(`Parser.Rounds`) until they are over, each of which begins further ahead than the one before.
-/

namespace RecordLang

namespace Parser

/-! ### Types -/

theorem steady_typeExprWithin (depth : Nat) : Steady true (typeExprWithin depth) := by
  induction depth with
  | zero => exact .peek fun _ _ => .fail
  | succ depth ih =>
    refine .spanned (.peek fun k _ => ?_)
    split
    · exact .andThen (.advanceAt (by simp)) fun _ => .bind (.eat (by simp)) fun _ => .pure
    · exact .andThen (.advanceAt (by simp)) fun _ => .bind (.eat (by simp)) fun _ => .pure
    · exact .andThen (.advanceAt (by simp)) fun _ => .bind (.items ih) fun _ =>
        .bind .symbol fun _ => .bind .symbol fun _ => .bind ih.any fun _ => .pure
    · exact .fail

theorem steady_typeExpr : Steady true typeExpr := by
  refine ⟨fun c hc _ => ?_⟩
  obtain ⟨o, ho, hs, hsame⟩ := (steady_typeExprWithin (c.remaining + 1)).run c hc trivial
  refine ⟨o, ho.congr rfl, hs, fun c' hts hr hr' => (hsame c' hts hr hr').congr ?_⟩
  rw [typeExpr, Cursor.remaining_congr hts]

theorem steady_typedName : Steady true typedName :=
  .spanned (.andThen .identifier fun _ => .bind .symbol fun _ => .bind steady_typeExpr.any fun _ =>
    .pure)

/-! ### Statements -/

section Parts

variable {statement : Parser Stmt} {expression : Parser Expr}

theorem steady_letStatement (he : Steady true expression) :
    SteadyAt (· ≠ .eof) true (letStatement expression) :=
  .spanned (.andThen (.advance fun _ hk => hk) fun _ => .bind .identifier fun _ =>
    .bind .symbol fun _ => .bind steady_typeExpr.any fun _ => .bind (.eat nofun) fun _ =>
      .ite (.bind he.any fun _ => .pure) .pure)

theorem steady_block (hs : Steady true statement) : Steady true (block statement) := by
  rw [block_eq]
  exact .spanned (.andThen .symbol fun _ => .bind (.body hs rfl) fun _ => .bind .symbol fun _ =>
    .pure)

theorem steady_ifStatement (hs : Steady true statement) (he : Steady true expression) :
    SteadyAt (· ≠ .eof) true (ifStatement statement expression) :=
  .spanned (.andThen (.advance fun _ hk => hk) fun _ => .bind he.any fun _ =>
    .bind hs.any fun _ => .bind (.eat nofun) fun _ =>
      .ite (.bind hs.any fun _ => .pure) .pure)

theorem steady_whileStatement (hs : Steady true statement) (he : Steady true expression) :
    SteadyAt (· ≠ .eof) true (whileStatement statement expression) :=
  .spanned (.andThen (.advance fun _ hk => hk) fun _ => .bind he.any fun _ =>
    .bind hs.any fun _ => .pure)

theorem steady_structStatement : SteadyAt (· ≠ .eof) true structStatement :=
  .spanned (.andThen (.advance fun _ hk => hk) fun _ => .bind .identifier fun _ =>
    .bind .symbol fun _ => .bind (.items steady_typedName) fun _ => .bind .symbol fun _ => .pure)

theorem steady_returnStatement (he : Steady true expression) :
    SteadyAt (· ≠ .eof) true (returnStatement expression) :=
  .spanned (.andThen (.advance fun _ hk => hk) fun _ => .peek fun _ _ =>
    .ite .pure (.bind (he.any.mono fun _ _ => trivial) fun _ => .pure))

theorem steady_statementBody (hs : Steady true statement) (he : Steady true expression) :
    Steady true (statementBody statement expression) := by
  refine .peek fun k _ => ?_
  split
  · exact (steady_letStatement he).mono (by simp)
  · exact (steady_block hs).mono fun _ _ => trivial
  · exact (steady_ifStatement hs he).mono (by simp)
  · exact (steady_whileStatement hs he).mono (by simp)
  · exact steady_structStatement.mono (by simp)
  · exact (steady_returnStatement he).mono (by simp)
  · exact .andThen (he.mono fun _ _ => trivial) fun _ => .pure

/-! ### Expressions -/

theorem steady_functionLiteral (hs : Steady true statement) :
    SteadyAt (· ≠ .eof) true (functionLiteral statement) :=
  .spanned (.andThen (.advance fun _ hk => hk) fun _ => .bind .symbol fun _ =>
    .bind (.items steady_typedName) fun _ => .bind .symbol fun _ => .bind .symbol fun _ =>
      .bind steady_typeExpr.any fun _ => .bind .symbol fun _ => .bind hs.any fun _ => .pure)

theorem steady_field (he : Steady true expression) : Steady true (field expression) :=
  .andThen .identifier fun _ => .bind .symbol fun _ => .bind he.any fun _ => .pure

theorem steady_recordLiteral (he : Steady true expression) :
    Steady true (recordLiteral expression) := by
  rw [recordLiteral_eq]
  exact .spanned (.andThen .identifier fun _ => .bind .symbol fun _ =>
    .bind (.items (steady_field he)) fun _ => .bind .symbol fun _ => .pure)

theorem steady_group (he : Steady true expression) : SteadyAt (· ≠ .eof) true (group expression) :=
  .spanned (.andThen (.advance fun _ hk => hk) fun _ => .bind he.any fun _ =>
    .bind .symbol fun _ => .pure)

/-- A variable or, if what follows the name says so, a record literal. -/
def named (expression : Parser Expr) (name : String) : Parser Expr := fun c =>
  if startsRecord name c then recordLiteral expression c
  else (some (.new (.variable name) c.current.span), c.advance)

/-- The kind of the current token decides what is read. -/
theorem primary_eq : primary expression = (do
    let span ← here
    let k ← peek
    match Literal.ofKind? k with
    | some l =>
      advance
      pure (.new (.literal l) span)
    | none =>
      match k with
      | .symbol .openParen => group expression
      | .ident name => named expression name
      | _ => fail (.expectedExpression k)) := by
  funext c
  rw [bind_apply]
  simp only [here]
  rw [bind_apply]
  simp only [primary, peek]
  cases Literal.ofKind? c.kind with
  | some l => rfl
  | none =>
    cases c.kind with
    | symbol x => cases x <;> rfl
    | _ => rfl

theorem steady_named (he : Steady true expression) {name : String} :
    SteadyAt (· = .ident name) true (named expression name) := by
  refine .choose (fun c c' hts => ?_) ((steady_recordLiteral he).mono fun _ _ => trivial)
    (.token (fun _ hk => hk ▸ nofun) fun c c' hts => by rw [Cursor.current_congr hts])
  simp only [startsRecord, Cursor.peekAhead, Cursor.ahead_congr hts]

theorem steady_primary (he : Steady true expression) : Steady true (primary expression) := by
  rw [primary_eq]
  refine .here fun span => .peek fun k _ => ?_
  split
  · next l hl =>
    have hk : k ≠ .eof := by
      rintro rfl
      cases hl
    exact .andThen (.advanceAt hk) fun _ => .pure
  · split
    · exact (steady_group he).mono (by simp)
    · exact steady_named he
    · exact .fail

theorem steady_suffix (he : Steady true expression) (e : Expr) :
    Steady true (suffix expression e) :=
  .bind (.eat nofun) fun _ => .ite (.andThen .identifier fun _ => .pure)
    (.andThen .symbol fun _ => .bind (.items he) fun _ => .here fun _ => .bind .symbol fun _ =>
      .pure)

end Parts

end Parser

/-! ### The grammar -/

namespace Grammar

open RecordLang.Parser

/-- All parsers of a grammar are steady. -/
structure Steady (g : Grammar) : Prop where
  statement : Parser.Steady true g.statement
  expression : Parser.Steady true g.expression
  unary : Parser.Steady true g.unary
  chain : ∀ l left, Parser.Steady false (g.chain l left)
  suffixes : ∀ e, Parser.Steady false (g.suffixes e)

theorem Steady.operand {g : Grammar} (h : g.Steady) (l : Nat) :
    Parser.Steady true (g.operand l) := by
  induction l with
  | zero => exact h.unary
  | succ l ih => exact .andThen ih fun left => h.chain l left

theorem steady_nested {α : Type} {inner : Option Grammar} {p : Grammar → Parser α}
    {P : Kind → Prop} {s : Bool} (h : ∀ g, inner = some g → SteadyAt P s (p g)) :
    SteadyAt P s (nested inner p) := by
  cases inner with
  | none => exact .fail
  | some g => exact h g rfl

section Around

variable {inner : Option Grammar} (h : ∀ g, inner = some g → g.Steady)

include h

theorem steady_statementAround : Parser.Steady true (statementAround inner) :=
  steady_nested fun g hg => steady_statementBody (h g hg).statement (h g hg).expression

theorem steady_expressionAround : Parser.Steady true (expressionAround inner) :=
  steady_nested fun g hg => (h g hg).operand _

theorem steady_suffixesAround (e : Expr) : Parser.Steady false (suffixesAround inner e) := by
  refine .peek fun k _ => ?_
  have hnested : Parser.Steady false
      (nested inner fun g => do g.suffixes (← suffix g.expression e)) :=
    steady_nested fun g hg => .bind (steady_suffix (h g hg).expression e).any (h g hg).suffixes
  split
  · exact hnested.mono fun _ _ => trivial
  · exact hnested.mono fun _ _ => trivial
  · exact .pure

theorem steady_unaryAround : Parser.Steady true (unaryAround inner) := by
  refine .here fun start => .peek fun k _ => ?_
  split
  · next op hop =>
    have hk : k ≠ .eof := by
      rintro rfl
      cases hop
    exact .andThen (.advanceAt hk) fun _ =>
      .bind (steady_nested fun g hg => (h g hg).unary.any) fun _ => .pure
  · split
    · next hfn =>
      exact (steady_functionLiteral (steady_statementAround h)).mono fun _ hk => hk ▸ hfn ▸ nofun
    · exact .andThen ((steady_primary (steady_expressionAround h)).mono fun _ _ => trivial)
        (steady_suffixesAround h)

theorem steady_chainAround (l : Nat) (left : Expr) :
    Parser.Steady false (chainAround inner l left) := by
  refine .peek fun k _ => ?_
  split
  · exact .pure
  · next op hop =>
    have hk : k ≠ .eof := by
      rintro rfl
      cases hop
    exact steady_nested fun g hg => .bind (.advanceAt hk) fun _ =>
      .bind ((h g hg).operand l).any fun _ => (h g hg).chain l _

theorem steady_around : (around inner).Steady :=
  ⟨steady_statementAround h, steady_expressionAround h, steady_unaryAround h, steady_chainAround h,
    steady_suffixesAround h⟩

end Around

theorem steady_allowing (n : Nat) : (allowing n).Steady := by
  induction n with
  | zero => exact steady_around (by simp)
  | succ n ih => exact steady_around fun _ hg => Option.some.inj hg ▸ ih

end Grammar

/-! ### Types inside types -/

namespace Parser

section Agreement

variable {α β : Type} {n : Nat} {p q : Parser α}

/-- The runs are the same wherever there are fewer tokens ahead. -/
def Agree (n : Nat) (p q : Parser α) : Prop := ∀ c : Cursor, c.Closed → c.remaining < n → p c = q c

theorem Agree.bind {f g : α → Parser β} (hp : Steady false p) (h : Agree n p q)
    (hf : ∀ a, Agree n (f a) (g a)) : Agree n (p >>= f) (q >>= g) := by
  intro c hc hn
  rw [bind_apply, bind_apply, ← h c hc hn]
  rcases hpc : p c with ⟨_ | a, d⟩
  · rfl
  · obtain ⟨passed, hmoves, -⟩ := hp.moves_of_run hc hpc
    exact hf a d (hmoves.closed hc) (Nat.lt_of_le_of_lt hmoves.remaining_le hn)

theorem Agree.peek {f g : Kind → Parser α}
    (h : ∀ k (c : Cursor), c.Closed → c.kind = k → c.remaining < n → f k c = g k c) :
    Agree n (peek >>= f) (peek >>= g) :=
  fun c hc hn => h c.kind c hc rfl hn

theorem Agree.spanned {p q : Parser (Span → α)} (h : Agree n p q) :
    Agree n (spanned p) (spanned q) := by
  intro c hc hn
  rw [SteadyAt.spanned_eq, SteadyAt.spanned_eq, h c hc hn]

theorem Agree.items {close : Symbol} (hp : Steady true p) (hq : Steady true q) (h : Agree n p q) :
    Agree n (items close p) (items close q) := by
  intro c hc hn
  induction hm : c.remaining using Nat.strongRecOn generalizing c with
  | ind m ih =>
  subst hm
  cases hopen : c.sees close || c.atEnd with
  | true => rw [Parser.items, Parser.items, if_pos hopen, if_pos hopen]
  | false =>
    rw [items_unguarded hp hc hopen, items_unguarded hq hc hopen, ← h c hc hn]
    rcases hpc : p c with ⟨_ | a, d⟩
    · rfl
    · obtain ⟨passed, hmoves, hne⟩ := hp.moves_of_run hc hpc
      have hlt := hmoves.remaining_lt (hne rfl (Option.some_ne_none a))
      have hd := hmoves.closed hc
      cases hcomma : d.sees .comma with
      | false =>
        simp only [hcomma]
        rfl
      | true =>
        have hk : d.kind ≠ .eof := by rw [Cursor.sees_iff.mp hcomma]; exact nofun
        have hadv := (Cursor.Moves.advance hd hk).remaining_le
        have hrest := ih _ (Nat.lt_of_le_of_lt hadv hlt) d.advance hd.advance (by omega) rfl
        simp only [hcomma, if_true, hrest]

end Agreement

/-- The parameters and the result of a function type, given the parser for the types inside it. -/
def functionType (inner : Parser TypeExpr) : Parser (Span → TypeExpr) := do
  let params ← items .closeParen inner
  symbol .closeParen
  symbol .arrow
  let result ← inner
  pure (.function params result)

/-- A written type, given the parser for the types inside it. -/
def typeExprOf (inner : Parser TypeExpr) : Parser TypeExpr := spanned do
  match ← peek with
  | .ident name =>
    advance
    let optional ← eat (.symbol .question)
    pure (.named name optional)
  | .keyword .null =>
    advance
    let optional ← eat (.symbol .question)
    pure (.named "null" optional)
  | .symbol .openParen =>
    advance
    functionType inner
  | k => fail (.expectedType k)

theorem typeExprWithin_succ (depth : Nat) :
    typeExprWithin (depth + 1) = typeExprOf (typeExprWithin depth) := rfl

section Types

variable {n : Nat} {p q : Parser TypeExpr}

theorem Agree.functionType (hp : Steady true p) (hq : Steady true q) (h : Agree n p q) :
    Agree n (functionType p) (functionType q) :=
  .bind (.items hp) (.items hp hq h) fun _ => .bind .symbol (fun _ _ _ => rfl) fun _ =>
    .bind .symbol (fun _ _ _ => rfl) fun _ => .bind hp.any h fun _ _ _ _ => rfl

/-- The types inside a type have fewer tokens ahead. -/
theorem Agree.typeExprOf (hp : Steady true p) (hq : Steady true q) (h : Agree n p q) :
    Agree (n + 1) (typeExprOf p) (typeExprOf q) := by
  refine .spanned (.peek fun k c hc hk hn => ?_)
  cases k with
  | symbol x =>
    cases x with
    | openParen =>
      have hmoves := Cursor.Moves.advance hc (by rw [hk]; exact nofun)
      have hlt := hmoves.remaining_lt (List.cons_ne_nil _ _)
      exact h.functionType hp hq c.advance hc.advance (by omega)
    | _ => rfl
  | keyword w => cases w <;> rfl
  | _ => rfl

/-- A bound above the number of tokens ahead is as good as any other. -/
theorem agree_typeExprWithin (n m : Nat) : Agree n (typeExprWithin n) (typeExprWithin (n + m)) := by
  induction n with
  | zero => exact fun _ _ hn => absurd hn (Nat.not_lt_zero _)
  | succ n ih =>
    rw [Nat.succ_add, typeExprWithin_succ, typeExprWithin_succ]
    exact ih.typeExprOf (steady_typeExprWithin _) (steady_typeExprWithin _)

theorem agree_typeExpr (n : Nat) : Agree n (typeExprWithin n) typeExpr := by
  intro c hc hn
  have hagree := agree_typeExprWithin (c.remaining + 1) (n - (c.remaining + 1)) c hc
    (Nat.lt_succ_self _)
  have hsum : c.remaining + 1 + (n - (c.remaining + 1)) = n := by omega
  rw [hsum] at hagree
  exact hagree.symm

/-- The bound on the nesting of types is never reached. -/
theorem typeExpr_unbounded {c : Cursor} (hc : c.Closed) : typeExpr c = typeExprOf typeExpr c :=
  (agree_typeExpr c.remaining).typeExprOf (steady_typeExprWithin _) steady_typeExpr c hc
    (Nat.lt_succ_self _)

end Types

/-! ### Rounds over statements -/

section Rounds

variable {ends : Kind → Bool} {p : Parser Stmt} {c d : Cursor}

/-- A round reads a statement, or it goes on behind one that has failed. -/
inductive Round (ends : Kind → Bool) (p : Parser Stmt) (c : Cursor) : Option Stmt → Cursor → Prop
  | read {s : Stmt} {d : Cursor} (hopen : (ends c.kind || c.faults.full) = false)
    (h : p c = (some s, d)) : Round ends p c (some s) d
  | failed {d : Cursor} (hopen : (ends c.kind || c.faults.full) = false) (h : p c = (none, d)) :
    Round ends p c none (d.resync c)

/-- Rounds one after the other, with the statements that are read. -/
inductive Rounds (ends : Kind → Bool) (p : Parser Stmt) : Cursor → List Stmt → Cursor → Prop
  | start (c : Cursor) : Rounds ends p c [] c
  | round {c d e : Cursor} {s : Option Stmt} {ss : List Stmt} (first : Round ends p c s d)
    (rest : Rounds ends p d ss e) : Rounds ends p c (s.toList ++ ss) e

/-- Every round goes forward. -/
theorem Round.moves (hp : Steady true p) (hends : ends .eof = true) (hc : c.Closed)
    {s : Option Stmt} (h : Round ends p c s d) : ∃ passed, passed ≠ [] ∧ c.Moves passed d := by
  cases h with
  | read hopen hpc =>
    obtain ⟨passed, hmoves, hne⟩ := hp.moves_of_run hc hpc
    exact ⟨passed, hne rfl (Option.some_ne_none _), hmoves⟩
  | @failed e hopen hpc =>
    obtain ⟨passed, hmoves, -⟩ := hp.moves_of_run hc hpc
    have hk : c.kind ≠ .eof := by
      intro he
      rw [he, hends] at hopen
      cases hopen
    obtain ⟨skipped, hskip⟩ := Cursor.exists_resync c (hmoves.closed hc)
    have hall := hmoves.trans (hskip e c rfl rfl)
    have hlt := Cursor.resync_lt hc hk hmoves
    refine ⟨_, fun hnil => ?_, hall⟩
    have hlen := hall.remaining
    rw [hnil, List.length_nil] at hlen
    omega

theorem Rounds.moves (hp : Steady true p) (hends : ends .eof = true) {ss : List Stmt}
    (h : Rounds ends p c ss d) (hc : c.Closed) : ∃ passed, c.Moves passed d := by
  induction h with
  | start c => exact ⟨[], .refl c⟩
  | round first rest ih =>
    obtain ⟨passed, -, hfirst⟩ := first.moves hp hends hc
    obtain ⟨more, hrest⟩ := ih (hfirst.closed hc)
    exact ⟨passed ++ more, hfirst.trans hrest⟩

/-- Reading statements is a number of rounds, and nothing cuts them off before they are over. -/
theorem rounds_statements (hp : Steady true p) (hends : ends .eof = true) (hc : c.Closed) :
    Rounds ends p c (statements ends p c).1 (statements ends p c).2 ∧
    (ends (statements ends p c).2.kind || (statements ends p c).2.faults.full) = true := by
  induction hn : c.remaining using Nat.strongRecOn generalizing c with
  | ind n ih =>
  subst hn
  cases hopen : ends c.kind || c.faults.full with
  | true =>
    rw [statements, if_pos hopen]
    exact ⟨.start c, hopen⟩
  | false =>
    have hgo : ∀ {s d}, Round ends p c s d → Rounds ends p c
        (s.toList ++ (statements ends p d).1) (statements ends p d).2 ∧
        (ends (statements ends p d).2.kind || (statements ends p d).2.faults.full) = true := by
      intro s d h
      obtain ⟨passed, hne, hmoves⟩ := h.moves hp hends hc
      have hrest := ih _ (hmoves.remaining_lt hne) (hmoves.closed hc) rfl
      exact ⟨.round h hrest.1, hrest.2⟩
    rw [statements_unguarded hp hends hc hopen]
    rcases hpc : p c with ⟨_ | s, d⟩
    · exact hgo (.failed hopen hpc)
    · exact hgo (.read hopen hpc)

end Rounds

/-! ### Progress -/

/-- Runs go forward, and not past the end of the text. They pass over a token if they are strict and
yield something, and report a fault if they yield nothing. -/
structure Advances {α : Type} (strict : Bool) (p : Parser α) : Prop where
  forward : ∀ c : Cursor, c.Closed → ∃ passed, c.Moves passed (p c).2
  takes : strict = true → ∀ c : Cursor, c.Closed → (p c).1 ≠ none →
    (p c).2.remaining < c.remaining
  reports : ∀ c, (p c).1 = none → c.faults.total < (p c).2.faults.total

theorem SteadyAt.advances {α : Type} {strict : Bool} {p : Parser α} [Reporting p]
    (h : Steady strict p) : Advances strict p := by
  refine ⟨fun c hc => ?_, fun hstrict c hc hsome => ?_, fun c hnone => ?_⟩
  · obtain ⟨passed, hmoves, -⟩ := h.moves_of_run hc rfl
    exact ⟨passed, hmoves⟩
  · obtain ⟨passed, hmoves, hne⟩ := h.moves_of_run hc rfl
    exact hmoves.remaining_lt (hne hstrict hsome)
  · obtain ⟨fs, hfs, hne⟩ := Reporting.reports (p := p) c
    have hpos := List.length_pos_iff.mpr (hne hnone)
    rw [hfs, Capped.total_pushAll]
    omega

/-- No list of such items is cut off: a round reads an item and then, behind a comma, the rest. -/
def Listed {α : Type} (p : Parser α) : Prop :=
  ∀ (close : Symbol) (c : Cursor), c.Closed → (c.sees close || c.atEnd) = false →
    items close p c = match p c with
      | (none, d) => (none, d)
      | (some a, d) =>
        if d.sees .comma then
          match items close p d.advance with
          | (some as, e) => (some (a :: as), e)
          | (none, e) => (none, e)
        else (some [a], d)

end Parser

namespace Grammar

open RecordLang.Parser

/-- All parsers of a grammar make progress. -/
structure Advances (g : Grammar) : Prop where
  statement : g.statement.Advances true
  expression : g.expression.Advances true
  operand : ∀ l, (g.operand l).Advances true
  primary : (primary g.expression).Advances true
  chain : ∀ l left, (g.chain l left).Advances false
  suffixes : ∀ e, (g.suffixes e).Advances false
  args : Listed g.expression
  fields : Listed (field g.expression)
  /-- A round over statements either is the last one or goes forward. -/
  round : ∀ (ends : Kind → Bool) (c : Cursor), ends .eof = true → c.Closed → ∀ s d,
    Round ends g.statement c s d → ∃ passed, passed ≠ [] ∧ c.Moves passed d
  /-- The rounds over statements are not cut off. -/
  rounds : ∀ (ends : Kind → Bool) (c : Cursor), ends .eof = true → c.Closed → ∃ ss d,
    statements ends g.statement c = (ss, d) ∧ Rounds ends g.statement c ss d ∧
    (ends d.kind = true ∨ d.faults.full = true)

theorem advances_allowing (n : Nat) : (allowing n).Advances := by
  have h := steady_allowing n
  have hoperand := (reports_allowing n).operand
  refine ⟨h.statement.advances, h.expression.advances, fun l => (h.operand l).advances,
    (steady_primary h.expression).advances, fun l left => (h.chain l left).advances,
    fun e => (h.suffixes e).advances, fun _ _ => items_unguarded h.expression,
    fun _ _ => items_unguarded (steady_field h.expression),
    fun ends c hends hc s d hr => hr.moves h.statement hends hc, fun ends c hends hc => ?_⟩
  obtain ⟨hrounds, hover⟩ := rounds_statements h.statement hends hc
  exact ⟨_, _, rfl, hrounds, Bool.or_eq_true_iff.mp hover⟩

end Grammar

/-- The statements of a program, which are none if there is no program. -/
def Parsed.body (p : Parsed) : List Stmt := (p.program.map Program.body).getD []

theorem body_parse (tokens : List Token) : (parse tokens).body =
    (Parser.statements (· == .eof) Grammar.full.statement (Cursor.ofTokens tokens)).1 := by
  simp only [Parsed.body, parse]
  split
  · next h => exact (List.isEmpty_iff.mp (Bool.and_eq_true_iff.mp h).1).symm
  · rfl

/-- Whatever the tokens are, the rounds over the statements go forward until the end of the text or
until the store of faults is full, and so does everything that is read in them. -/
theorem parse_progress (tokens : List Token) :
    (∀ n, (Grammar.allowing n).Advances) ∧
    (Parser.typeExpr.Advances true ∧ ∀ c : Cursor, c.Closed →
      Parser.typeExpr c = Parser.typeExprOf Parser.typeExpr c) ∧
    (Parser.typedName.Advances true ∧ Parser.Listed Parser.typeExpr ∧
      Parser.Listed Parser.typedName) ∧
    (Cursor.ofTokens tokens).Closed ∧ ∃ passed d, (Cursor.ofTokens tokens).Moves passed d ∧
      Parser.Rounds (· == .eof) Grammar.full.statement (Cursor.ofTokens tokens)
        (parse tokens).body d ∧
      (d.kind = .eof ∨ d.faults.full = true) ∧ (parse tokens).faults = d.faults := by
  refine ⟨Grammar.advances_allowing, ⟨Parser.steady_typeExpr.advances,
    fun _ hc => Parser.typeExpr_unbounded hc⟩, ⟨Parser.steady_typedName.advances,
    fun _ _ => Parser.items_unguarded Parser.steady_typeExpr,
    fun _ _ => Parser.items_unguarded Parser.steady_typedName⟩, Cursor.closed_ofTokens tokens, ?_⟩
  have hsteady := (Grammar.steady_allowing GrammarCause.maxNesting).statement
  obtain ⟨hrounds, hover⟩ := @Parser.rounds_statements (· == .eof) _ _ hsteady rfl
    (Cursor.closed_ofTokens tokens)
  obtain ⟨passed, hmoves⟩ := hrounds.moves hsteady rfl (Cursor.closed_ofTokens tokens)
  refine ⟨passed, _, hmoves, ?_, ?_, rfl⟩
  · rw [body_parse]
    exact hrounds
  · simpa using hover

/-- A declaration that stops at the end of the text, with a token behind that. -/
def unended : List Token := [.keyword .let_, .eof, .symbol .closeParen].map (⟨·, default⟩)

theorem unended_progress : (Cursor.ofTokens unended).Closed ∧
    (∃ ss d, Parser.statements (· == .eof) (Grammar.allowing 1).statement
        (Cursor.ofTokens unended) = (ss, d) ∧
      Parser.Rounds (· == .eof) (Grammar.allowing 1).statement (Cursor.ofTokens unended) ss d ∧
      ((d.kind == .eof) = true ∨ d.faults.full = true)) ∧
    ∃ passed d, (Cursor.ofTokens unended).Moves passed d ∧
      (d.kind = .eof ∨ d.faults.full = true) ∧ (parse unended).faults = d.faults := by
  obtain ⟨hgrammar, -, -, hclosed, passed, d, hmoves, -, hover, hfaults⟩ := parse_progress unended
  refine ⟨hclosed, ?_, passed, d, hmoves, hover, hfaults⟩
  exact (hgrammar 1).rounds (· == .eof) (Cursor.ofTokens unended) rfl hclosed

end RecordLang
