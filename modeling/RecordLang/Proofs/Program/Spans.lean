import RecordLang.Proofs.Program.Nodes
import RecordLang.Proofs.Program.Progress
import RecordLang.Proofs.Token.Tiling

/-!
# Nodes stand where they were read

`TakesAt P Q p` says that a run of `p` at a token with `P` passes over tokens that are related by `Q`
to what it yields. Every parser of the grammar yields nodes that stand on the tokens it has passed
over (`Grammar.places_allowing`), also where statements before or inside have failed. So each node of
the tree of a source has the span of its tokens (`Source.nodes_exact`).
-/

namespace RecordLang

namespace Parser

variable {α β : Type}

/-- What a run passes over, if it yields something. -/
structure TakesAt (P : Token → Prop) (Q : List Token → α → Prop) (p : Parser α) : Prop where
  run : ∀ {c : Cursor} {a : α} {d : Cursor}, c.Closed → P c.current → p c = (some a, d) →
    ∃ ts, c.Moves ts d ∧ Q ts a

/-- What a run passes over at any token. -/
abbrev Takes (Q : List Token → α → Prop) (p : Parser α) : Prop := TakesAt (fun _ => True) Q p

namespace TakesAt

variable {P P' : Token → Prop} {Q R : List Token → α → Prop} {p : Parser α}

theorem mono (h : TakesAt P R p) (hP : ∀ t, P' t → P t) (hQ : ∀ ts a, R ts a → Q ts a) :
    TakesAt P' Q p := by
  refine ⟨fun {c a d} hc hp hrun => ?_⟩
  obtain ⟨ts, hmoves, hR⟩ := h.run hc (hP _ hp) hrun
  exact ⟨ts, hmoves, hQ ts a hR⟩

theorem any (h : Takes Q p) : TakesAt P Q p := h.mono (fun _ _ => trivial) fun _ _ => id

theorem pure {a : α} (h : Q [] a) : TakesAt P Q (pure a) := by
  refine ⟨fun {c b d} hc hp hrun => ?_⟩
  cases hrun
  exact ⟨[], .refl c, h⟩

theorem fail {cause : GrammarCause} : TakesAt P Q (fail cause) := by
  refine ⟨fun {c a d} hc hp hrun => ?_⟩
  cases hrun

theorem bind {q : Parser β} {f : β → Parser α} {S : List Token → β → Prop} (hq : TakesAt P S q)
    (hf : ∀ b us, S us b → Takes (fun ts a => Q (us ++ ts) a) (f b)) : TakesAt P Q (q >>= f) := by
  refine ⟨fun {c a e} hc hp hrun => ?_⟩
  obtain ⟨b, d, hb, ha⟩ := bind_eq_some.mp hrun
  obtain ⟨us, hmoves, hS⟩ := hq.run hc hp hb
  obtain ⟨ts, hmoves', hQ⟩ := (hf b us hS).run (hmoves.closed hc) trivial ha
  exact ⟨us ++ ts, hmoves.trans hmoves', hQ⟩

/-! ### Single tokens -/

theorem peek {f : Kind → Parser α} (h : ∀ k, TakesAt (fun t => P t ∧ t.kind = k) Q (f k)) :
    TakesAt P Q (peek >>= f) :=
  ⟨fun {c _ _} hc hp hrun => (h c.kind).run hc ⟨hp, rfl⟩ hrun⟩

theorem here {f : Span → Parser α} (h : ∀ s, TakesAt (fun t => P t ∧ t.span = s) Q (f s)) :
    TakesAt P Q (here >>= f) :=
  ⟨fun {c _ _} hc hp hrun => (h c.current.span).run hc ⟨hp, rfl⟩ hrun⟩

theorem advance (hP : ∀ t, P t → t.kind ≠ .eof)
    (h : ∀ t, P t → Takes (fun ts a => Q (t :: ts) a) p) : TakesAt P Q (do advance; p) := by
  refine ⟨fun {c a d} hc hp hrun => ?_⟩
  have hmoves := Cursor.Moves.advance hc (hP _ hp)
  obtain ⟨ts, hmoves', hQ⟩ := (h c.current hp).run hc.advance trivial hrun
  exact ⟨c.current :: ts, hmoves.trans hmoves', hQ⟩

theorem expect {k : Kind} (hk : k ≠ .eof)
    (h : ∀ t, P t → t.kind = k → Takes (fun ts a => Q (t :: ts) a) p) :
    TakesAt P Q (do expect k; p) := by
  refine ⟨fun {c a d} hc hp hrun => ?_⟩
  by_cases hkind : c.kind = k
  · have hstep : (do Parser.expect k; p : Parser α) c = (do Parser.advance; p : Parser α) c := by
      simp [Parser.expect, bind_apply, Parser.peek, hkind]
    rw [hstep] at hrun
    refine TakesAt.run (P := fun t => P t ∧ t.kind = k) ?_ hc ⟨hp, hkind⟩ hrun
    exact .advance (fun t ht => ht.2 ▸ hk) fun t ht => h t ht.1 ht.2
  · have hstop : (do Parser.expect k; p : Parser α) c = (none, c.report (.expected k c.kind)) := by
      simp [Parser.expect, bind_apply, Parser.peek, Parser.fail, hkind]
    rw [hstop] at hrun
    cases hrun

theorem symbol {x : Symbol} (h : ∀ t, P t → t.kind = .symbol x → Takes (fun ts a => Q (t :: ts) a) p) :
    TakesAt P Q (do symbol x; p) :=
  .expect (by simp) h

theorem eat {k : Kind} {f : Bool → Parser α} (hk : k ≠ .eof)
    (hthere : ∀ t, t.kind = k → Takes (fun ts a => Q (t :: ts) a) (f true))
    (hmissing : TakesAt P Q (f false)) : TakesAt P Q (eat k >>= f) := by
  refine ⟨fun {c a d} hc hp hrun => ?_⟩
  by_cases hkind : c.kind = k
  · have hstep : (Parser.eat k >>= f) c = (do Parser.advance; f true : Parser α) c := by
      simp [Parser.eat, bind_apply, Parser.peek, Parser.advance, hkind]
    rw [hstep] at hrun
    refine TakesAt.run (P := fun t => t.kind = k) ?_ hc hkind hrun
    exact .advance (fun t ht => ht ▸ hk) hthere
  · have hstep : (Parser.eat k >>= f) c = f false c := by
      simp [Parser.eat, bind_apply, Parser.peek, hkind]
    exact hmissing.run hc hp (hstep ▸ hrun)

theorem identifier {f : Ident → Parser α}
    (h : ∀ x t, (Node.ident x).Stands [t] → Takes (fun ts a => Q (t :: ts) a) (f x)) :
    TakesAt P Q (identifier >>= f) := by
  refine ⟨fun {c a d} hc hp hrun => ?_⟩
  cases hkind : c.kind with
  | ident name =>
    have hstep : (Parser.identifier >>= f) c =
        (do Parser.advance; f ⟨name, c.current.span⟩ : Parser α) c := by
      simp [Parser.identifier, bind_apply, Parser.here, Parser.peek, Parser.advance, hkind]
    rw [hstep] at hrun
    refine TakesAt.run (P := (· = c.current)) (.advance ?_ ?_) hc rfl hrun
    · rintro t rfl heof
      exact Kind.noConfusion (hkind.symm.trans heof)
    · rintro t rfl
      exact h _ _ ⟨.token hkind .nil, Span.covers_token _, rfl⟩
  | int | float | string | keyword | symbol | eof =>
    have hstop : (Parser.identifier >>= f) c = (none, c.report (.expectedIdentifier c.kind)) := by
      simp [Parser.identifier, bind_apply, Parser.here, Parser.peek, Parser.fail, hkind]
    rw [hstop] at hrun
    cases hrun

/-- The span that is given covers the tokens passed over. -/
theorem spanned {p : Parser (Span → α)}
    (h : TakesAt P (fun ts f => ts ≠ [] ∧ ∀ span : Span, span.Covers ts → Q ts (f span)) p) :
    TakesAt P Q (spanned p) := by
  refine ⟨fun {c a d} hc hp hrun => ?_⟩
  rw [SteadyAt.spanned_eq] at hrun
  rcases hr : p c with ⟨_ | f, e⟩
  · rw [hr] at hrun
    cases hrun
  · rw [hr] at hrun
    cases hrun
    obtain ⟨ts, hmoves, hne, hQ⟩ := h.run hc hp hr
    obtain ⟨t, ts, rfl⟩ := List.exists_cons_of_ne_nil hne
    obtain ⟨rfl, -⟩ := List.cons.inj hmoves.tokens
    have hlast := List.getLast?_eq_some_getLast hne
    refine ⟨_, hmoves, hQ _ ?_⟩
    rw [hmoves.last, hlast]
    exact Span.covers_merge_ends rfl hlast

/-! ### Lists -/

theorem items {close : Symbol} {p : Parser α} (item : α → List Constituent)
    (h : Takes (fun ts a => MadeOf (item a) ts) p) :
    Takes (fun ts as => MadeOf (Constituent.items item as) ts) (items close p) := by
  refine ⟨fun {c as d} hc _ hrun => ?_⟩
  fun_induction Parser.items close p c generalizing as d with
  | case1 c hend =>
    cases hrun
    exact ⟨[], .refl c, .nil⟩
  | case2 c hend e he => cases hrun
  | case3 c hend a e ha hcomma hlt as' f hf ih =>
    cases hrun
    obtain ⟨us, hmoves, ha⟩ := h.run hc trivial ha
    have hk : e.kind = .symbol .comma := Cursor.sees_iff.mp hcomma
    have he := hmoves.closed hc
    obtain ⟨ts, hmoves', hrest⟩ := ih he.advance hf
    have hstep := Cursor.Moves.advance he (by simp [hk])
    refine ⟨us ++ ([e.current] ++ ts), hmoves.trans (hstep.trans hmoves'), ?_⟩
    cases as' with
    | nil =>
      cases hrest
      exact ha.append (.there hk .nil)
    | cons b bs => exact ha.append (.token hk hrest)
  | case4 c hend a e ha hcomma hlt f hf ih => cases hrun
  | case5 c hend a e ha hcomma hlt =>
    cases hrun
    obtain ⟨us, hmoves, ha⟩ := h.run hc trivial ha
    have hk : e.kind = .symbol .comma := Cursor.sees_iff.mp hcomma
    have hstep := Cursor.Moves.advance (hmoves.closed hc) (by simp [hk])
    exact ⟨us ++ [e.current], hmoves.trans hstep, ha.append (.there hk .nil)⟩
  | case6 c hend a e ha hcomma =>
    cases hrun
    obtain ⟨us, hmoves, ha⟩ := h.run hc trivial ha
    refine ⟨us, hmoves, ?_⟩
    have hmade := ha.append (.missing (k := .symbol .comma) .nil)
    rwa [List.append_nil] at hmade

theorem body {ends : Kind → Bool} {p : Parser Stmt} (hsteady : Steady true p)
    (h : Takes (fun ts s => (Node.stmt s).Stands ts) p) :
    Takes (fun ts ss => MadeOf (Constituent.body ss) ts) (body ends p) := by
  refine ⟨fun {c ss d} hc _ hrun => ?_⟩
  obtain ⟨rfl, rfl⟩ : (statements ends p c).1 = ss ∧ (statements ends p c).2 = d := by
    simpa [Parser.body] using hrun
  clear hrun
  have hnone : MadeOf (Constituent.body []) [] := .skipped [] .nil
  fun_induction statements ends p c with
  | case1 c hend => exact ⟨[], .refl c, hnone⟩
  | case2 c hend s e hs hlt ss f hf ih =>
    obtain ⟨us, hmoves, hs⟩ := h.run hc trivial hs
    rw [hf] at ih
    obtain ⟨ts, hmoves', hrest⟩ := ih (hmoves.closed hc)
    exact ⟨us ++ ts, hmoves.trans hmoves', .skipped [] (.stands hs hrest)⟩
  | case3 c hend s e hs hlt =>
    obtain ⟨us, hmoves, hs⟩ := h.run hc trivial hs
    have hmade := MadeOf.stands hs hnone
    rw [List.append_nil] at hmade
    exact ⟨us, hmoves, .skipped [] hmade⟩
  | case4 c hend e hs hlt ih =>
    obtain ⟨us, hmoves, -⟩ := hsteady.moves_of_run hc hs
    have he := hmoves.closed hc
    obtain ⟨vs, hresync⟩ := Cursor.exists_resync c he
    have hmoves' := hmoves.trans (hresync e c rfl rfl)
    obtain ⟨ts, hmoves'', hrest⟩ := ih (hmoves'.closed hc)
    exact ⟨us ++ vs ++ ts, hmoves'.trans hmoves'', hrest.skip _⟩
  | case5 c hend e hs hlt =>
    obtain ⟨us, hmoves, -⟩ := hsteady.moves_of_run hc hs
    obtain ⟨vs, hresync⟩ := Cursor.exists_resync c (hmoves.closed hc)
    refine ⟨us ++ vs, hmoves.trans (hresync e c rfl rfl), ?_⟩
    have hmade := hnone.skip (us ++ vs)
    rwa [List.append_nil] at hmade

end TakesAt

/-! ### Types -/

theorem takes_typeExprWithin (depth : Nat) :
    Takes (fun ts t => (Node.type t).Stands ts) (typeExprWithin depth) := by
  induction depth with
  | zero => exact .peek fun _ => .fail
  | succ depth ih =>
    refine .spanned (.peek fun k => ?_)
    split
    · next name =>
      refine .advance (fun t ht => by simp [ht.2]) fun t ht => .eat (by simp) (fun u hu => ?_) ?_
      · exact .pure ⟨List.cons_ne_nil _ _, fun span hspan =>
          ⟨.typeName (.inl ht.2) (.token hu .nil), hspan, rfl⟩⟩
      · exact .pure ⟨List.cons_ne_nil _ _, fun span hspan =>
          ⟨.typeName (.inl ht.2) .nil, hspan, rfl⟩⟩
    · refine .advance (fun t ht => by simp [ht.2]) fun t ht => .eat (by simp) (fun u hu => ?_) ?_
      · exact .pure ⟨List.cons_ne_nil _ _, fun span hspan =>
          ⟨.typeName (.inr ⟨rfl, ht.2⟩) (.token hu .nil), hspan, rfl⟩⟩
      · exact .pure ⟨List.cons_ne_nil _ _, fun span hspan =>
          ⟨.typeName (.inr ⟨rfl, ht.2⟩) .nil, hspan, rfl⟩⟩
    · refine .advance (fun t ht => by simp [ht.2]) fun t ht =>
        .bind (.items (fun t => [.type t]) (ih.mono (fun _ => id) fun _ _ => .single))
        fun params us hparams => .symbol fun u _ hu => .symbol fun v _ hv =>
        .bind ih fun result vs hresult => .pure ⟨List.cons_ne_nil _ _, fun span hspan => ?_⟩
      exact ⟨.token ht.2 (hparams.append (.token hu (.token hv (.stands hresult .nil)))), hspan, rfl⟩
    · exact .fail

theorem takes_typeExpr : Takes (fun ts t => (Node.type t).Stands ts) typeExpr :=
  ⟨fun {c _ _} hc hp hrun => (takes_typeExprWithin (c.remaining + 1)).run hc hp hrun⟩

theorem takes_typedName : Takes (fun ts x => (Node.typedName x).Stands ts) typedName := by
  refine .spanned (.identifier fun x t hx => .symbol fun u _ hu => .bind takes_typeExpr
    fun type us htype => .pure ⟨List.cons_ne_nil _ _, fun span hspan => ?_⟩)
  exact ⟨.stands hx (.token hu (.stands htype .nil)), hspan, rfl⟩

theorem takes_typedNames {close : Symbol} :
    Takes (fun ts xs => MadeOf (Constituent.typedNames xs) ts) (items close typedName) :=
  .items _ (takes_typedName.mono (fun _ => id) fun _ _ => .single)

/-! ### Statements -/

section Parts

variable {statement : Parser Stmt} {expression : Parser Expr}

theorem takes_letStatement (he : Takes (fun ts e => (Node.expr e).Stands ts) expression) :
    TakesAt (fun t => t.kind = .keyword .let_) (fun ts s => (Node.stmt s).Stands ts)
      (letStatement expression) := by
  refine .spanned (.advance (fun t ht => by simp [ht]) fun t ht => .identifier fun x u hx =>
    .symbol fun v _ hv => .bind takes_typeExpr fun type us htype => .eat (by simp) (fun w hw => ?_) ?_)
  · refine .bind he fun e vs hvalue => .pure ⟨List.cons_ne_nil _ _, fun span hspan => ?_⟩
    exact ⟨.token ht (.stands hx (.token hv (.stands htype (.token hw (.stands hvalue .nil))))),
      hspan, rfl⟩
  · refine .pure ⟨List.cons_ne_nil _ _, fun span hspan => ?_⟩
    exact ⟨.token ht (.stands hx (.token hv (.stands htype .nil))), hspan, rfl⟩

theorem takes_block (hsteady : Steady true statement)
    (hs : Takes (fun ts s => (Node.stmt s).Stands ts) statement) :
    Takes (fun ts s => (Node.stmt s).Stands ts) (block statement) := by
  rw [block_eq]
  refine .spanned (.symbol fun t _ ht => .bind (.body hsteady hs) fun ss us hbody =>
    .symbol fun u _ hu => .pure ⟨List.cons_ne_nil _ _, fun span hspan => ?_⟩)
  exact ⟨.token ht (hbody.append (.token hu .nil)), hspan, rfl⟩

theorem takes_ifStatement (hs : Takes (fun ts s => (Node.stmt s).Stands ts) statement)
    (he : Takes (fun ts e => (Node.expr e).Stands ts) expression) :
    TakesAt (fun t => t.kind = .keyword .if_) (fun ts s => (Node.stmt s).Stands ts)
      (ifStatement statement expression) := by
  refine .spanned (.advance (fun t ht => by simp [ht]) fun t ht => .bind he fun e us hcondition =>
    .bind hs fun s vs htrue => .eat (by simp) (fun u hu => ?_) ?_)
  · refine .bind hs fun s' ws hfalse => .pure ⟨List.cons_ne_nil _ _, fun span hspan => ?_⟩
    exact ⟨.token ht (.stands hcondition (.stands htrue (.token hu (.stands hfalse .nil)))), hspan,
      rfl⟩
  · refine .pure ⟨List.cons_ne_nil _ _, fun span hspan => ?_⟩
    exact ⟨.token ht (.stands hcondition (.stands htrue .nil)), hspan, rfl⟩

theorem takes_whileStatement (hs : Takes (fun ts s => (Node.stmt s).Stands ts) statement)
    (he : Takes (fun ts e => (Node.expr e).Stands ts) expression) :
    TakesAt (fun t => t.kind = .keyword .while_) (fun ts s => (Node.stmt s).Stands ts)
      (whileStatement statement expression) := by
  refine .spanned (.advance (fun t ht => by simp [ht]) fun t ht => .bind he fun e us hcondition =>
    .bind hs fun s vs hbody => .pure ⟨List.cons_ne_nil _ _, fun span hspan => ?_⟩)
  exact ⟨.token ht (.stands hcondition (.stands hbody .nil)), hspan, rfl⟩

theorem takes_structStatement :
    TakesAt (fun t => t.kind = .keyword .struct) (fun ts s => (Node.stmt s).Stands ts)
      structStatement := by
  refine .spanned (.advance (fun t ht => by simp [ht]) fun t ht => .identifier fun x u hx =>
    .symbol fun v _ hv => .bind takes_typedNames fun fields us hfields => .symbol fun w _ hw =>
      .pure ⟨List.cons_ne_nil _ _, fun span hspan => ?_⟩)
  exact ⟨.token ht (.stands hx (.token hv (hfields.append (.token hw .nil)))), hspan, rfl⟩

theorem takes_returnStatement (he : Takes (fun ts e => (Node.expr e).Stands ts) expression) :
    TakesAt (fun t => t.kind = .keyword .return_) (fun ts s => (Node.stmt s).Stands ts)
      (returnStatement expression) := by
  refine .spanned (.advance (fun t ht => by simp [ht]) fun t ht => .peek fun k => ?_)
  split
  · refine .pure ⟨List.cons_ne_nil _ _, fun span hspan => ?_⟩
    exact ⟨.token ht .nil, hspan, rfl⟩
  · refine .bind he.any fun e us hvalue => .pure ⟨List.cons_ne_nil _ _, fun span hspan => ?_⟩
    exact ⟨.token ht (.stands hvalue .nil), hspan, rfl⟩

theorem takes_statementBody (hsteady : Steady true statement)
    (hs : Takes (fun ts s => (Node.stmt s).Stands ts) statement)
    (he : Takes (fun ts e => (Node.expr e).Stands ts) expression) :
    Takes (fun ts s => (Node.stmt s).Stands ts) (statementBody statement expression) := by
  refine .peek fun k => ?_
  split
  · exact (takes_letStatement he).mono (fun _ ht => ht.2) fun _ _ => id
  · exact (takes_block hsteady hs).any
  · exact (takes_ifStatement hs he).mono (fun _ ht => ht.2) fun _ _ => id
  · exact (takes_whileStatement hs he).mono (fun _ ht => ht.2) fun _ _ => id
  · exact takes_structStatement.mono (fun _ ht => ht.2) fun _ _ => id
  · exact (takes_returnStatement he).mono (fun _ ht => ht.2) fun _ _ => id
  · refine .bind he.any fun e us hvalue => .pure ?_
    rw [List.append_nil]
    exact ⟨.single hvalue, hvalue.covers, rfl⟩

/-! ### Expressions -/

theorem takes_functionLiteral (hs : Takes (fun ts s => (Node.stmt s).Stands ts) statement) :
    TakesAt (fun t => t.kind = .keyword .fn) (fun ts e => (Node.expr e).Stands ts)
      (functionLiteral statement) := by
  refine .spanned (.advance (fun t ht => by simp [ht]) fun t ht => .symbol fun u _ hu =>
    .bind takes_typedNames fun params us hparams => .symbol fun v _ hv => .symbol fun w _ hw =>
      .bind takes_typeExpr fun result vs hresult => .symbol fun x _ hx => .bind hs fun s ws hbody =>
        .pure ⟨List.cons_ne_nil _ _, fun span hspan => ?_⟩)
  exact ⟨.token ht (.token hu (hparams.append (.token hv (.token hw (.stands hresult (.token hx
    (.stands hbody .nil))))))), hspan, rfl⟩

theorem takes_field (he : Takes (fun ts e => (Node.expr e).Stands ts) expression) :
    Takes (fun ts f => MadeOf [.ident f.1, .symbol .colon, .expr f.2] ts) (field expression) :=
  .identifier fun _ _ hx => .symbol fun _ _ ht => .bind he fun _ _ hvalue =>
    .pure (.stands hx (.token ht (.stands hvalue .nil)))

theorem takes_recordLiteral (he : Takes (fun ts e => (Node.expr e).Stands ts) expression) :
    Takes (fun ts e => (Node.expr e).Stands ts) (recordLiteral expression) := by
  rw [recordLiteral_eq]
  refine .spanned (.identifier fun x t hx => .symbol fun u _ hu => .bind (.items _ (takes_field he))
    fun fields us hfields => .symbol fun v _ hv =>
      .pure ⟨List.cons_ne_nil _ _, fun span hspan => ?_⟩)
  exact ⟨.stands hx (.token hu (hfields.append (.token hv .nil))), hspan, rfl⟩

theorem takes_group (he : Takes (fun ts e => (Node.expr e).Stands ts) expression) :
    TakesAt (fun t => t.kind = .symbol .openParen) (fun ts e => (Node.expr e).Stands ts)
      (group expression) := by
  refine .spanned (.advance (fun t ht => by simp [ht]) fun t ht => .bind he fun e us hinner =>
    .symbol fun u _ hu => .pure ⟨List.cons_ne_nil _ _, fun span hspan => ?_⟩)
  exact ⟨.token ht (.stands hinner (.token hu .nil)), hspan, rfl⟩

theorem takes_named (he : Takes (fun ts e => (Node.expr e).Stands ts) expression) (name : String) :
    TakesAt (fun t => t.kind = .ident name) (fun ts e => (Node.expr e).Stands ts)
      (named expression name) := by
  refine ⟨fun {c a d} hc hp hrun => ?_⟩
  rw [named] at hrun
  split at hrun
  · exact (takes_recordLiteral he).run hc trivial hrun
  · cases hrun
    refine ⟨[c.current], .advance hc ?_, .token hp .nil, Span.covers_token _, rfl⟩
    intro heof
    exact Kind.noConfusion (hp.symm.trans heof)

theorem takes_primary (he : Takes (fun ts e => (Node.expr e).Stands ts) expression) :
    Takes (fun ts e => (Node.expr e).Stands ts) (primary expression) := by
  rw [primary_eq]
  refine .here fun span => .peek fun k => ?_
  split
  · next l hl =>
    refine .advance ?_ ?_
    · rintro t ⟨-, rfl⟩ heof
      rw [heof] at hl
      cases hl
    · rintro t ⟨⟨-, rfl⟩, rfl⟩
      exact .pure ⟨.token (Literal.eq_kind hl) .nil, Span.covers_token t, rfl⟩
  · split
    · exact (takes_group he).mono (fun _ ht => ht.2) fun _ _ => id
    · exact (takes_named he _).mono (fun _ ht => ht.2) fun _ _ => id
    · exact .fail

theorem takes_suffix (he : Takes (fun ts e => (Node.expr e).Stands ts) expression) {e : Expr}
    {us : List Token} (hfirst : (Node.expr e).Stands us) :
    Takes (fun ts e' => (Node.expr e').Stands (us ++ ts)) (suffix expression e) := by
  refine .eat (by simp) (fun t ht => .identifier fun x u hx => .pure ?_) (.symbol fun t _ ht =>
    .bind (.items (fun e => [.expr e]) (he.mono (fun _ => id) fun _ _ => .single))
      fun args vs hargs => .here fun close => .symbol fun u hu hk => .pure ?_)
  · exact ⟨.stands hfirst (.token ht (.stands hx .nil)), hfirst.covers.merge hx.covers [t], rfl⟩
  · obtain ⟨-, rfl⟩ := hu
    refine ⟨.stands hfirst (.token ht (hargs.append (.token hk .nil))), ?_, rfl⟩
    exact hfirst.covers.merge (Span.covers_token u) (t :: vs)

end Parts

end Parser

/-! ### The grammar -/

namespace Grammar

open RecordLang.Parser

/-- The parsers of a grammar yield nodes that stand on the tokens passed over; the operators of a
chain and the calls and member accesses go on with an expression that was read before. -/
structure Places (g : Grammar) : Prop where
  statement : Takes (fun ts s => (Node.stmt s).Stands ts) g.statement
  expression : Takes (fun ts e => (Node.expr e).Stands ts) g.expression
  unary : Takes (fun ts e => (Node.expr e).Stands ts) g.unary
  chain : ∀ (l : Nat) {left : Expr} {us : List Token}, (Node.expr left).Stands us →
    Takes (fun ts e => (Node.expr e).Stands (us ++ ts)) (g.chain l left)
  suffixes : ∀ {e : Expr} {us : List Token}, (Node.expr e).Stands us →
    Takes (fun ts e' => (Node.expr e').Stands (us ++ ts)) (g.suffixes e)

theorem Places.operand {g : Grammar} (h : g.Places) (l : Nat) :
    Takes (fun ts e => (Node.expr e).Stands ts) (g.operand l) := by
  induction l with
  | zero => exact h.unary
  | succ l ih => exact .bind ih fun _ _ hleft => h.chain l hleft

theorem takes_nested {α : Type} {inner : Option Grammar} {p : Grammar → Parser α}
    {P : Token → Prop} {Q : List Token → α → Prop}
    (h : ∀ g, inner = some g → TakesAt P Q (p g)) : TakesAt P Q (nested inner p) := by
  cases inner with
  | none => exact .fail
  | some g => exact h g rfl

theorem stands_apply {op : Operator} {left right : Expr} {us vs : List Token} {t : Token}
    (hleft : (Node.expr left).Stands us) (ht : t.kind = op.kind)
    (hright : (Node.expr right).Stands vs) :
    (Node.expr (op.apply left right)).Stands (us ++ ([t] ++ vs)) := by
  have hmade := MadeOf.stands hleft (.token ht (.single hright))
  have hspan := hleft.covers.merge hright.covers [t]
  rw [Operator.apply_eq]
  cases op with
  | binary op => exact ⟨hmade, hspan, rfl⟩
  | logical op => exact ⟨hmade, hspan, rfl⟩

section Around

variable {inner : Option Grammar} (hsteady : ∀ g, inner = some g → g.Steady)
  (h : ∀ g, inner = some g → g.Places)

include h

include hsteady in
theorem takes_statementAround :
    Takes (fun ts s => (Node.stmt s).Stands ts) (statementAround inner) :=
  takes_nested fun g hg =>
    takes_statementBody (hsteady g hg).statement (h g hg).statement (h g hg).expression

theorem takes_expressionAround :
    Takes (fun ts e => (Node.expr e).Stands ts) (expressionAround inner) :=
  takes_nested fun g hg => (h g hg).operand _

theorem takes_suffixesAround {e : Expr} {us : List Token} (hfirst : (Node.expr e).Stands us) :
    Takes (fun ts e' => (Node.expr e').Stands (us ++ ts)) (suffixesAround inner e) := by
  have hnext : Takes (fun ts e' => (Node.expr e').Stands (us ++ ts))
      (nested inner fun g => do g.suffixes (← suffix g.expression e)) := by
    refine takes_nested fun g hg => .bind (takes_suffix (h g hg).expression hfirst)
      fun e' vs hsecond => ((h g hg).suffixes hsecond).mono (fun _ => id) fun ts e'' hrest => ?_
    rwa [List.append_assoc] at hrest
  refine .peek fun k => ?_
  split
  · exact hnext.any
  · exact hnext.any
  · exact .pure (by rwa [List.append_nil])

include hsteady in
theorem takes_unaryAround : Takes (fun ts e => (Node.expr e).Stands ts) (unaryAround inner) := by
  refine .here fun start => .peek fun k => ?_
  split
  · next op hop =>
    have hk := UnaryOp.eq_symbol hop
    refine .advance (fun t ht => by simp [ht.2, hk]) fun t ht => .bind
      (takes_nested fun g hg => (h g hg).unary) fun e us hoperand => .pure ?_
    obtain ⟨⟨-, rfl⟩, hkind⟩ := ht
    rw [List.append_nil]
    exact ⟨.token (hkind.trans hk) (.single hoperand),
      (Span.covers_token t).merge hoperand.covers [], rfl⟩
  · split
    · next hfn =>
      exact (takes_functionLiteral (takes_statementAround hsteady h)).mono
        (fun _ ht => ht.2.trans hfn) fun _ _ => id
    · exact .bind (takes_primary (takes_expressionAround h)).any fun e us hfirst =>
        takes_suffixesAround h hfirst

theorem takes_chainAround (l : Nat) {left : Expr} {us : List Token}
    (hleft : (Node.expr left).Stands us) :
    Takes (fun ts e => (Node.expr e).Stands (us ++ ts)) (chainAround inner l left) := by
  refine .peek fun k => ?_
  split
  · exact .pure (by rwa [List.append_nil])
  · next op hop =>
    obtain ⟨hof, -⟩ := Option.filter_eq_some_iff.mp hop
    have hk := Operator.eq_kind hof
    refine takes_nested fun g hg => .advance ?_ fun t ht => .bind ((h g hg).operand l)
      fun right vs hright => ?_
    · rintro t ⟨-, rfl⟩ heof
      rw [heof] at hof
      cases hof
    · have happly := stands_apply hleft (ht.2.trans hk) hright
      refine ((h g hg).chain l happly).mono (fun _ => id) fun ts e hrest => ?_
      simpa using hrest

include hsteady in
theorem places_around : (around inner).Places :=
  ⟨takes_statementAround hsteady h, takes_expressionAround h, takes_unaryAround hsteady h,
    fun l _ _ => takes_chainAround h l, takes_suffixesAround h⟩

end Around

theorem places_allowing (n : Nat) : (allowing n).Places := by
  induction n with
  | zero => exact places_around (by simp) (by simp)
  | succ n ih =>
    exact places_around (fun _ hg => Option.some.inj hg ▸ steady_allowing n)
      fun _ hg => Option.some.inj hg ▸ ih

end Grammar

/-! ### The tree of a source -/

/-- The node is somewhere in the program. -/
def Program.Has (p : Program) (n : Node) : Prop := ∃ s ∈ p.body, (Node.stmt s).Below n

theorem Cursor.tokens_ofTokens {ts : List Token} {t : Token} (ht : t.kind = .eof) :
    (Cursor.ofTokens (ts ++ [t])).tokens = ts ++ [t] := by
  have hclosed : ∀ (us : List Token) (u : Token), Cursor.closed u (us ++ [t]) = us ++ [t] := by
    intro us
    induction us with
    | nil => intro u; simp [Cursor.closed, ht]
    | cons v us ih => intro u; exact congrArg (v :: ·) (ih v)
  cases ts with
  | nil => simp [Cursor.ofTokens, Cursor.tokens, Cursor.closed, ht]
  | cons u us => exact congrArg (u :: ·) (hclosed us u)

/-- The statements of a program are made of the tokens that were read, whatever faults there are. -/
theorem parse_places {tokens : List Token} {p : Program} (h : (parse tokens).program = some p) :
    ∃ passed d, (Cursor.ofTokens tokens).Moves passed d ∧ MadeOf (Constituent.body p.body) passed ∧
      p.span = (Cursor.ofTokens tokens).current.span.merge d.last := by
  have hbody := @Parser.TakesAt.body (· == .eof) _
    (Grammar.steady_allowing GrammarCause.maxNesting).statement
    (Grammar.places_allowing GrammarCause.maxNesting).statement
  obtain ⟨passed, hmoves, hmade⟩ := hbody.run (Cursor.closed_ofTokens tokens) trivial rfl
  rw [parse] at h
  dsimp only at h
  split at h
  · cases h
  · cases h
    exact ⟨passed, _, hmoves, hmade, rfl⟩

/-- The statements of a program, and all nodes in them, stand on segments of the tokens. -/
theorem MadeOf.stands_of_has {p : Program} {passed : List Token} {n : Node}
    (h : MadeOf (Constituent.body p.body) passed) (hn : p.Has n) :
    ∃ us, us <:+: passed ∧ n.Stands us := by
  obtain ⟨s, hs, hn⟩ := hn
  have hmem : Node.stmt s ∈ Constituent.nodes (Constituent.body p.body) := by
    rw [Constituent.nodes_body]
    exact List.mem_map_of_mem hs
  obtain ⟨us, hus, hs⟩ := h.segment hmem
  obtain ⟨vs, hvs, hn⟩ := hs.below hn
  exact ⟨vs, hvs.trans hus, hn⟩

/-- Before the end of the text, the tokens of a source without faults in its spelling are in order. -/
theorem Source.exists_ordered (s : Source) (h : s.lex.faults.nonempty = false) :
    ∃ ts, s.lex.tokens = ts ++ [⟨.eof, .point s.stop⟩] ∧ Ordered ts := by
  obtain ⟨pieces, tail, -, htokens, -, hsound, hplaced⟩ :=
    (Lexer.reads_tokens ⟨.origin, s.bytes⟩ h).exists_pieces
  rw [past_bytes] at htokens
  refine ⟨_, htokens, ?_, ?_⟩
  · exact List.pairwise_map.mpr (hplaced.pairwise_lt Nat.one_pos hsound)
  · intro t ht
    obtain ⟨p, hp, rfl⟩ := List.mem_map.mp ht
    obtain ⟨pre, post, -, hspan⟩ := hplaced.exists_around hp
    obtain ⟨hne, hline, -⟩ := (hsound p hp).spelled.onLine
    have hlen := List.length_pos_iff.mpr hne
    rw [hspan, Span.between, Position.past_append, Position.past_of_line _ hline, Position.le_def]
    refine .inr ⟨rfl, ?_⟩
    dsimp only
    omega

/-- The program of a source without faults in its spelling is made of a segment of its tokens, in
order, and its span covers them unless it has no statements. -/
theorem Source.exists_read {s : Source} {p : Program} (h : s.lex.faults.nonempty = false)
    (hp : (parse s.lex.tokens).program = some p) :
    ∃ passed, passed <:+: s.lex.tokens ∧ Ordered passed ∧
      MadeOf (Constituent.body p.body) passed ∧ (passed ≠ [] → p.span.Covers passed) := by
  obtain ⟨ts, htokens, hordered⟩ := s.exists_ordered h
  obtain ⟨passed, d, hmoves, hmade, hspan⟩ := parse_places hp
  have hall := hmoves.tokens
  rw [htokens, Cursor.tokens_ofTokens rfl, ← List.dropLast_concat_getLast (l := d.tokens)
    (List.cons_ne_nil _ _), ← List.append_assoc] at hall
  have hpassed : passed <:+: ts := by
    rw [List.append_inj_left' hall rfl]
    exact (List.prefix_append passed _).isInfix
  refine ⟨passed, ?_, hordered.segment hpassed, hmade, fun hne => ?_⟩
  · rw [htokens]
    exact hpassed.trans (List.prefix_append ts _).isInfix
  · obtain ⟨v, vs, rfl⟩ := List.exists_cons_of_ne_nil hne
    obtain ⟨rfl, -⟩ := List.cons.inj hmoves.tokens
    have hlast := List.getLast?_eq_some_getLast hne
    rw [hspan, hmoves.last, hlast]
    exact Span.covers_merge_ends rfl hlast

/-- What a parser yields stands on the tokens that it has passed over. In the tree of a source
without faults in its spelling, with or without faults in its form, the span of each node runs from
the first of its tokens to the last one; it contains the spans of the nodes right below it, and these
follow each other in the text. -/
theorem Source.nodes_exact (s : Source) (h : s.lex.faults.nonempty = false) {p : Program}
    (hp : (parse s.lex.tokens).program = some p) :
    (∀ levels, (Grammar.allowing levels).Places) ∧
      (∀ n, p.Has n →
        (∃ ts t u, ts <:+: s.lex.tokens ∧ n.Stands ts ∧ ts.head? = some t ∧ ts.getLast? = some u ∧
          n.span = ⟨t.span.first, u.span.last⟩) ∧
        (∀ m ∈ n.children, m.span.Within n.span) ∧
        n.children.Pairwise fun a b => a.span.Before b.span) ∧
      (∀ t ∈ p.body, t.span.Within p.span) ∧ p.body.Pairwise fun a b => a.span.Before b.span := by
  obtain ⟨passed, htokens, ho, hmade, hspan⟩ := Source.exists_read h hp
  refine ⟨Grammar.places_allowing, fun n hn => ?_, fun t ht => ?_, ?_⟩
  · obtain ⟨us, hus, hn⟩ := hmade.stands_of_has hn
    have hou := ho.segment hus
    obtain ⟨v, w, hv, hw, hnode⟩ := hn.span_eq hou
    refine ⟨⟨us, v, w, hus.trans htokens, hn, hv, hw, hnode⟩, fun m hm => ?_, hn.made.siblings hou⟩
    obtain ⟨vs, hvs, hm⟩ := hn.made.segment hm
    exact hm.covers.within hn.covers hvs hou
  · obtain ⟨us, hus, ht⟩ := hmade.stands_of_has ⟨t, ht, .refl⟩
    obtain ⟨u, -, hu, -⟩ := ht.covers
    have hne : passed ≠ [] := List.ne_nil_of_mem (hus.subset (List.mem_of_head? hu))
    exact ht.covers.within (hspan hne) hus ho
  · have hsiblings := hmade.siblings ho
    rwa [Constituent.nodes_body, List.pairwise_map] at hsiblings

/-- A declaration without a name, and one whose value is a member of the result of a call. -/
def Source.namelessLet : Source := ⟨"main", "let = 1\nlet z: int = f(x, 2).y"⟩

theorem Source.namelessLet_nodes : Source.namelessLet.lex.faults.nonempty = false ∧
    (parse Source.namelessLet.lex.tokens).faults.total = 1 ∧
    ∃ p, (parse Source.namelessLet.lex.tokens).program = some p ∧
      p.body.map Stmt.span = [⟨⟨2, 1⟩, ⟨2, 22⟩⟩] ∧
      ∀ n, p.Has n → ∀ m ∈ n.children, m.span.Within n.span := by
  have hclean : Source.namelessLet.lex.faults.nonempty = false := by decide +kernel
  have hspans : (parse Source.namelessLet.lex.tokens).program.map (fun p => p.body.map Stmt.span) =
      some [⟨⟨2, 1⟩, ⟨2, 22⟩⟩] := by decide +kernel
  obtain ⟨p, hp, hbody⟩ := Option.map_eq_some_iff.mp hspans
  obtain ⟨-, hnodes, -, -⟩ := Source.nodes_exact .namelessLet hclean hp
  exact ⟨hclean, by decide +kernel, p, hp, hbody, fun n hn => (hnodes n hn).2.1⟩

end RecordLang
