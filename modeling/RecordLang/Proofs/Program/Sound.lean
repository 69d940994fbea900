import RecordLang.Proofs.Program.Reads

/-!
# What is read without a fault is in the grammar

`p.Yields Q` says that `Q` holds of the kinds before a run of `p` that ends without faults, of what
it yields and of the kinds behind. The lemmas on combinators go backwards through a parser, so that
a proof reads as the parser does. The main statement is that every parser with an allowance of `n`
levels yields what the grammar reads with at most `n` levels (`Grammar.sound_allowing`).
-/

namespace RecordLang

/-- The grammar reads the part with so many levels, or with fewer. -/
def ReadsWithin (s : Part) (n : Nat) (ks : List Kind) (a : s.Tree) (ks' : List Kind) : Prop :=
  ∃ m, m ≤ n ∧ Reads s m ks a ks'

theorem ReadsWithin.behind {s : Part} {n : Nat} {ks ks' : List Kind} {a : s.Tree}
    (h : ReadsWithin s n ks a ks') : Behind s.takes ks ks' := by
  obtain ⟨m, -, h⟩ := h
  exact h.behind

namespace Parser

variable {α β : Type}

/-- What a run without faults yields. -/
structure Yields (Q : List Kind → α → List Kind → Prop) (p : Parser α) : Prop where
  run : ∀ {c : Cursor} {a : α} {d : Cursor}, c.Closed → p c = (some a, d) → d.faults = .empty →
    d.Closed ∧ Q c.kinds a d.kinds

namespace Yields

variable {P Q : List Kind → α → List Kind → Prop} {p : Parser α}

theorem mono (h : Yields P p) (hPQ : ∀ ks a ks', P ks a ks' → Q ks a ks') : Yields Q p := by
  refine ⟨fun {c a d} hc hp hd => ?_⟩
  obtain ⟨hd', hP⟩ := h.run hc hp hd
  exact ⟨hd', hPQ _ _ _ hP⟩

theorem pure {a : α} (h : ∀ k ks, Q (k :: ks) a (k :: ks)) : Yields Q (pure a) := by
  refine ⟨fun {c b d} hc hp hd => ?_⟩
  cases hp
  exact ⟨hc, h _ _⟩

theorem fail {cause : GrammarCause} : Yields Q (fail cause) := by
  refine ⟨fun {c a d} hc hp hd => ?_⟩
  cases hp

theorem bind {f : β → Parser α} {q : Parser β} {R : List Kind → β → List Kind → Prop}
    [∀ b, Reporting (f b)] (hq : Yields R q)
    (hf : ∀ b, Yields (fun ks₁ a ks' => ∀ ks, R ks b ks₁ → Q ks a ks') (f b)) :
    Yields Q (q >>= f) := by
  refine ⟨fun {c a e} hc hp he => ?_⟩
  obtain ⟨b, d, hb, ha⟩ := bind_eq_some.mp hp
  obtain ⟨hd, hR⟩ := hq.run hc hb (faults_eq_empty ha he)
  obtain ⟨he', hQ⟩ := (hf b).run hd ha he
  exact ⟨he', hQ _ hR⟩

/-! ### Single tokens -/

theorem peek {f : Kind → Parser α}
    (h : ∀ k, Yields (fun ks a ks' => ks.head? = some k → Q ks a ks') (f k)) :
    Yields Q (peek >>= f) := by
  refine ⟨fun {c a d} hc hp hd => ?_⟩
  obtain ⟨hd', hQ⟩ := (h c.kind).run hc hp hd
  exact ⟨hd', hQ rfl⟩

theorem here {f : Span → Parser α} (h : ∀ span, Yields Q (f span)) : Yields Q (here >>= f) :=
  ⟨fun {c _ _} hc hp hd => (h c.current.span).run hc hp hd⟩

theorem advance {k : Kind} (hk : k ≠ .eof) (h : Yields (fun ks a ks' => Q (k :: ks) a ks') p) :
    Yields (fun ks a ks' => ks.head? = some k → Q ks a ks') (do advance; p) := by
  refine ⟨fun {c a d} hc hp hd => ?_⟩
  obtain ⟨hd', hQ⟩ := h.run hc.advance hp hd
  refine ⟨hd', fun hhead => ?_⟩
  obtain rfl : c.kind = k := Option.some.inj hhead
  rw [c.kinds_advance hc hk]
  exact hQ

theorem expect {k : Kind} (hk : k ≠ .eof) (h : Yields (fun ks a ks' => Q (k :: ks) a ks') p) :
    Yields Q (do expect k; p) := by
  refine ⟨fun {c a d} hc hp hd => ?_⟩
  by_cases hkind : c.kind = k
  · have hstep : (do Parser.expect k; p : Parser α) c = p c.advance := by
      simp [Parser.expect, bind_apply, Parser.peek, Parser.advance, hkind]
    obtain ⟨hd', hQ⟩ := h.run hc.advance (hstep ▸ hp) hd
    refine ⟨hd', ?_⟩
    rw [c.kinds_advance hc (hkind ▸ hk), hkind]
    exact hQ
  · have hstop : (do Parser.expect k; p : Parser α) c = (none, c.report (.expected k c.kind)) := by
      simp [Parser.expect, bind_apply, Parser.peek, Parser.fail, hkind]
    rw [hstop] at hp
    cases hp

theorem symbol {x : Symbol} (h : Yields (fun ks a ks' => Q (.symbol x :: ks) a ks') p) :
    Yields Q (do symbol x; p) :=
  .expect nofun h

theorem eat {k : Kind} {f : Bool → Parser α} (hk : k ≠ .eof)
    (hthere : Yields (fun ks a ks' => Q (k :: ks) a ks') (f true))
    (hmissing : Yields (fun ks a ks' => ks.head? ≠ some k → Q ks a ks') (f false)) :
    Yields Q (eat k >>= f) := by
  refine ⟨fun {c a d} hc hp hd => ?_⟩
  by_cases hkind : c.kind = k
  · have hstep : (Parser.eat k >>= f) c = f true c.advance := by
      simp [Parser.eat, bind_apply, Parser.peek, Parser.advance, hkind]
    obtain ⟨hd', hQ⟩ := hthere.run hc.advance (hstep ▸ hp) hd
    refine ⟨hd', ?_⟩
    rw [c.kinds_advance hc (hkind ▸ hk), hkind]
    exact hQ
  · have hstep : (Parser.eat k >>= f) c = f false c := by
      simp [Parser.eat, bind_apply, Parser.peek, hkind]
    obtain ⟨hd', hQ⟩ := hmissing.run hc (hstep ▸ hp) hd
    exact ⟨hd', hQ fun hhead => hkind (Option.some.inj hhead)⟩

theorem identifier {f : Ident → Parser α}
    (h : ∀ x, Yields (fun ks a ks' => Q (.ident x.name :: ks) a ks') (f x)) :
    Yields Q (identifier >>= f) := by
  refine ⟨fun {c a d} hc hp hd => ?_⟩
  cases hkind : c.kind with
  | ident name =>
    have hstep : (Parser.identifier >>= f) c = f ⟨name, c.current.span⟩ c.advance := by
      simp [Parser.identifier, bind_apply, Parser.here, Parser.peek, Parser.advance, hkind]
    obtain ⟨hd', hQ⟩ := (h _).run hc.advance (hstep ▸ hp) hd
    refine ⟨hd', ?_⟩
    rw [c.kinds_advance hc (by simp [hkind]), hkind]
    exact hQ
  | int | float | string | keyword | symbol | eof =>
    have hstop : (Parser.identifier >>= f) c = (none, c.report (.expectedIdentifier c.kind)) := by
      simp [Parser.identifier, bind_apply, Parser.here, Parser.peek, Parser.fail, hkind]
    rw [hstop] at hp
    cases hp

theorem spanned {p : Parser (Span → α)}
    (h : Yields (fun ks f ks' => ∀ span, Q ks (f span) ks') p) : Yields Q (spanned p) := by
  refine ⟨fun {c a d} hc hp hd => ?_⟩
  unfold Parser.spanned at hp
  rcases hr : p c with ⟨_ | f, e⟩
  · rw [hr] at hp
    cases hp
  · rw [hr] at hp
    cases hp
    obtain ⟨hd', hQ⟩ := h.run hc hr hd
    exact ⟨hd', hQ _⟩

theorem spannedAfter {k : Kind} {p : Parser (Span → α)}
    (h : Yields (fun ks f ks' => ks.head? = some k → ∀ span, Q ks (f span) ks') p) :
    Yields (fun ks a ks' => ks.head? = some k → Q ks a ks') (Parser.spanned p) :=
  .spanned (h.mono fun _ _ _ hQ span hk => hQ hk span)

/-! ### Lists -/

theorem items {i : Item} {close : Symbol} {n : Nat} {p : Parser i.Tree} [Reporting p]
    (h : Yields (ReadsWithin (.item i) n) p) :
    Yields (fun ks as ks' => ∀ ks'', ks' = .symbol close :: ks'' →
      ReadsWithin (.items i close) n ks as ks'') (items close p) := by
  refine ⟨fun {c as d} hc hp hd => ?_⟩
  fun_induction Parser.items close p c generalizing as d with
  | case1 c hend =>
    cases hp
    refine ⟨hc, fun ks'' hks => ?_⟩
    rw [hks]
    exact ⟨0, Nat.zero_le n, .itemsNil⟩
  | case2 c hend e he => cases hp
  | case3 c hend a e ha hcomma hlt as' f hf ih =>
    cases hp
    have he : e.faults = .empty := by
      rw [← e.faults_advance]
      exact faults_eq_empty (p := Parser.items close p) hf hd
    obtain ⟨hec, m, hm, hitem⟩ := h.run hc ha he
    obtain ⟨hdc, hrest⟩ := ih hec.advance hf hd
    have hk : e.kind = .symbol .comma := Cursor.sees_iff.mp hcomma
    rw [e.kinds_advance hec (by rw [hk]; exact nofun), hk] at hitem
    refine ⟨hdc, fun ks'' hks => ?_⟩
    obtain ⟨m', hm', hrest⟩ := hrest ks'' hks
    exact ⟨max m m', Nat.max_le.mpr ⟨hm, hm'⟩, .itemsNext hitem hrest⟩
  | case4 c hend a e ha hcomma hlt f hf ih => cases hp
  | case5 c hend a e ha hcomma hlt =>
    -- an item takes a token, so there is always less ahead
    cases hp
    obtain ⟨hec, hitem⟩ := h.run hc ha (by rwa [e.faults_advance] at hd)
    have hk : e.kind = .symbol .comma := Cursor.sees_iff.mp hcomma
    have hlen := hitem.behind.shorter rfl
    rw [e.kinds_advance hec (by rw [hk]; exact nofun), List.length_cons, c.length_kinds,
      e.advance.length_kinds] at hlen
    omega
  | case6 c hend a e ha hcomma =>
    cases hp
    obtain ⟨hec, m, hm, hitem⟩ := h.run hc ha hd
    refine ⟨hec, fun ks'' hks => ⟨m, hm, ?_⟩⟩
    rw [hks] at hitem
    exact .itemsLast hitem

theorem body {ends : Kind → Bool} {n : Nat} {p : Parser Stmt} [Reporting p]
    (h : Yields (ReadsWithin .statement n) p) :
    Yields (fun ks ss ks' => ∃ k ks'', ks' = k :: ks'' ∧ ends k = true ∧
      ReadsWithin (.statements k) n ks ss ks') (body ends p) := by
  refine ⟨fun {c ss d} hc hp hd => ?_⟩
  obtain ⟨rfl, rfl⟩ : (statements ends p c).1 = ss ∧ (statements ends p c).2 = d := by
    simpa [Parser.body] using hp
  clear hp
  fun_induction statements ends p c with
  | case1 c hend =>
    have hfull : c.faults.full = false := by rw [hd]; rfl
    have hk : ends c.kind = true := by simpa [hfull] using hend
    exact ⟨hc, c.kind, _, rfl, hk, 0, Nat.zero_le n, .statementsNil⟩
  | case2 c hend s e hs hlt ss f hf ih =>
    have he : e.faults = .empty := by
      refine faults_eq_empty (p := Parser.body ends p) (r := some ss) (d := f) ?_ hd
      simp [Parser.body, hf]
    obtain ⟨hec, m, hm, hfirst⟩ := h.run hc hs he
    rw [hf] at ih
    obtain ⟨hfc, k, ks'', hks, hk, m', hm', hrest⟩ := ih hec hd
    exact ⟨hfc, k, ks'', hks, hk, max m m', Nat.max_le.mpr ⟨hm, hm'⟩, .statementsCons hfirst hrest⟩
  | case3 c hend s e hs hlt =>
    obtain ⟨-, hfirst⟩ := h.run hc hs hd
    have hlen := hfirst.behind.shorter rfl
    rw [c.length_kinds, e.length_kinds] at hlen
    omega
  | case4 c hend e hs hlt ih =>
    -- a statement that fails leaves a fault, which stays
    exfalso
    have he : (e.resync c).faults = .empty := by
      refine faults_eq_empty (p := Parser.body ends p) rfl ?_
      exact hd
    rw [faults_resync] at he
    exact faults_ne_empty hs he
  | case5 c hend e hs hlt =>
    rw [faults_resync] at hd
    exact absurd hd (faults_ne_empty hs)

end Yields

/-! ### Types -/

theorem yields_typeExprWithin (depth : Nat) :
    Yields (ReadsWithin (.item .type) 0) (typeExprWithin depth) := by
  induction depth with
  | zero =>
    unfold typeExprWithin
    exact .peek fun k => .fail
  | succ depth ih =>
    unfold typeExprWithin
    refine .spanned (.peek fun k => ?_)
    split
    · refine .advance (by simp) (.eat (by simp) (.pure fun k ks span => ?_) (.pure fun k ks h span => ?_))
      · exact ⟨0, Nat.le_refl 0, .named .there⟩
      · exact ⟨0, Nat.le_refl 0, .named (.missing h)⟩
    · refine .advance (by simp) (.eat (by simp) (.pure fun k ks span => ?_) (.pure fun k ks h span => ?_))
      · exact ⟨0, Nat.le_refl 0, .null .there⟩
      · exact ⟨0, Nat.le_refl 0, .null (.missing h)⟩
    · refine .advance (by simp) (.bind ih.items fun params => .symbol (.symbol (.bind ih fun result =>
        .pure fun k ks' ks₁ hresult ks hparams span => ?_)))
      obtain ⟨m, hm, hparams⟩ := hparams _ rfl
      obtain ⟨m', hm', hresult⟩ := hresult
      obtain rfl := Nat.le_zero.mp hm
      obtain rfl := Nat.le_zero.mp hm'
      exact ⟨0, Nat.le_refl 0, .functionType hparams hresult⟩
    · exact .fail

theorem yields_typeExpr :
    Yields (fun ks type ks' => Reads (.item .type) 0 ks type ks') typeExpr := by
  refine ⟨fun {c _ _} hc hp hd => ?_⟩
  obtain ⟨hdc, m, hm, h⟩ := (yields_typeExprWithin (c.remaining + 1)).run hc hp hd
  obtain rfl := Nat.le_zero.mp hm
  exact ⟨hdc, h⟩

theorem yields_typedName : Yields (ReadsWithin (.item .typedName) 0) typedName := by
  unfold typedName
  refine .spanned (.identifier fun x => .symbol (.bind yields_typeExpr fun type =>
    .pure fun k ks' ks htype span => ?_))
  exact ⟨0, Nat.le_refl 0, .typedName htype⟩

theorem yields_typedNames {close : Symbol} :
    Yields (fun ks xs ks' => ∀ ks'', ks' = .symbol close :: ks'' →
      Reads (.items .typedName close) 0 ks xs ks'') (items close typedName) := by
  refine yields_typedName.items.mono fun ks xs ks' h ks'' hks => ?_
  obtain ⟨m, hm, h⟩ := h ks'' hks
  obtain rfl := Nat.le_zero.mp hm
  exact h

/-! ### Statements -/

section Parts

variable {n : Nat} {statement : Parser Stmt} {expression : Parser Expr}

theorem yields_letStatement [Reporting expression]
    (he : Yields (ReadsWithin (.item .expression) n) expression) :
    Yields (fun ks a ks' => ks.head? = some (.keyword .let_) →
      ReadsWithin .statement (n + 1) ks a ks') (letStatement expression) := by
  unfold letStatement
  refine .spannedAfter (.advance nofun (.identifier fun x => .symbol (.bind yields_typeExpr
    fun type => .eat nofun ?_ ?_)))
  · refine .bind he fun value => .pure fun k ks' ks₁ hvalue ks htype span => ?_
    obtain ⟨m, hm, hvalue⟩ := hvalue
    exact ⟨m + 1, Nat.succ_le_succ hm, .initialized htype hvalue⟩
  · refine .pure fun k ks' hk ks htype span => ?_
    exact ⟨1, by omega, .declared htype fun he => hk (he ▸ rfl)⟩

theorem yields_block [Reporting statement]
    (hs : Yields (ReadsWithin .statement n) statement) :
    Yields (ReadsWithin .statement (n + 1)) (block statement) := by
  rw [block_eq]
  refine .spanned (.symbol (.bind hs.body fun stmts => .symbol
    (.pure fun k ks' ks hbody span => ?_)))
  obtain ⟨_, _, hks, -, m, hm, hbody⟩ := hbody
  cases hks
  exact ⟨m + 1, Nat.succ_le_succ hm, .block hbody⟩

theorem yields_ifStatement [Reporting statement]
    (hs : Yields (ReadsWithin .statement n) statement)
    (he : Yields (ReadsWithin (.item .expression) n) expression) :
    Yields (fun ks a ks' => ks.head? = some (.keyword .if_) →
      ReadsWithin .statement (n + 1) ks a ks') (ifStatement statement expression) := by
  unfold ifStatement
  refine .spannedAfter (.advance nofun (.bind he fun condition => .bind hs fun whenTrue =>
    .eat nofun ?_ ?_))
  · refine .bind hs fun whenFalse => .pure fun k ks' ks₂ hfalse ks₁ htrue ks hcond span => ?_
    obtain ⟨m, hm, hcond⟩ := hcond
    obtain ⟨m', hm', htrue⟩ := htrue
    obtain ⟨m'', hm'', hfalse⟩ := hfalse
    exact ⟨max m (max m' m'') + 1, by omega, .ifElse hcond htrue hfalse⟩
  · refine .pure fun k ks' hk ks₁ htrue ks hcond span => ?_
    obtain ⟨m, hm, hcond⟩ := hcond
    obtain ⟨m', hm', htrue⟩ := htrue
    exact ⟨max m m' + 1, by omega, .if_ hcond htrue fun he => hk (he ▸ rfl)⟩

theorem yields_whileStatement [Reporting statement]
    (hs : Yields (ReadsWithin .statement n) statement)
    (he : Yields (ReadsWithin (.item .expression) n) expression) :
    Yields (fun ks a ks' => ks.head? = some (.keyword .while_) →
      ReadsWithin .statement (n + 1) ks a ks') (whileStatement statement expression) := by
  unfold whileStatement
  refine .spannedAfter (.advance nofun (.bind he fun condition => .bind hs fun body =>
    .pure fun k ks' ks₁ hbody ks hcond span => ?_))
  obtain ⟨m, hm, hcond⟩ := hcond
  obtain ⟨m', hm', hbody⟩ := hbody
  exact ⟨max m m' + 1, by omega, .while_ hcond hbody⟩

theorem yields_structStatement :
    Yields (fun ks a ks' => ks.head? = some (.keyword .struct) →
      ReadsWithin .statement (n + 1) ks a ks') structStatement := by
  unfold structStatement
  refine .spannedAfter (.advance nofun (.identifier fun x => .symbol (.bind yields_typedNames
    fun fields => .symbol (.pure fun k ks' ks hfields span => ?_))))
  exact ⟨1, by omega, .struct (hfields _ rfl)⟩

theorem yields_returnStatement (he : Yields (ReadsWithin (.item .expression) n) expression) :
    Yields (fun ks a ks' => ks.head? = some (.keyword .return_) →
      ReadsWithin .statement (n + 1) ks a ks') (returnStatement expression) := by
  unfold returnStatement
  refine .spannedAfter (.advance nofun (.peek fun next => ?_))
  split
  · next hnext =>
    refine .pure fun k ks hk span => ?_
    obtain rfl : k = next := Option.some.inj hk
    exact ⟨1, by omega, .returnNone hnext⟩
  · refine .bind he fun value => .pure fun k ks' ks hvalue _ span => ?_
    obtain ⟨m, hm, hvalue⟩ := hvalue
    exact ⟨m + 1, Nat.succ_le_succ hm, .returnSome hvalue⟩

theorem yields_statementBody [Reporting statement] [Reporting expression]
    (hs : Yields (ReadsWithin .statement n) statement)
    (he : Yields (ReadsWithin (.item .expression) n) expression) :
    Yields (ReadsWithin .statement (n + 1)) (statementBody statement expression) := by
  unfold statementBody
  refine .peek fun k => ?_
  split
  · exact yields_letStatement he
  · exact (yields_block hs).mono fun _ _ _ h _ => h
  · exact yields_ifStatement hs he
  · exact yields_whileStatement hs he
  · exact yields_structStatement
  · exact yields_returnStatement he
  · refine .bind he fun value => .pure fun k ks' ks hvalue _ => ?_
    obtain ⟨m, hm, hvalue⟩ := hvalue
    exact ⟨m + 1, Nat.succ_le_succ hm, .expr hvalue⟩

/-! ### Expressions -/

theorem yields_functionLiteral [Reporting statement]
    (hs : Yields (ReadsWithin .statement n) statement) :
    Yields (fun ks a ks' => ks.head? = some (.keyword .fn) → ReadsWithin .unary n ks a ks')
      (functionLiteral statement) := by
  unfold functionLiteral
  refine .spannedAfter (.advance nofun (.symbol (.bind yields_typedNames fun params => .symbol
    (.symbol (.bind yields_typeExpr fun result => .symbol (.bind hs fun body =>
      .pure fun k ks' ks₂ hbody ks₁ hresult ks hparams span => ?_))))))
  obtain ⟨m, hm, hbody⟩ := hbody
  exact ⟨m, hm, .function (hparams _ rfl) hresult hbody⟩

theorem yields_field (he : Yields (ReadsWithin (.item .expression) n) expression) :
    Yields (ReadsWithin (.item .field) n) (field expression) := by
  refine .identifier fun x => .symbol (.bind he fun value => .pure fun k ks' ks hvalue => ?_)
  obtain ⟨m, hm, hvalue⟩ := hvalue
  exact ⟨m, hm, .field hvalue⟩

theorem yields_recordLiteral [Reporting expression]
    (he : Yields (ReadsWithin (.item .expression) n) expression) :
    Yields (fun ks a ks' => ∀ name ks₁, ks = .ident name :: ks₁ → opensRecord name ks₁ = true →
      ReadsWithin .primary n ks a ks') (recordLiteral expression) := by
  rw [recordLiteral_eq]
  refine .spanned (.identifier fun x => .symbol (.bind (yields_field he).items fun fields => .symbol
    (.pure fun k ks' ks hfields span name ks₁ hks hopens => ?_)))
  obtain ⟨m, hm, hfields⟩ := hfields _ rfl
  cases hks
  exact ⟨m, hm, .record hopens hfields⟩

theorem yields_group (he : Yields (ReadsWithin (.item .expression) n) expression) :
    Yields (fun ks a ks' => ks.head? = some (.symbol .openParen) → ReadsWithin .primary n ks a ks')
      (group expression) := by
  unfold group
  refine .spannedAfter (.advance nofun (.bind he fun inner => .symbol
    (.pure fun k ks' ks hinner span => ?_)))
  obtain ⟨m, hm, hinner⟩ := hinner
  exact ⟨m, hm, .group hinner⟩

theorem startsRecord_eq {c : Cursor} {name : String} {ks : List Kind}
    (h : c.kinds = .ident name :: ks) : startsRecord name c = opensRecord name ks := by
  obtain ⟨-, rfl⟩ := List.cons.inj h
  rcases c with ⟨last, current, ahead, faults⟩
  unfold startsRecord Cursor.peekAhead
  rcases ahead with _ | ⟨t, us⟩
  · rfl
  by_cases ht : t.kind = .symbol .openBrace
  · rcases us with _ | ⟨u, vs⟩
    · simp [ht, opensRecord]
    · cases hu : u.kind with
      | ident x =>
        rcases vs with _ | ⟨v, vs⟩
        · simp [ht, hu, opensRecord]
        · by_cases hv : v.kind = .symbol .colon
          · simp [ht, hu, hv, opensRecord]
          · simp [ht, hu, opensRecord, hv]
      | symbol x =>
        by_cases hx : x = .closeBrace
        · simp [ht, hu, hx, opensRecord]
        · simp [ht, hu, hx, opensRecord]
      | int | float | string | keyword | eof => simp [ht, hu, opensRecord]
  · have hf : opensRecord name (t.kind :: us.map Token.kind) = false := by
      unfold opensRecord
      split
      · next h => exact absurd (List.cons.inj h).1 ht
      · next h => exact absurd (List.cons.inj h).1 ht
      · rfl
    simp [ht, hf]

theorem yields_primary [Reporting expression]
    (he : Yields (ReadsWithin (.item .expression) n) expression) :
    Yields (ReadsWithin .primary n) (primary expression) := by
  refine ⟨fun {c a d} hc hp hd => ?_⟩
  unfold primary at hp
  split at hp
  · next l hl =>
    cases hp
    refine ⟨hc.advance, 0, Nat.zero_le n, ?_⟩
    have hk : c.kind ≠ .eof := fun he => by rw [he] at hl; cases hl
    rw [c.kinds_advance hc hk]
    exact .literal hl
  · split at hp
    · next hk =>
      obtain ⟨hdc, h⟩ := (yields_group he).run hc hp hd
      exact ⟨hdc, h (congrArg some hk)⟩
    · next name hk =>
      have hks : c.kinds = .ident name :: c.advance.kinds := by
        rw [c.kinds_advance hc (by simp [hk]), hk]
      rw [startsRecord_eq hks] at hp
      split at hp
      · next hopens =>
        obtain ⟨hdc, h⟩ := (yields_recordLiteral he).run hc hp hd
        exact ⟨hdc, h name _ hks hopens⟩
      · next hopens =>
        cases hp
        refine ⟨hc.advance, 0, Nat.zero_le n, ?_⟩
        rw [hks]
        exact .variable_ (by simpa using hopens)
    · cases hp

/-- One call or member access is as much as the first of those behind an expression. -/
theorem yields_suffix [Reporting expression]
    (he : Yields (ReadsWithin (.item .expression) n) expression) (e : Expr) :
    Yields (fun ks e₁ ks₁ => ∀ m e' ks', m ≤ n → Reads (.suffixes e₁) m ks₁ e' ks' →
      ReadsWithin (.suffixes e) (n + 1) ks e' ks') (suffix expression e) := by
  unfold suffix
  refine .eat nofun (.identifier fun x => .pure fun k ks₁ m e' ks' hm hrest => ?_) ?_
  · exact ⟨m + 1, Nat.succ_le_succ hm, .get hrest⟩
  · refine .symbol (.bind he.items fun args => .here fun close => .symbol
      (.pure fun k ks₁ ks hargs _ m e' ks' hm hrest => ?_))
    obtain ⟨m', hm', hargs⟩ := hargs _ rfl
    exact ⟨max m' m + 1, by omega, .call hargs hrest⟩

end Parts

end Parser

theorem Operator.apply_eq (op : Operator) (left right : Expr) :
    op.apply left right = .new (op.form left right) (left.span.merge right.span) := by
  cases op <;> rfl

/-! ### The grammar -/

namespace Grammar

open RecordLang.Parser

/-- The parsers of a grammar with an allowance of `n` levels read no more than that. -/
structure Sound (g : Grammar) (n : Nat) : Prop where
  statement : Yields (ReadsWithin .statement n) g.statement
  expression : Yields (ReadsWithin (.item .expression) n) g.expression
  unary : Yields (ReadsWithin .unary n) g.unary
  chain : ∀ l left, Yields (ReadsWithin (.chain l left) n) (g.chain l left)
  suffixes : ∀ e, Yields (ReadsWithin (.suffixes e) n) (g.suffixes e)

theorem Sound.operand {g : Grammar} {n : Nat} (h : g.Sound n) (hg : g.Reports) (l : Nat) :
    Yields (ReadsWithin (.operand l) n) (g.operand l) := by
  induction l with
  | zero =>
    refine h.unary.mono fun ks e ks' ⟨m, hm, he⟩ => ?_
    exact ⟨m, hm, .operandZero he⟩
  | succ l ih =>
    have hc := hg.chain l
    unfold Grammar.operand
    refine .bind ih fun left => (h.chain l left).mono fun ks₁ e ks' hrest ks hfirst => ?_
    obtain ⟨m, hm, hfirst⟩ := hfirst
    obtain ⟨m', hm', hrest⟩ := hrest
    exact ⟨max m m', Nat.max_le.mpr ⟨hm, hm'⟩, .operandSucc hfirst hrest⟩

/-- The inner grammar of one with an allowance of `n` levels. -/
def inner : Nat → Option Grammar
  | 0 => none
  | n + 1 => some (allowing n)

theorem allowing_eq (n : Nat) : allowing n = around (inner n) := by
  cases n <;> rfl

theorem yields_nested {α : Type} {Q : List Kind → α → List Kind → Prop} {n : Nat}
    {p : Grammar → Parser α} (h : ∀ n', n = n' + 1 → Yields Q (p (allowing n'))) :
    Yields Q (nested (inner n) p) := by
  cases n with
  | zero => exact .fail
  | succ n => exact h n rfl

theorem sound_step {n : Nat} (h : ∀ n', n = n' + 1 → (allowing n').Sound n') :
    (around (inner n)).Sound n := by
  have hr : ∀ n', (allowing n').Reports := reports_allowing
  have hrep : (around (inner n)).Reports := allowing_eq n ▸ hr n
  have hs : Yields (ReadsWithin .statement n) (statementAround (inner n)) := by
    refine yields_nested fun n' hn => ?_
    subst hn
    exact yields_statementBody (h n' rfl).statement (h n' rfl).expression
  have he : Yields (ReadsWithin (.item .expression) n) (expressionAround (inner n)) := by
    refine yields_nested fun n' hn => ?_
    subst hn
    refine ((h n' rfl).operand (hr n') _).mono fun ks e ks' ⟨m, hm, he⟩ => ?_
    exact ⟨m + 1, Nat.succ_le_succ hm, .expression he⟩
  have hx : ∀ e, Yields (ReadsWithin (.suffixes e) n) (suffixesAround (inner n) e) := by
    intro e
    have hnext : Yields (ReadsWithin (.suffixes e) n)
        (nested (inner n) fun g => do g.suffixes (← suffix g.expression e)) := by
      refine yields_nested fun n' hn => ?_
      subst hn
      refine .bind (yields_suffix (h n' rfl).expression e) fun e₁ =>
        ((h n' rfl).suffixes e₁).mono fun ks₁ e' ks' hrest ks hfirst => ?_
      obtain ⟨m, hm, hrest⟩ := hrest
      exact hfirst m e' ks' hm hrest
    refine .peek fun k => ?_
    split
    · exact hnext.mono fun _ _ _ h _ => h
    · exact hnext.mono fun _ _ _ h _ => h
    · next hopen hdot =>
      refine .pure fun k' ks hk => ?_
      obtain rfl : k' = k := Option.some.inj hk
      exact ⟨0, Nat.zero_le n, .suffixesNil hopen hdot⟩
  have hu : Yields (ReadsWithin .unary n) (unaryAround (inner n)) := by
    have : Reporting (statementAround (inner n)) := hrep.statement
    have : Reporting (expressionAround (inner n)) := hrep.expression
    have : ∀ e, Reporting (suffixesAround (inner n) e) := hrep.suffixes
    refine .here fun start => .peek fun k => ?_
    split
    · next op hop =>
      have hk : k ≠ .eof := fun he => by rw [he] at hop; cases hop
      refine .advance hk (.bind (R := fun ks e ks' => ∃ m, m + 1 ≤ n ∧ Reads .unary m ks e ks')
        (yields_nested fun n' hn => ?_) fun e => .pure fun k' ks' ks hoperand => ?_)
      · subst hn
        refine (h n' rfl).unary.mono fun ks e ks' ⟨m, hm, he⟩ => ?_
        exact ⟨m, Nat.succ_le_succ hm, he⟩
      · obtain ⟨m, hm, hoperand⟩ := hoperand
        exact ⟨m + 1, hm, .unaryOp hop hoperand⟩
    · split
      · next hk => exact hk ▸ yields_functionLiteral hs
      · refine .bind (yields_primary he) fun first => (hx first).mono
          fun ks₁ e ks' hrest ks hfirst _ => ?_
        obtain ⟨m, hm, hfirst⟩ := hfirst
        obtain ⟨m', hm', hrest⟩ := hrest
        exact ⟨max m m', Nat.max_le.mpr ⟨hm, hm'⟩, .suffixed hfirst hrest⟩
  have hc : ∀ l left, Yields (ReadsWithin (.chain l left) n) (chainAround (inner n) l left) := by
    intro l left
    refine .peek fun k => ?_
    split
    · next hop =>
      refine .pure fun k' ks hk => ?_
      obtain rfl : k' = k := Option.some.inj hk
      exact ⟨0, Nat.zero_le n, .chainNil hop⟩
    · next op hop =>
      have hk : k ≠ .eof := fun he => by rw [he] at hop; cases hop
      refine yields_nested fun n' hn => ?_
      subst hn
      have := (hr n').chain l
      refine .advance hk (.bind ((h n' rfl).operand (hr n') l) fun right =>
        ((h n' rfl).chain l (op.apply left right)).mono fun ks₁ e ks' hrest ks hsecond => ?_)
      obtain ⟨m, hm, hsecond⟩ := hsecond
      obtain ⟨m', hm', hrest⟩ := hrest
      rw [Operator.apply_eq] at hrest
      exact ⟨max m m' + 1, by omega, .chainCons hop hsecond hrest⟩
  exact ⟨hs, he, hu, hc, hx⟩

theorem sound_allowing (n : Nat) : (allowing n).Sound n := by
  induction n with
  | zero => exact allowing_eq 0 ▸ sound_step nofun
  | succ n ih =>
    rw [allowing_eq]
    refine sound_step fun n' hn => ?_
    obtain rfl := Nat.succ.inj hn
    exact ih

end Grammar

end RecordLang
