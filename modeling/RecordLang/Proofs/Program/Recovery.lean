import RecordLang.Proofs.Program.Counter

/-!
# Going on after a fault

A round over statements leaves nothing behind that a later one could see: the number of open levels
is zero again, and a statement is read from the tokens ahead of it alone. So reading may be cut
between any two rounds. What is read behind the cut is what is read of those tokens alone, unless the
store of faults gets full (`Parser.Rounds.exists_parse_drop`).
-/

namespace RecordLang

/-! ### The tokens behind a cut -/

namespace Cursor

variable {d : Cursor} {passed : List Token}

/-- Behind some of the tokens stand the others, or the end of the text. -/
theorem tokens_drop {tokens : List Token} (h : (ofTokens tokens).tokens = passed ++ d.tokens) :
    d.tokens = (ofTokens (tokens.drop passed.length)).tokens ∨
    d.kind = .eof ∧ (ofTokens (tokens.drop passed.length)).kind = .eof := by
  induction passed generalizing tokens with
  | nil => exact .inl h.symm
  | cons t passed ih =>
    cases tokens with
    | nil =>
      -- a single token cannot be split between what is passed over and what is ahead
      have hlen := congrArg List.length h
      rw [List.length_append, d.length_tokens, List.length_cons] at hlen
      have hone : (ofTokens []).tokens.length = 1 := rfl
      omega
    | cons u ts =>
      have htail : closed u ts = passed ++ d.tokens := (List.cons.inj h).2
      cases ts with
      | cons v vs => exact ih htail
      | nil =>
        right
        rw [closed] at htail
        split at htail
        · have hlen := congrArg List.length htail
          rw [List.length_append, d.length_tokens, List.length_nil] at hlen
          omega
        · have hlen := congrArg List.length htail
          rw [List.length_append, d.length_tokens, List.length_singleton] at hlen
          obtain rfl : passed = [] := List.length_eq_zero_iff.mp (by omega)
          exact ⟨congrArg Token.kind (List.cons.inj htail).1.symm, rfl⟩

end Cursor

/-! ### Rounds before and behind a cut -/

/-- The statements and the faults are some given ones, and then those of another text. -/
structure Parsed.Continues (p : Parsed) (ss : List Stmt) (faults : Capped (Located GrammarCause))
    (q : Parsed) : Prop where
  body : p.body = ss ++ q.body
  kept : p.faults.kept = faults.kept ++ q.faults.kept
  total : p.faults.total = faults.total + q.faults.total

namespace Parser

section Cut

variable {ends : Kind → Bool} {p : Parser Stmt} {c d : Cursor} {ss : List Stmt}

theorem Rounds.faults [Reporting p] (h : Rounds ends p c ss d) :
    ∃ fs, d.faults = c.faults.pushAll fs := by
  induction h with
  | start c => exact ⟨[], rfl⟩
  | @round c d e s ss first rest ih =>
    obtain ⟨gs, hgs⟩ := ih
    have hfirst : ∃ fs, d.faults = c.faults.pushAll fs := by
      obtain ⟨fs, hfs, -⟩ := Reporting.reports (p := p) c
      cases first with
      | read hopen hpc => exact ⟨fs, by rwa [hpc] at hfs⟩
      | failed hopen hpc => exact ⟨fs, by rwa [hpc, ← faults_resync _ c] at hfs⟩
    obtain ⟨fs, hfs⟩ := hfirst
    exact ⟨fs ++ gs, by rw [hgs, hfs, Capped.pushAll_append]⟩

/-- Reading may be cut between two rounds. -/
theorem Rounds.statements_eq (hp : Steady true p) (hends : ends .eof = true)
    (h : Rounds ends p c ss d) (hc : c.Closed) :
    statements ends p c = (ss ++ (statements ends p d).1, (statements ends p d).2) := by
  induction h with
  | start c => rfl
  | @round c d e s ss first rest ih =>
    obtain ⟨passed, -, hmoves⟩ := first.moves hp hends hc
    have hrest := ih (hmoves.closed hc)
    cases first with
    | read hopen hpc =>
      rw [statements_unguarded hp hends hc hopen, hpc]
      simp only [hrest]
      rfl
    | failed hopen hpc =>
      rw [statements_unguarded hp hends hc hopen, hpc]
      simp only [hrest]
      rfl

end Cut

/-- Behind a cut the rest is read as it is from the tokens behind the cut alone. -/
theorem exists_body_drop {p : Parser Stmt} (hp : Steady true p) {tokens passed : List Token}
    {d : Cursor} (hmoves : (Cursor.ofTokens tokens).Moves passed d)
    (hfew : (statements (· == .eof) p d).2.faults.total < Capped.limit) :
    ∃ o, (body (· == .eof) p).Does d o ∧
      (body (· == .eof) p).Does (Cursor.ofTokens (tokens.drop passed.length)) o := by
  rcases Cursor.tokens_drop hmoves.tokens with hts | ⟨hd, hend⟩
  · have hclosed := hmoves.closed (Cursor.closed_ofTokens tokens)
    have hbody : Steady false (body (· == .eof) p) := .body hp rfl
    obtain ⟨o, ho, -, hsame⟩ := hbody.run d hclosed trivial
    have htotal : d.faults.total + o.faults.length < Capped.limit := by
      rw [← Capped.total_pushAll, ← ho.faults]
      exact hfew
    refine ⟨o, ho, hsame _ hts.symm htotal ?_⟩
    rw [Cursor.Room, Cursor.faults_ofTokens]
    exact Nat.lt_of_le_of_lt (Nat.add_le_add_right (Nat.zero_le _) _) htotal
  · exact ⟨_, does_body_end (by rw [hd]; rfl), does_body_end (by rw [hend]; rfl)⟩

theorem Rounds.exists_parse_drop {tokens : List Token} {ss : List Stmt} {d : Cursor}
    (h : Rounds (· == .eof) Grammar.full.statement (Cursor.ofTokens tokens) ss d) :
    ∃ passed, (Cursor.ofTokens tokens).Moves passed d ∧
      ((parse tokens).faults.total < Capped.limit →
        (parse tokens).Continues ss d.faults (parse (tokens.drop passed.length))) := by
  have hsteady : Steady true Grammar.full.statement := (Grammar.steady_allowing _).statement
  have hclosed := Cursor.closed_ofTokens tokens
  obtain ⟨passed, hmoves⟩ := h.moves hsteady rfl hclosed
  refine ⟨passed, hmoves, fun hfew => ?_⟩
  have hcut := h.statements_eq hsteady rfl hclosed
  have hparse : (parse tokens).faults =
      (statements (· == .eof) Grammar.full.statement d).2.faults :=
    congrArg (fun r => r.2.faults) hcut
  obtain ⟨o, ho, ho'⟩ := exists_body_drop hsteady hmoves (hparse ▸ hfew)
  -- all faults, in the order in which they were found
  obtain ⟨fs, hfs⟩ : ∃ fs, d.faults = Capped.empty.pushAll fs := by
    rw [← Cursor.faults_ofTokens tokens]
    exact @Rounds.faults _ _ _ _ _ (Grammar.reports_allowing _).statement h
  have hall : (parse tokens).faults = (Capped.empty.pushAll fs).pushAll o.faults := by
    rw [hparse, ← hfs]
    exact ho.faults
  have hdrop : (parse (tokens.drop passed.length)).faults = Capped.empty.pushAll o.faults := by
    rw [← Cursor.faults_ofTokens (tokens.drop passed.length)]
    exact ho'.faults
  rw [hall] at hfew
  refine ⟨?_, ?_, ?_⟩
  · have hresult := Option.some.inj (ho.result.trans ho'.result.symm)
    rw [body_parse, body_parse, hcut, hresult]
  · rw [hall, hdrop, hfs]
    exact Capped.kept_pushAll_empty hfew
  · rw [hall, hdrop, hfs, Capped.total_pushAll, @Capped.total_pushAll _ .empty o.faults]
    exact congrArg _ (Nat.zero_add _).symm

end Parser

/-! ### Levels between rounds -/

namespace Counted

variable {ends : Kind → Bool} {q : Counted Stmt} {p : Parser Stmt} {n : Nat} {g k : Gauge}
  {c d : Cursor} {ss : List Stmt}

/-- Rounds of the machine over statements. -/
inductive Rounds (ends : Kind → Bool) (q : Counted Stmt) :
    Gauge → Cursor → List Stmt → Gauge → Cursor → Prop
  | start (g : Gauge) (c : Cursor) : Rounds ends q g c [] g c
  | read {g h k : Gauge} {c d e : Cursor} {s : Stmt} {ss : List Stmt}
    (hopen : (ends c.kind || c.faults.full) = false) (first : q g c = (some s, h, d))
    (rest : Rounds ends q h d ss k e) : Rounds ends q g c (s :: ss) k e
  | failed {g h k : Gauge} {c d e : Cursor} {ss : List Stmt}
    (hopen : (ends c.kind || c.faults.full) = false) (first : q g c = (none, h, d))
    (rest : Rounds ends q h (d.resync c) ss k e) : Rounds ends q g c ss k e

theorem Tracks.of_run {α : Type} {q : Counted α} {p : Parser α} {r : Option α}
    (hq : Tracks n q p) (hg : g.now + n = GrammarCause.maxNesting) (h : q g c = (r, k, d)) :
    p c = (r, d) ∧ g.Returns k := by
  obtain ⟨k', hrun, hret⟩ := hq.run g c hg
  obtain ⟨hr, hk⟩ := Prod.mk.inj (hrun.symm.trans h)
  obtain ⟨rfl, hd⟩ := Prod.mk.inj hk
  exact ⟨Prod.ext hr hd, hret⟩

/-- The rounds of the machine are those of the parser, and the number of levels is the same between
any two of them. -/
theorem Tracks.rounds (hq : Tracks n q p) (h : Rounds ends q g c ss k d)
    (hg : g.now + n = GrammarCause.maxNesting) : Parser.Rounds ends p c ss d ∧ g.Returns k := by
  induction h with
  | start g c => exact ⟨.start c, .refl g⟩
  | read hopen first rest ih =>
    obtain ⟨hp, hret⟩ := hq.of_run hg first
    obtain ⟨hrest, hret'⟩ := ih (by rw [hret.now, hg])
    exact ⟨.round (.read hopen hp) hrest, hret.trans hret'⟩
  | failed hopen first rest ih =>
    obtain ⟨hp, hret⟩ := hq.of_run hg first
    obtain ⟨hrest, hret'⟩ := ih (by rw [hret.now, hg])
    exact ⟨.round (.failed hopen hp) hrest, hret.trans hret'⟩

theorem Tracks.exists_rounds (hq : Tracks n q p) (h : Parser.Rounds ends p c ss d)
    (hg : g.now + n = GrammarCause.maxNesting) : ∃ k, Rounds ends q g c ss k d := by
  induction h generalizing g with
  | start c => exact ⟨g, .start g c⟩
  | @round c d e s ss first rest ih =>
    obtain ⟨h, hrun, hret⟩ := hq.run g c hg
    obtain ⟨k, hrest⟩ := ih (by rw [hret.now, hg])
    cases first with
    | read hopen hp =>
      rw [hp] at hrun
      exact ⟨k, .read hopen hrun hrest⟩
    | failed hopen hp =>
      rw [hp] at hrun
      exact ⟨k, .failed hopen hrun hrest⟩

end Counted

/-- Every parser of the machine does what the grammar does and leaves the number of levels as it was,
at every number of levels and whether it finds anything or not. Between any two rounds over the
statements of a text that number is zero. Up to there it was never below zero, and it was above the
limit only while a level was refused, never where a parser was called or returned. From there on the
statements and the faults are those of the tokens that are left, as long as the store of faults does
not get full. -/
theorem parse_resumes (tokens : List Token) :
    (∀ n ≤ GrammarCause.maxNesting, CountedGrammar.full.TracksAll n (Grammar.allowing n)) ∧
    (∀ ss d, Parser.Rounds (· == .eof) Grammar.full.statement (Cursor.ofTokens tokens) ss d ↔
      ∃ g, Counted.Rounds (· == .eof) CountedGrammar.full.statement ⟨0, []⟩
        (Cursor.ofTokens tokens) ss g d) ∧
    ∀ ss g d, Counted.Rounds (· == .eof) CountedGrammar.full.statement ⟨0, []⟩
        (Cursor.ofTokens tokens) ss g d →
      g.now = 0 ∧ Gauge.Trail 0 g.past ∧
      (∀ v : Int, .seen v ∈ g.past → 0 ≤ v ∧ v ≤ GrammarCause.maxNesting) ∧
      ∃ passed, (Cursor.ofTokens tokens).Moves passed d ∧
        ((parse tokens).faults.total < Capped.limit →
          (parse tokens).Continues ss d.faults (parse (tokens.drop passed.length))) := by
  have htop : Counted.Tracks GrammarCause.maxNesting CountedGrammar.full.statement
      Grammar.full.statement := (CountedGrammar.tracksAll_full (Nat.le_refl _)).statement
  have hstart : (⟨0, []⟩ : Gauge).now + GrammarCause.maxNesting = GrammarCause.maxNesting :=
    Int.zero_add _
  refine ⟨fun n hn => CountedGrammar.tracksAll_full hn,
    fun ss d => ⟨fun h => htop.exists_rounds h hstart, ?_⟩, fun ss g d h => ?_⟩
  · rintro ⟨g, h⟩
    exact (htop.rounds h hstart).1
  · obtain ⟨hrounds, hreturns⟩ := htop.rounds h hstart
    obtain ⟨rs, hpast, htrail⟩ := hreturns.past
    rw [List.append_nil] at hpast
    rw [hpast]
    exact ⟨hreturns.now, htrail, fun v hv => htrail.of_seen hv, hrounds.exists_parse_drop⟩

/-- A sum without a right operand, and a statement. -/
def brokenSum : List Token :=
  [.ident "a", .symbol .plus, .symbol .closeParen, .keyword .return_].map (⟨·, default⟩)

/-- The third level, which is that of the operator, is left although its operand fails. -/
theorem brokenSum_resumes : ∃ g d,
    Counted.Rounds (· == .eof) CountedGrammar.full.statement ⟨0, []⟩ (Cursor.ofTokens brokenSum) []
      g d ∧
    .set 3 ∈ g.past ∧ .seen 3 ∈ g.past ∧ (parse brokenSum).faults.total < Capped.limit ∧ g.now = 0 ∧
    (parse brokenSum).Continues [] d.faults (parse (brokenSum.drop 3)) := by
  have hrounds : Counted.Rounds (· == .eof) CountedGrammar.full.statement ⟨0, []⟩
      (Cursor.ofTokens brokenSum) [] _ _ := .failed rfl rfl (.start _ _)
  have hfew : (parse brokenSum).faults.total < Capped.limit := by decide +kernel
  obtain ⟨hnow, -, -, passed, hmoves, hrest⟩ := (parse_resumes brokenSum).2.2 _ _ _ hrounds
  have hthree : passed.length = 3 := Nat.add_right_cancel (m := 1) hmoves.remaining.symm
  rw [hthree] at hrest
  exact ⟨_, _, hrounds, by decide +kernel, by decide +kernel, hfew, hnow, hrest hfew⟩

end RecordLang
