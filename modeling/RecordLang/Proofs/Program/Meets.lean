import RecordLang.Proofs.Program.Sound

/-!
# Runs where something can be read

`Meets n m p ks P ks'` says what the parser `p` with an allowance of `n` levels does at the kinds `ks`
where reading takes `m` levels. If the allowance suffices it yields something with `P`, stands at
`ks'` and reports nothing. If not, the first fault is that the nesting is too deep. The lemmas on
combinators go forwards: the levels of a sequence are the maximum of the levels of its parts.
-/

namespace RecordLang

/-- Nothing is wrong so far, and these kinds are ahead, the last of them the end of the text. -/
structure Cursor.Before (c : Cursor) (ks : List Kind) : Prop where
  kinds : c.kinds = ks
  clean : c.faults = .empty
  closed : c.Closed

/-- The first fault is that the nesting is too deep. -/
def Cursor.TooDeep (c : Cursor) : Prop :=
  ∃ span rest, c.faults.kept = ⟨.tooDeep, span⟩ :: rest

namespace Cursor

variable {c d : Cursor} {k : Kind} {ks : List Kind}

theorem Before.kind (h : c.Before (k :: ks)) : c.kind = k := kind_of_kinds h.kinds

theorem Before.advance (h : c.Before (k :: ks)) (hk : k ≠ .eof) : c.advance.Before ks := by
  have hks := c.kinds_advance h.closed (by rwa [h.kind])
  rw [h.kinds] at hks
  exact ⟨(List.cons.inj hks).2.symm, c.faults_advance.trans h.clean, h.closed.advance⟩

theorem Before.remaining_lt {ks' : List Kind} (hc : c.Before ks) (hd : d.Before ks')
    (h : ks'.length < ks.length) : d.remaining < c.remaining := by
  rw [← hd.kinds, ← hc.kinds, d.length_kinds, c.length_kinds] at h
  exact Nat.lt_of_succ_lt_succ h

theorem TooDeep.advance (h : c.TooDeep) : c.advance.TooDeep := by
  rwa [TooDeep, c.faults_advance]

/-- Later faults do not change the first one. -/
theorem TooDeep.mono (h : c.TooDeep) {fs : List (Located GrammarCause)}
    (hd : d.faults = c.faults.pushAll fs) : d.TooDeep := by
  obtain ⟨span, rest, hc⟩ := h
  obtain ⟨more, hm⟩ : c.faults.kept <+: d.faults.kept := hd ▸ Capped.kept_prefix_pushAll
  exact ⟨span, rest ++ more, by rw [← hm, hc]; rfl⟩

end Cursor

namespace Parser

variable {α β : Type}

theorem tooDeep_of_run {p : Parser α} [Reporting p] {c : Cursor} (h : c.TooDeep) :
    (p c).2.TooDeep := by
  obtain ⟨fs, hf, -⟩ := Reporting.reports (p := p) c
  exact h.mono hf

/-- What a parser with an allowance of `n` levels does where reading takes `m`. -/
structure Meets (n m : Nat) (p : Parser α) (ks : List Kind) (P : α → Prop) (ks' : List Kind) :
    Prop where
  takes : m ≤ n → ∀ c, c.Before ks → ∃ a d, p c = (some a, d) ∧ P a ∧ d.Before ks'
  refuses : n < m → ∀ c, c.Before ks → (p c).2.TooDeep

namespace Meets

variable {n m m' : Nat} {p : Parser α} {ks ks₁ ks' : List Kind} {P Q : α → Prop}

theorem mono (h : Meets n m p ks P ks') (hPQ : ∀ a, P a → Q a) : Meets n m p ks Q ks' := by
  refine ⟨fun hm c hc => ?_, h.refuses⟩
  obtain ⟨a, d, hp, ha, hd⟩ := h.takes hm c hc
  exact ⟨a, d, hp, hPQ a ha, hd⟩

theorem congr {q : Parser α} (h : Meets n m q ks P ks') (hpq : ∀ c, c.Before ks → p c = q c) :
    Meets n m p ks P ks' := by
  refine ⟨fun hm c hc => ?_, fun hm c hc => ?_⟩
  · rw [hpq c hc]
    exact h.takes hm c hc
  · rw [hpq c hc]
    exact h.refuses hm c hc

theorem pure {a : α} (h : P a) : Meets n 0 (pure a) ks P ks :=
  ⟨fun _ c hc => ⟨a, c, rfl, h, hc⟩, fun hm => absurd hm (Nat.not_lt_zero n)⟩

theorem bind {f : β → Parser α} {q : Parser β} {R : β → Prop} [∀ b, Reporting (f b)]
    (hq : Meets n m q ks R ks₁) (hf : ∀ b, R b → Meets n m' (f b) ks₁ P ks') :
    Meets n (max m m') (q >>= f) ks P ks' := by
  refine ⟨fun hm c hc => ?_, fun hm c hc => ?_⟩
  · obtain ⟨b, d, hb, hR, hd⟩ := hq.takes (by omega) c hc
    obtain ⟨a, e, ha, hP, he⟩ := (hf b hR).takes (by omega) d hd
    exact ⟨a, e, bind_eq_some.mpr ⟨b, d, hb, ha⟩, hP, he⟩
  · rw [bind_apply]
    by_cases hn : m ≤ n
    · obtain ⟨b, d, hb, hR, hd⟩ := hq.takes hn c hc
      rw [hb]
      exact (hf b hR).refuses (by omega) d hd
    · have hdeep := hq.refuses (by omega) c hc
      rcases hb : q c with ⟨_ | b, d⟩
      · rw [hb] at hdeep
        exact hdeep
      · rw [hb] at hdeep
        exact tooDeep_of_run hdeep

/-- What is read first takes no level. -/
theorem before {f : β → Parser α} {q : Parser β} {R : β → Prop} [∀ b, Reporting (f b)]
    (hq : Meets n 0 q ks R ks₁) (hf : ∀ b, R b → Meets n m (f b) ks₁ P ks') :
    Meets n m (q >>= f) ks P ks' := by
  have h := hq.bind hf
  rwa [Nat.zero_max] at h

/-- What is read last takes no level. -/
theorem after {f : β → Parser α} {q : Parser β} {R : β → Prop} [∀ b, Reporting (f b)]
    (hq : Meets n m q ks R ks₁) (hf : ∀ b, R b → Meets n 0 (f b) ks₁ P ks') :
    Meets n m (q >>= f) ks P ks' := by
  have h := hq.bind hf
  rwa [Nat.max_zero] at h

/-! ### Single tokens -/

theorem peek {k : Kind} {f : Kind → Parser α} (h : Meets n m (f k) (k :: ks) P ks') :
    Meets n m (peek >>= f) (k :: ks) P ks' := by
  refine h.congr fun c hc => ?_
  rw [← hc.kind]
  rfl

theorem here {f : Span → Parser α} (h : ∀ span, Meets n m (f span) ks P ks') :
    Meets n m (here >>= f) ks P ks' := by
  refine ⟨fun hm c hc => ?_, fun hm c hc => ?_⟩
  · exact (h c.current.span).takes hm c hc
  · exact (h c.current.span).refuses hm c hc

/-- A parser that goes on as `p` behind one token. -/
theorem step {k : Kind} {q : Parser α} (hk : k ≠ .eof) (h : Meets n m p ks P ks')
    (hq : ∀ c, c.Before (k :: ks) → q c = p c.advance) : Meets n m q (k :: ks) P ks' := by
  refine ⟨fun hm c hc => ?_, fun hm c hc => ?_⟩
  · rw [hq c hc]
    exact h.takes hm _ (hc.advance hk)
  · rw [hq c hc]
    exact h.refuses hm _ (hc.advance hk)

theorem advance {k : Kind} (hk : k ≠ .eof) (h : Meets n m p ks P ks') :
    Meets n m (do advance; p) (k :: ks) P ks' :=
  .step hk h fun _ _ => rfl

theorem symbol {x : Symbol} (h : Meets n m p ks P ks') :
    Meets n m (do symbol x; p) (.symbol x :: ks) P ks' := by
  refine .step nofun h fun c hc => ?_
  simp [Parser.symbol, Parser.expect, bind_apply, Parser.peek, Parser.advance, hc.kind]

theorem eatThere {k : Kind} {f : Bool → Parser α} (hk : k ≠ .eof)
    (h : Meets n m (f true) ks P ks') : Meets n m (eat k >>= f) (k :: ks) P ks' := by
  refine .step hk h fun c hc => ?_
  simp [Parser.eat, bind_apply, Parser.peek, Parser.advance, hc.kind]

theorem eatMissing {k : Kind} {f : Bool → Parser α} (h : Meets n m (f false) ks P ks')
    (hk : ks.head? ≠ some k) : Meets n m (eat k >>= f) ks P ks' := by
  refine h.congr fun c hc => ?_
  have hne : c.kind ≠ k := by
    rintro rfl
    rw [← hc.kinds] at hk
    exact hk rfl
  simp [Parser.eat, bind_apply, Parser.peek, hne]

theorem identifier {x : String} {f : Ident → Parser α}
    (h : ∀ span, Meets n m (f ⟨x, span⟩) ks P ks') :
    Meets n m (identifier >>= f) (.ident x :: ks) P ks' := by
  have hrun : ∀ c : Cursor, c.Before (.ident x :: ks) →
      (Parser.identifier >>= f) c = f ⟨x, c.current.span⟩ c.advance := fun c hc => by
    simp [Parser.identifier, bind_apply, Parser.here, Parser.peek, Parser.advance, hc.kind]
  refine ⟨fun hm c hc => ?_, fun hm c hc => ?_⟩
  · rw [hrun c hc]
    exact (h _).takes hm _ (hc.advance (by simp))
  · rw [hrun c hc]
    exact (h _).refuses hm _ (hc.advance (by simp))

theorem spanned {p : Parser (Span → α)} (h : Meets n m p ks (fun f => ∀ span, P (f span)) ks') :
    Meets n m (spanned p) ks P ks' := by
  refine ⟨fun hm c hc => ?_, fun hm c hc => ?_⟩
  · obtain ⟨f, d, hp, hf, hd⟩ := h.takes hm c hc
    exact ⟨f (c.current.span.merge d.last), d, by simp only [Parser.spanned, hp], hf _, hd⟩
  · have hdeep := h.refuses hm c hc
    unfold Parser.spanned
    rcases hp : p c with ⟨_ | f, d⟩
    · rw [hp] at hdeep
      exact hdeep
    · rw [hp] at hdeep
      exact hdeep

theorem nested {p : Grammar → Parser α}
    (h : ∀ n', n = n' + 1 → Meets n' m (p (.allowing n')) ks P ks') :
    Meets n (m + 1) (Grammar.nested (Grammar.inner n) p) ks P ks' := by
  cases n with
  | zero =>
    refine ⟨fun hm => absurd hm (Nat.not_succ_le_zero m), fun _ c hc => ?_⟩
    refine ⟨c.current.span, [], ?_⟩
    have hf : (Parser.fail .tooDeep c : Option α × Cursor).2.faults =
        c.faults.push ⟨.tooDeep, c.current.span⟩ := rfl
    have hnest : Grammar.nested (Grammar.inner 0) p c = Parser.fail .tooDeep c := rfl
    rw [hnest, hf, hc.clean]
    rfl
  | succ n =>
    refine ⟨fun hm => (h n rfl).takes (by omega), fun hm => (h n rfl).refuses (by omega)⟩

/-! ### Lists -/

theorem itemsNil {close : Symbol} {q : Parser α} :
    Meets n 0 (items close q) (.symbol close :: ks) (· = []) (.symbol close :: ks) := by
  refine ⟨fun _ c hc => ⟨[], c, ?_, rfl, hc⟩, fun hm => absurd hm (Nat.not_lt_zero n)⟩
  rw [items, if_pos]
  simp [Cursor.sees_iff.mpr hc.kind]

/-- An item begins here, and no list ends. -/
def Opens (close : Symbol) (ks : List Kind) : Prop :=
  ∃ k ks₁, ks = k :: ks₁ ∧ k ≠ .symbol close ∧ k ≠ .eof

theorem items_eq {close : Symbol} {q : Parser α} {c : Cursor} (h : Opens close ks)
    (hc : c.Before ks) : items close q c =
      match q c with
      | (none, d) => (none, d)
      | (some a, d) =>
        if d.sees .comma then
          if _h : d.advance.remaining < c.remaining then
            match items close q d.advance with
            | (some as, e) => (some (a :: as), e)
            | (none, e) => (none, e)
          else (some [a], d.advance)
        else (some [a], d) := by
  obtain ⟨k, ks₁, rfl, hclose, heof⟩ := h
  have hend : ¬ (c.sees close || c.atEnd) = true := by
    simp [Cursor.sees, Cursor.atEnd, hc.kind, hclose, heof]
  rw [items]
  exact if_neg hend

/-- If the first item is nested too deep, this stays the first fault. -/
theorem items_tooDeep {close : Symbol} {q : Parser α} [Reporting q] {c : Cursor}
    (h : Opens close ks) (hc : c.Before ks) (hdeep : (q c).2.TooDeep) :
    (items close q c).2.TooDeep := by
  rw [items_eq h hc]
  rcases hq : q c with ⟨_ | a, d⟩
  · rw [hq] at hdeep
    exact hdeep
  · rw [hq] at hdeep
    have hrest : (items close q d.advance).2.TooDeep :=
      tooDeep_of_run (p := items close q) hdeep.advance
    dsimp only
    split
    · split
      · split
        · next he => rwa [he] at hrest
        · next he => rwa [he] at hrest
      · exact hdeep.advance
    · exact hdeep

theorem itemsLast {close : Symbol} {q : Parser α} [Reporting q] (h : Opens close ks)
    (hq : Meets n m q ks P (.symbol close :: ks')) (hclose : close ≠ .comma) :
    Meets n m (items close q) ks (fun as => ∃ a, P a ∧ as = [a]) (.symbol close :: ks') := by
  refine ⟨fun hm c hc => ?_, fun hm c hc => items_tooDeep h hc (hq.refuses hm c hc)⟩
  obtain ⟨a, d, ha, hP, hd⟩ := hq.takes hm c hc
  refine ⟨[a], d, ?_, ⟨a, hP, rfl⟩, hd⟩
  rw [items_eq h hc, ha]
  simp [Cursor.sees, hd.kind, hclose]

theorem itemsNext {close : Symbol} {q : Parser α} [Reporting q] {R : List α → Prop}
    (h : Opens close ks) (hq : Meets n m q ks P (.symbol .comma :: ks₁))
    (hrest : Meets n m' (items close q) ks₁ R ks') (hlen : ks₁.length < ks.length) :
    Meets n (max m m') (items close q) ks (fun as => ∃ a as', P a ∧ R as' ∧ as = a :: as') ks' := by
  -- with levels enough for the first item, the run goes on as one behind its comma
  have hrun : m ≤ n → ∀ c : Cursor, c.Before ks → ∃ a d, P a ∧ d.Before ks₁ ∧
      items close q c = match items close q d with
        | (some as, e) => (some (a :: as), e)
        | (none, e) => (none, e) := by
    intro hm c hc
    obtain ⟨a, d, ha, hP, hd⟩ := hq.takes hm c hc
    have hd' := hd.advance nofun
    refine ⟨a, d.advance, hP, hd', ?_⟩
    have hlt : d.advance.remaining < c.remaining := hc.remaining_lt hd' hlen
    rw [items_eq h hc, ha]
    simp only [Cursor.sees_iff.mpr hd.kind, if_true, hlt, dite_true]
  refine ⟨fun hm c hc => ?_, fun hm c hc => ?_⟩
  · obtain ⟨a, d, hP, hd, hi⟩ := hrun (by omega) c hc
    obtain ⟨as, e, has, hR, he⟩ := hrest.takes (by omega) d hd
    exact ⟨a :: as, e, by rw [hi, has], ⟨a, as, hP, hR, rfl⟩, he⟩
  · by_cases hn : m ≤ n
    · obtain ⟨a, d, hP, hd, hi⟩ := hrun hn c hc
      have hdeep := hrest.refuses (by omega) d hd
      rw [hi]
      split
      · next he => rwa [he] at hdeep
      · next he => rwa [he] at hdeep
    · exact items_tooDeep h hc (hq.refuses (by omega) c hc)

theorem bodyNil {ends : Kind → Bool} {q : Parser Stmt} {k : Kind} (h : ends k = true) :
    Meets n 0 (body ends q) (k :: ks) (· = []) (k :: ks) := by
  refine ⟨fun _ c hc => ⟨[], c, ?_, rfl, hc⟩, fun hm => absurd hm (Nat.not_lt_zero n)⟩
  have hend : (ends c.kind || c.faults.full) = true := by rw [hc.kind, h, Bool.true_or]
  rw [body, statements, if_pos hend]

theorem statements_eq {ends : Kind → Bool} {q : Parser Stmt} {k : Kind} {c : Cursor}
    (h : ends k = false) (hc : c.Before (k :: ks)) : statements ends q c =
      match q c with
      | (some s, d) =>
        if _h : d.remaining < c.remaining then
          let (ss, e) := statements ends q d
          (s :: ss, e)
        else ([s], d)
      | (none, d) =>
        if _h : (d.resync c).remaining < c.remaining then statements ends q (d.resync c)
        else ([], d.resync c) := by
  have hend : ¬ (ends c.kind || c.faults.full) = true := by
    rw [hc.kind, h, hc.clean]
    exact nofun
  rw [statements]
  exact if_neg hend

theorem body_tooDeep {ends : Kind → Bool} {q : Parser Stmt} [Reporting q] {k : Kind} {c : Cursor}
    (h : ends k = false) (hc : c.Before (k :: ks)) (hdeep : (q c).2.TooDeep) :
    (body ends q c).2.TooDeep := by
  -- the fault of the first statement stays, whether or not the loop goes on behind it
  have hgo : ∀ d : Cursor, d.TooDeep → (statements ends q d).2.TooDeep := fun d hd =>
    tooDeep_of_run (p := body ends q) hd
  have hskip : ∀ d : Cursor, d.TooDeep → (d.resync c).TooDeep := fun d hd => by
    rwa [Cursor.TooDeep, faults_resync]
  rw [body, statements_eq h hc]
  rcases hq : q c with ⟨_ | s, d⟩
  · rw [hq] at hdeep
    dsimp only
    split
    · exact hgo _ (hskip d hdeep)
    · exact hskip d hdeep
  · rw [hq] at hdeep
    dsimp only
    split
    · exact hgo d hdeep
    · exact hdeep

theorem bodyCons {ends : Kind → Bool} {q : Parser Stmt} [Reporting q] {k : Kind} {P : Stmt → Prop}
    {R : List Stmt → Prop} (h : ends k = false) (hq : Meets n m q (k :: ks) P ks₁)
    (hrest : Meets n m' (body ends q) ks₁ R ks') (hlen : ks₁.length < (k :: ks).length) :
    Meets n (max m m') (body ends q) (k :: ks) (fun ss => ∃ s ss', P s ∧ R ss' ∧ ss = s :: ss')
      ks' := by
  have hrun : m ≤ n → ∀ c : Cursor, c.Before (k :: ks) → ∃ s d, P s ∧ d.Before ks₁ ∧
      statements ends q c = (s :: (statements ends q d).1, (statements ends q d).2) := by
    intro hm c hc
    obtain ⟨s, d, hs, hP, hd⟩ := hq.takes hm c hc
    refine ⟨s, d, hP, hd, ?_⟩
    have hlt : d.remaining < c.remaining := hc.remaining_lt hd hlen
    rw [statements_eq h hc, hs]
    simp only [hlt, dite_true]
  refine ⟨fun hm c hc => ?_, fun hm c hc => ?_⟩
  · obtain ⟨s, d, hP, hd, hi⟩ := hrun (by omega) c hc
    obtain ⟨ss, e, hss, hR, he⟩ := hrest.takes (by omega) d hd
    obtain ⟨rfl, rfl⟩ : (statements ends q d).1 = ss ∧ (statements ends q d).2 = e := by
      simpa [body] using hss
    exact ⟨_, _, by rw [body, hi], ⟨s, _, hP, hR, rfl⟩, he⟩
  · by_cases hn : m ≤ n
    · obtain ⟨s, d, hP, hd, hi⟩ := hrun hn c hc
      rw [body, hi]
      exact hrest.refuses (by omega) d hd
    · exact body_tooDeep h hc (hq.refuses (by omega) c hc)

end Meets

end Parser

end RecordLang
