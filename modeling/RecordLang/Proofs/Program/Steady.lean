import RecordLang.Proofs.Program.Moves

/-!
# What a run depends on

A run passes over some of the tokens ahead and adds some faults (`Parser.Outcome`). A steady parser
has the same outcome wherever the same tokens are ahead: what was read before does not matter, nor do
the faults, as long as there is room for those that it adds. A strict one passes over a token if it
yields something. The lemmas on combinators go forwards, so that a proof reads as the parser does; a
list or a sequence of statements is steady if its parts are, and its rounds are not cut off.
-/

namespace RecordLang

/-! ### Outcomes -/

/-- The store has room for these faults and at least one more. -/
def Cursor.Room (c : Cursor) (fs : List (Located GrammarCause)) : Prop :=
  c.faults.total + fs.length < Capped.limit

theorem Cursor.Room.full {c : Cursor} {fs : List (Located GrammarCause)} (h : c.Room fs) :
    c.faults.full = false := by
  have hlt : c.faults.total < Capped.limit := Nat.lt_of_le_of_lt (Nat.le_add_right _ _) h
  simpa [Capped.full] using hlt

theorem Cursor.Room.left {c : Cursor} {fs gs : List (Located GrammarCause)}
    (h : c.Room (fs ++ gs)) : c.Room fs := by
  unfold Room at h ⊢
  rw [List.length_append] at h
  omega

theorem Cursor.Room.right {c d : Cursor} {fs gs : List (Located GrammarCause)}
    (h : c.Room (fs ++ gs)) (hd : d.faults = c.faults.pushAll fs) : d.Room gs := by
  unfold Room at h ⊢
  rw [hd, Capped.total_pushAll]
  rw [List.length_append] at h
  omega

namespace Parser

variable {α β : Type}

/-- What a run yields, which tokens it passes over and which faults it adds. -/
structure Outcome (α : Type) where
  result : Option α
  passed : List Token
  faults : List (Located GrammarCause)

/-- The run at a cursor has this outcome. -/
structure Does (p : Parser α) (c : Cursor) (o : Outcome α) : Prop where
  result : (p c).1 = o.result
  moves : c.Moves o.passed (p c).2
  faults : (p c).2.faults = c.faults.pushAll o.faults

namespace Does

variable {p : Parser α} {f : α → Parser β} {c c' : Cursor} {o : Outcome α} {passed : List Token}
  {fs : List (Located GrammarCause)}

theorem eq (h : p.Does c o) : p c = (o.result, (p c).2) := Prod.ext h.result rfl

theorem of_eq {d : Cursor} (h : p c = (o.result, d)) (hmoves : c.Moves o.passed d)
    (hfaults : d.faults = c.faults.pushAll o.faults) : p.Does c o :=
  ⟨by rw [h], by rwa [h], by rwa [h]⟩

theorem congr {q : Parser α} (h : q.Does c o) (hpq : p c = q c) : p.Does c o :=
  .of_eq (hpq.trans h.eq) h.moves h.faults

theorem bind_none (h : p.Does c ⟨none, passed, fs⟩) : (p >>= f).Does c ⟨none, passed, fs⟩ := by
  refine .of_eq ?_ h.moves h.faults
  rw [bind_apply, h.eq]

theorem bind_some {a : α} {o' : Outcome β} (h : p.Does c ⟨some a, passed, fs⟩)
    (h' : (f a).Does (p c).2 o') :
    (p >>= f).Does c ⟨o'.result, passed ++ o'.passed, fs ++ o'.faults⟩ := by
  refine .of_eq (d := (f a (p c).2).2) ?_ (h.moves.trans h'.moves) ?_
  · rw [bind_apply, h.eq]
    exact h'.eq
  · rw [h'.faults, h.faults, Capped.pushAll_append]

end Does

/-- At a cursor at a kind with `P` the parser moves forward, and further if it is strict and yields
something. At the same tokens the outcome is the same. -/
structure SteadyAt (P : Kind → Prop) (strict : Bool) (p : Parser α) : Prop where
  run : ∀ c : Cursor, c.Closed → P c.kind → ∃ o : Outcome α, p.Does c o ∧
    (strict = true → o.result ≠ none → o.passed ≠ []) ∧
    ∀ c' : Cursor, c'.tokens = c.tokens → c.Room o.faults → c'.Room o.faults → p.Does c' o

/-- The parser is steady at every kind. -/
abbrev Steady (strict : Bool) (p : Parser α) : Prop := SteadyAt (fun _ => True) strict p

namespace SteadyAt

variable {P Q : Kind → Prop} {s s' : Bool} {p q : Parser α} {f : α → Parser β}

theorem mono (h : SteadyAt P s p) (hPQ : ∀ k, Q k → P k) : SteadyAt Q s p :=
  ⟨fun c hc hQ => h.run c hc (hPQ _ hQ)⟩

theorem any (h : SteadyAt P true p) : SteadyAt P s p := by
  refine ⟨fun c hc hP => ?_⟩
  obtain ⟨o, ho, hs, hsame⟩ := h.run c hc hP
  exact ⟨o, ho, fun _ => hs rfl, hsame⟩

theorem moves_of_run (h : Steady s p) {c d : Cursor} {r : Option α} (hc : c.Closed)
    (hrun : p c = (r, d)) : ∃ passed, c.Moves passed d ∧ (s = true → r ≠ none → passed ≠ []) := by
  obtain ⟨o, ho, hs, -⟩ := h.run c hc trivial
  obtain ⟨hresult, hmoves, -⟩ := ho
  rw [hrun] at hresult hmoves
  exact ⟨o.passed, hmoves, fun hstrict hr => hs hstrict (hresult ▸ hr)⟩

/-- An outcome that does not depend on the faults at all. -/
theorem of_does (h : ∀ c : Cursor, c.Closed → P c.kind → ∃ o : Outcome α,
    (s = true → o.result ≠ none → o.passed ≠ []) ∧
    ∀ c' : Cursor, c'.tokens = c.tokens → p.Does c' o) : SteadyAt P s p := by
  refine ⟨fun c hc hP => ?_⟩
  obtain ⟨o, hs, hdoes⟩ := h c hc hP
  exact ⟨o, hdoes c rfl, hs, fun c' hts _ _ => hdoes c' hts⟩

theorem pure {a : α} : SteadyAt P false (pure a) :=
  .of_does fun _ _ _ => ⟨⟨some a, [], []⟩, nofun, fun c' _ => ⟨rfl, .refl c', rfl⟩⟩

theorem fail {cause : GrammarCause} : SteadyAt P s (fail cause : Parser α) := by
  refine .of_does fun c _ _ => ⟨⟨none, [], [⟨cause, c.current.span⟩]⟩, ?_, fun c' hts => ?_⟩
  · exact fun _ h => absurd rfl h
  · refine ⟨rfl, ⟨rfl, nofun, rfl⟩, ?_⟩
    rw [← Cursor.current_congr hts]
    rfl

theorem bind_or (hp : SteadyAt P s p) (hf : ∀ a, Steady s' (f a)) :
    SteadyAt P (s || s') (p >>= f) := by
  refine ⟨fun c hc hP => ?_⟩
  obtain ⟨⟨r, passed, fs⟩, ho, hs, hsame⟩ := hp.run c hc hP
  cases r with
  | none =>
    refine ⟨⟨none, passed, fs⟩, ho.bind_none, fun _ h => absurd rfl h, fun c' hts hr hr' => ?_⟩
    exact (hsame c' hts hr hr').bind_none
  | some a =>
    obtain ⟨o', ho', hs', hsame'⟩ := (hf a).run (p c).2 (ho.moves.closed hc) trivial
    refine ⟨_, ho.bind_some ho', fun hstrict hr => ?_, fun c' hts hr hr' => ?_⟩
    · rcases Bool.or_eq_true_iff.mp hstrict with h | h
      · exact List.append_ne_nil_of_left_ne_nil (hs h (Option.some_ne_none a)) _
      · exact List.append_ne_nil_of_right_ne_nil _ (hs' h hr)
    · -- the first run ends at the same tokens, with room for the faults of the second
      have hfirst := hsame c' hts hr.left hr'.left
      refine hfirst.bind_some (hsame' _ (ho.moves.congr hfirst.moves hts) ?_ ?_)
      · exact hr.right ho.faults
      · exact hr'.right hfirst.faults

/-- A token is passed over in the first part. -/
theorem andThen (hp : SteadyAt P true p) (hf : ∀ a, Steady false (f a)) : SteadyAt P s (p >>= f) :=
  (hp.bind_or hf).any

theorem bind (hp : SteadyAt P false p) (hf : ∀ a, Steady s (f a)) : SteadyAt P s (p >>= f) :=
  hp.bind_or hf

/-! ### Single tokens -/

theorem peek {f : Kind → Parser α} (h : ∀ k, P k → SteadyAt (· = k) s (f k)) :
    SteadyAt P s (peek >>= f) := by
  refine ⟨fun c hc hP => ?_⟩
  have hpeek : ∀ e : Cursor, e.kind = c.kind → (Parser.peek >>= f) e = f c.kind e := by
    rintro e he
    rw [← he]
    rfl
  obtain ⟨o, ho, hs, hsame⟩ := (h c.kind hP).run c hc rfl
  refine ⟨o, ho.congr (hpeek c rfl), hs, fun c' hts hr hr' => ?_⟩
  exact (hsame c' hts hr hr').congr (hpeek c' (Cursor.kind_congr hts))

theorem here {f : Span → Parser α} (h : ∀ span, SteadyAt P s (f span)) :
    SteadyAt P s (here >>= f) := by
  refine ⟨fun c hc hP => ?_⟩
  have hhere : ∀ e : Cursor, e.current = c.current →
      (Parser.here >>= f) e = f c.current.span e := by
    rintro e he
    rw [← he]
    rfl
  obtain ⟨o, ho, hs, hsame⟩ := (h c.current.span).run c hc hP
  refine ⟨o, ho.congr (hhere c rfl), hs, fun c' hts hr hr' => ?_⟩
  exact (hsame c' hts hr hr').congr (hhere c' (Cursor.current_congr hts))

/-- A token other than the end of the text is passed over. -/
theorem token {g : Cursor → α} (hP : ∀ k, P k → k ≠ .eof)
    (hg : ∀ c c' : Cursor, c'.tokens = c.tokens → g c' = g c) :
    SteadyAt P s (fun c => (some (g c), c.advance)) := by
  refine .of_does fun c hc hk => ⟨⟨some (g c), [c.current], []⟩, ?_, fun c' hts => ?_⟩
  · exact fun _ _ => List.cons_ne_nil _ _
  · have hmoves := Cursor.Moves.advance (Cursor.closed_congr hts hc)
      (by rw [Cursor.kind_congr hts]; exact hP _ hk)
    rw [Cursor.current_congr hts] at hmoves
    exact ⟨congrArg some (hg c c' hts), hmoves, c'.faults_advance⟩

theorem advance (hP : ∀ k, P k → k ≠ .eof) : SteadyAt P s Parser.advance :=
  .token hP fun _ _ _ => rfl

theorem advanceAt {k : Kind} (hk : k ≠ .eof) : SteadyAt (· = k) s Parser.advance :=
  .advance fun _ h => h ▸ hk

theorem symbol {x : Symbol} : SteadyAt P s (symbol x) := by
  refine .peek fun k _ => ?_
  split
  · next h => exact .advanceAt (h ▸ nofun)
  · exact .fail

theorem eat {k : Kind} (hk : k ≠ .eof) : SteadyAt P false (eat k) := by
  refine .peek fun got _ => ?_
  split
  · next h => exact .bind (.advanceAt (h ▸ hk)) fun _ => .pure
  · exact .pure

theorem identifier : SteadyAt P s identifier := by
  refine .here fun span => .peek fun k _ => ?_
  split
  · exact .andThen (.advanceAt (by simp)) fun _ => .pure
  · exact .fail

theorem ite {C : Prop} [Decidable C] (hp : SteadyAt P s p) (hq : SteadyAt P s q) :
    SteadyAt P s (if C then p else q) := by
  split
  · exact hp
  · exact hq

/-- What is ahead decides between two parsers. -/
theorem choose {b : Cursor → Bool} (hb : ∀ c c' : Cursor, c'.tokens = c.tokens → b c' = b c)
    (hp : SteadyAt P s p) (hq : SteadyAt P s q) :
    SteadyAt P s (fun c => if b c then p c else q c) := by
  refine ⟨fun c hc hP => ?_⟩
  by_cases h : b c = true
  · obtain ⟨o, ho, hs, hsame⟩ := hp.run c hc hP
    refine ⟨o, ho.congr (if_pos h), hs, fun c' hts hr hr' => ?_⟩
    exact (hsame c' hts hr hr').congr (if_pos ((hb c c' hts).trans h))
  · obtain ⟨o, ho, hs, hsame⟩ := hq.run c hc hP
    refine ⟨o, ho.congr (if_neg h), hs, fun c' hts hr hr' => ?_⟩
    exact (hsame c' hts hr hr').congr (if_neg (by rwa [hb c c' hts]))

theorem spanned_eq (p : Parser (Span → α)) (c : Cursor) : Parser.spanned p c =
    ((p c).1.map fun f => f (c.current.span.merge (p c).2.last), (p c).2) := by
  unfold Parser.spanned
  rcases p c with ⟨_ | f, d⟩ <;> rfl

/-- A span is that of the tokens passed over, so there has to be one. -/
theorem spanned {p : Parser (Span → α)} (h : SteadyAt P true p) : SteadyAt P s (spanned p) := by
  have hrun : ∀ {e : Cursor} {r passed fs}, p.Does e ⟨r, passed, fs⟩ → (Parser.spanned p).Does e
      ⟨r.map fun f => f (e.current.span.merge (p e).2.last), passed, fs⟩ := by
    intro e r passed fs he
    refine .of_eq (d := (p e).2) ?_ he.moves he.faults
    rw [spanned_eq, he.result]
  refine ⟨fun c hc hP => ?_⟩
  obtain ⟨⟨r, passed, fs⟩, ho, hs, hsame⟩ := h.run c hc hP
  cases r with
  | none =>
    refine ⟨⟨none, passed, fs⟩, hrun ho, fun _ h => absurd rfl h, fun c' hts hr hr' => ?_⟩
    exact hrun (hsame c' hts hr hr')
  | some f =>
    have hpassed : passed ≠ [] := hs rfl (Option.some_ne_none f)
    refine ⟨_, hrun ho, fun _ _ => hpassed, fun c' hts hr hr' => ?_⟩
    have ho' := hsame c' hts hr hr'
    have hall := hrun ho'
    rwa [Cursor.current_congr hts, ho.moves.last_congr ho'.moves hpassed] at hall

end SteadyAt

/-! ### Lists -/

section Lists

variable {close : Symbol} {p : Parser α} {c : Cursor} {passed : List Token}
  {fs : List (Located GrammarCause)}

/-- Each round of a list reads an item and then, behind a comma, the rest. It is not cut off, since
the cursor is further ahead every time. -/
theorem items_unguarded (hp : Steady true p) (hc : c.Closed)
    (hopen : (c.sees close || c.atEnd) = false) : items close p c =
      match p c with
      | (none, d) => (none, d)
      | (some a, d) =>
        if d.sees .comma then
          match items close p d.advance with
          | (some as, e) => (some (a :: as), e)
          | (none, e) => (none, e)
        else (some [a], d) := by
  rw [items, if_neg (by rw [hopen]; exact Bool.false_ne_true)]
  rcases hpc : p c with ⟨_ | a, d⟩
  · rfl
  · obtain ⟨passed, hmoves, hne⟩ := hp.moves_of_run hc hpc
    have hlt := hmoves.remaining_lt (hne rfl (Option.some_ne_none a))
    have hadv : d.advance.remaining ≤ d.remaining := by
      unfold Cursor.advance
      split
      · exact Nat.le_refl _
      · next h => rw [Cursor.remaining, Cursor.remaining, h]; exact Nat.le_succ _
    exact ite_congr rfl (fun _ => dif_pos (Nat.lt_of_le_of_lt hadv hlt)) fun _ => rfl

theorem does_items_end (h : (c.sees close || c.atEnd) = true) :
    Does (items close p) c ⟨some [], [], []⟩ := by
  refine .of_eq (d := c) ?_ (.refl c) rfl
  rw [items, if_pos h]

theorem does_items_none (hp : Steady true p) (hc : c.Closed)
    (hopen : (c.sees close || c.atEnd) = false) (h : p.Does c ⟨none, passed, fs⟩) :
    Does (items close p) c ⟨none, passed, fs⟩ := by
  refine .of_eq (d := (p c).2) ?_ h.moves h.faults
  have hresult := h.result
  rw [items_unguarded hp hc hopen]
  rcases hpc : p c with ⟨_ | a, d⟩
  · rfl
  · rw [hpc] at hresult
    cases hresult

theorem does_items_last (hp : Steady true p) (hc : c.Closed)
    (hopen : (c.sees close || c.atEnd) = false) {a : α} (h : p.Does c ⟨some a, passed, fs⟩)
    (hcomma : (p c).2.sees .comma = false) : Does (items close p) c ⟨some [a], passed, fs⟩ := by
  refine .of_eq (d := (p c).2) ?_ h.moves h.faults
  have hresult := h.result
  rw [items_unguarded hp hc hopen]
  rcases hpc : p c with ⟨_ | b, d⟩
  · rw [hpc] at hresult
    cases hresult
  · rw [hpc] at hresult hcomma
    cases hresult
    simp only [hcomma]
    rfl

theorem does_items_next (hp : Steady true p) (hc : c.Closed)
    (hopen : (c.sees close || c.atEnd) = false) {a : α} (h : p.Does c ⟨some a, passed, fs⟩)
    (hcomma : (p c).2.sees .comma = true) {o : Outcome (List α)}
    (hrest : Does (items close p) (p c).2.advance o) : Does (items close p) c
      ⟨o.result.map (a :: ·), passed ++ (p c).2.current :: o.passed, fs ++ o.faults⟩ := by
  have hd := h.moves.closed hc
  have hk : (p c).2.kind ≠ .eof := by rw [Cursor.sees_iff.mp hcomma]; exact nofun
  refine .of_eq (d := (items close p (p c).2.advance).2) ?_
    (h.moves.trans ((Cursor.Moves.advance hd hk).trans hrest.moves)) ?_
  · have hresult := h.result
    have hrest' := hrest.result
    rw [items_unguarded hp hc hopen]
    rcases hpc : p c with ⟨_ | b, d⟩
    · rw [hpc] at hresult
      cases hresult
    · rw [hpc] at hresult hcomma hrest'
      cases hresult
      simp only [hcomma, if_true, ← hrest']
      rcases items close p d.advance with ⟨_ | as, e⟩ <;> rfl
  · rw [hrest.faults, Cursor.faults_advance, h.faults, Capped.pushAll_append]

theorem SteadyAt.items (hp : Steady true p) : Steady false (items close p) := by
  refine ⟨fun c hc _ => ?_⟩
  induction hn : c.remaining using Nat.strongRecOn generalizing c with
  | ind n ih =>
  subst hn
  have hends : ∀ {c' : Cursor}, c'.tokens = c.tokens →
      (c'.sees close || c'.atEnd) = (c.sees close || c.atEnd) := by
    intro c' hts
    rw [Cursor.sees_congr hts, Cursor.atEnd_congr hts]
  cases hopen : c.sees close || c.atEnd with
  | true =>
    refine ⟨_, does_items_end hopen, nofun, fun c' hts _ _ => ?_⟩
    exact does_items_end ((hends hts).trans hopen)
  | false =>
    obtain ⟨⟨r, passed, fs⟩, ho, hs, hsame⟩ := hp.run c hc trivial
    cases r with
    | none =>
      refine ⟨_, does_items_none hp hc hopen ho, nofun, fun c' hts hr hr' => ?_⟩
      exact does_items_none hp (Cursor.closed_congr hts hc) ((hends hts).trans hopen)
        (hsame c' hts hr hr')
    | some a =>
      have hd := ho.moves.closed hc
      have hlt := ho.moves.remaining_lt (hs rfl (Option.some_ne_none a))
      cases hcomma : (p c).2.sees .comma with
      | false =>
        refine ⟨_, does_items_last hp hc hopen ho hcomma, nofun, fun c' hts hr hr' => ?_⟩
        have ho' := hsame c' hts hr hr'
        refine does_items_last hp (Cursor.closed_congr hts hc) ((hends hts).trans hopen) ho' ?_
        rw [Cursor.sees_congr (ho.moves.congr ho'.moves hts), hcomma]
      | true =>
        have hk : (p c).2.kind ≠ .eof := by rw [Cursor.sees_iff.mp hcomma]; exact nofun
        have hadv := (Cursor.Moves.advance hd hk).remaining_le
        obtain ⟨o, hrest, -, hsame'⟩ := ih _ (Nat.lt_of_le_of_lt hadv hlt) _ hd.advance rfl
        refine ⟨_, does_items_next hp hc hopen ho hcomma hrest, nofun, fun c' hts hr hr' => ?_⟩
        have ho' := hsame c' hts hr.left hr'.left
        have hts' := ho.moves.congr ho'.moves hts
        -- the rest is read behind the same comma, with room for its faults
        have hrest' : Does (Parser.items close p) (p c').2.advance o := by
          refine hsame' _ (Cursor.advance_congr hd hts' hk) (hr.right ?_) (hr'.right ?_)
          · rw [Cursor.faults_advance, ho.faults]
          · rw [Cursor.faults_advance, ho'.faults]
        have hall := does_items_next hp (Cursor.closed_congr hts hc) ((hends hts).trans hopen) ho'
          (by rw [Cursor.sees_congr hts', hcomma]) hrest'
        rwa [Cursor.current_congr hts'] at hall

end Lists

/-! ### Statements one after the other -/

section Statements

variable {ends : Kind → Bool} {p : Parser Stmt} {c : Cursor} {passed : List Token}
  {fs : List (Located GrammarCause)}

/-- Each round reads a statement, or goes on behind one that has failed. It is not cut off, since
the cursor is further ahead every time. -/
theorem statements_unguarded (hp : Steady true p) (hends : ends .eof = true) (hc : c.Closed)
    (hopen : (ends c.kind || c.faults.full) = false) : statements ends p c =
      match p c with
      | (some s, d) => (s :: (statements ends p d).1, (statements ends p d).2)
      | (none, d) => statements ends p (d.resync c) := by
  rw [statements, if_neg (by rw [hopen]; exact Bool.false_ne_true)]
  rcases hpc : p c with ⟨_ | s, d⟩
  · obtain ⟨passed, hmoves, -⟩ := hp.moves_of_run hc hpc
    have hk : c.kind ≠ .eof := by
      intro he
      rw [he, hends] at hopen
      cases hopen
    exact dif_pos (Cursor.resync_lt hc hk hmoves)
  · obtain ⟨passed, hmoves, hne⟩ := hp.moves_of_run hc hpc
    exact dif_pos (hmoves.remaining_lt (hne rfl (Option.some_ne_none s)))

theorem does_body_end (h : (ends c.kind || c.faults.full) = true) :
    (body ends p).Does c ⟨some [], [], []⟩ := by
  refine .of_eq (d := c) ?_ (.refl c) rfl
  rw [body, statements, if_pos h]

theorem does_body_next (hp : Steady true p) (hends : ends .eof = true) (hc : c.Closed)
    (hopen : (ends c.kind || c.faults.full) = false) {s : Stmt} (h : p.Does c ⟨some s, passed, fs⟩)
    {ss : List Stmt} {more : List Token} {gs : List (Located GrammarCause)}
    (hrest : (body ends p).Does (p c).2 ⟨some ss, more, gs⟩) :
    (body ends p).Does c ⟨some (s :: ss), passed ++ more, fs ++ gs⟩ := by
  refine .of_eq (d := (statements ends p (p c).2).2) ?_ (h.moves.trans hrest.moves) ?_
  · have hresult := h.result
    have hrest' := hrest.result
    rw [body] at hrest' ⊢
    rw [statements_unguarded hp hends hc hopen]
    rcases hpc : p c with ⟨_ | t, d⟩
    · rw [hpc] at hresult
      cases hresult
    · rw [hpc] at hresult hrest'
      cases hresult
      rw [← Option.some.inj hrest']
  · exact hrest.faults.trans (by rw [h.faults, Capped.pushAll_append])

theorem does_body_failed (hp : Steady true p) (hends : ends .eof = true) (hc : c.Closed)
    (hopen : (ends c.kind || c.faults.full) = false) (h : p.Does c ⟨none, passed, fs⟩)
    {skipped : List Token} (hskip : (p c).2.Moves skipped ((p c).2.resync c))
    {o : Outcome (List Stmt)} (hrest : (body ends p).Does ((p c).2.resync c) o) :
    (body ends p).Does c ⟨o.result, passed ++ (skipped ++ o.passed), fs ++ o.faults⟩ := by
  refine .of_eq (d := (statements ends p ((p c).2.resync c)).2) ?_
    (h.moves.trans (hskip.trans hrest.moves)) ?_
  · have hresult := h.result
    have hrest' := hrest.result
    rw [body] at hrest' ⊢
    rw [statements_unguarded hp hends hc hopen]
    rcases hpc : p c with ⟨_ | t, d⟩
    · rw [hpc] at hrest'
      rw [← hrest']
    · rw [hpc] at hresult
      cases hresult
  · exact hrest.faults.trans (by rw [faults_resync, h.faults, Capped.pushAll_append])

theorem SteadyAt.body (hp : Steady true p) (hends : ends .eof = true) :
    Steady false (body ends p) := by
  refine ⟨fun c hc _ => ?_⟩
  induction hn : c.remaining using Nat.strongRecOn generalizing c with
  | ind n ih =>
  subst hn
  cases hopen : ends c.kind || c.faults.full with
  | true =>
    refine ⟨_, does_body_end hopen, nofun, fun c' hts hr _ => does_body_end ?_⟩
    have hkind : ends c.kind = true := by simpa [hr.full] using hopen
    rw [Cursor.kind_congr hts, hkind, Bool.true_or]
  | false =>
    have hkind : ends c.kind = false := (Bool.or_eq_false_iff.mp hopen).1
    have hopen' : ∀ {c' : Cursor} {gs}, c'.tokens = c.tokens → c'.Room gs →
        (ends c'.kind || c'.faults.full) = false := by
      intro c' gs hts hr
      rw [Cursor.kind_congr hts, hkind, hr.full]
      rfl
    have hk : c.kind ≠ .eof := by
      intro he
      rw [he, hends] at hkind
      cases hkind
    obtain ⟨⟨r, passed, fs⟩, ho, hs, hsame⟩ := hp.run c hc trivial
    have hd := ho.moves.closed hc
    cases r with
    | none =>
      obtain ⟨skipped, hskip⟩ := Cursor.exists_resync c hd
      have hgo := hskip _ c rfl rfl
      obtain ⟨o, hrest, -, hsame'⟩ := ih _ (Cursor.resync_lt hc hk ho.moves) _ (hgo.closed hd)
        rfl
      refine ⟨_, does_body_failed hp hends hc hopen ho hgo hrest, nofun, fun c' hts hr hr' => ?_⟩
      -- reading goes on at the same place, with room for the faults of the rest
      have ho' := hsame c' hts hr.left hr'.left
      have hts' := ho.moves.congr ho'.moves hts
      have hgo' := hskip (p c').2 c' hts' (Cursor.remaining_congr hts)
      refine does_body_failed hp hends (Cursor.closed_congr hts hc) (hopen' hts hr') ho' hgo' ?_
      refine hsame' _ (hgo.congr hgo' hts') (hr.right ?_) (hr'.right ?_)
      · rw [faults_resync, ho.faults]
      · rw [faults_resync, ho'.faults]
    | some s =>
      have hlt := ho.moves.remaining_lt (hs rfl (Option.some_ne_none s))
      obtain ⟨⟨r, more, gs⟩, hrest, -, hsame'⟩ := ih _ hlt _ hd rfl
      obtain ⟨ss, rfl⟩ : ∃ ss, r = some ss := ⟨_, hrest.result.symm⟩
      refine ⟨_, does_body_next hp hends hc hopen ho hrest, nofun, fun c' hts hr hr' => ?_⟩
      have ho' := hsame c' hts hr.left hr'.left
      refine does_body_next hp hends (Cursor.closed_congr hts hc) (hopen' hts hr') ho' ?_
      exact hsame' _ (ho.moves.congr ho'.moves hts) (hr.right ho.faults) (hr'.right ho'.faults)

end Statements

end Parser

end RecordLang
