import RecordLang.Proofs.Program.Run

/-!
# Cursors that move forward

`Cursor.Moves` says that a cursor has passed over some of the tokens ahead, none of which is the end
of the text; the span it keeps is that of the last one of them. After a statement that has failed,
reading goes on behind tokens that depend on nothing but the tokens ahead (`Cursor.exists_resync`),
and further ahead than where the statement began (`Cursor.resync_lt`).
-/

namespace RecordLang

namespace Cursor

variable {c c' d d' e : Cursor} {passed more : List Token}

/-- The current token and those ahead. -/
def tokens (c : Cursor) : List Token := c.current :: c.ahead

theorem kinds_eq (c : Cursor) : c.kinds = c.tokens.map Token.kind := rfl

theorem length_tokens (c : Cursor) : c.tokens.length = c.remaining + 1 := rfl

/-! ### The same tokens ahead -/

theorem current_congr (h : c'.tokens = c.tokens) : c'.current = c.current := (List.cons.inj h).1

theorem kind_congr (h : c'.tokens = c.tokens) : c'.kind = c.kind :=
  congrArg Token.kind (current_congr h)

theorem ahead_congr (h : c'.tokens = c.tokens) : c'.ahead = c.ahead := (List.cons.inj h).2

theorem remaining_congr (h : c'.tokens = c.tokens) : c'.remaining = c.remaining :=
  congrArg List.length (ahead_congr h)

theorem closed_congr (h : c'.tokens = c.tokens) (hc : c.Closed) : c'.Closed := by
  rw [Closed, kinds_eq, h]
  exact hc

theorem sees_congr (h : c'.tokens = c.tokens) (x : Symbol) : c'.sees x = c.sees x := by
  rw [sees, sees, kind_congr h]

theorem atEnd_congr (h : c'.tokens = c.tokens) : c'.atEnd = c.atEnd := by
  rw [atEnd, atEnd, kind_congr h]

/-! ### Moving forward -/

/-- The cursor `d` stands behind some tokens, none of which is the end of the text. -/
structure Moves (c : Cursor) (passed : List Token) (d : Cursor) : Prop where
  tokens : c.tokens = passed ++ d.tokens
  notEnd : ∀ t ∈ passed, t.kind ≠ .eof
  last : d.last = (passed.getLast?.map Token.span).getD c.last

namespace Moves

theorem refl (c : Cursor) : c.Moves [] c := ⟨rfl, nofun, rfl⟩

theorem trans (h : c.Moves passed d) (h' : d.Moves more e) : c.Moves (passed ++ more) e := by
  refine ⟨?_, List.forall_mem_append.mpr ⟨h.notEnd, h'.notEnd⟩, ?_⟩
  · rw [h.tokens, h'.tokens, List.append_assoc]
  · rw [h'.last, h.last, List.getLast?_append]
    cases more.getLast? <;> rfl

theorem advance (hc : c.Closed) (hk : c.kind ≠ .eof) : c.Moves [c.current] c.advance := by
  rcases c with ⟨last, current, _ | ⟨t, ts⟩, faults⟩
  · have he : current.kind = .eof := by simpa [Closed, kinds, kind] using hc
    exact absurd he hk
  · exact ⟨rfl, List.forall_mem_singleton.mpr hk, rfl⟩

theorem closed (h : c.Moves passed d) (hc : c.Closed) : d.Closed := by
  have hlast : (passed.map Token.kind ++ d.kinds).getLast? = some .eof := by
    rw [d.kinds_eq, ← List.map_append, ← h.tokens]
    exact hc
  have hne : d.kinds.getLast? = some (d.kinds.getLast (List.cons_ne_nil _ _)) :=
    List.getLast?_eq_some_getLast _
  rw [List.getLast?_append, hne, Option.some_or] at hlast
  exact hne.trans hlast

theorem remaining (h : c.Moves passed d) : c.remaining = passed.length + d.remaining := by
  have hlen := congrArg List.length h.tokens
  rw [List.length_append, length_tokens, length_tokens] at hlen
  omega

theorem remaining_le (h : c.Moves passed d) : d.remaining ≤ c.remaining := by
  have hlen := h.remaining
  omega

theorem remaining_lt (h : c.Moves passed d) (hp : passed ≠ []) : d.remaining < c.remaining := by
  have hlen := h.remaining
  have hpos := List.length_pos_iff.mpr hp
  omega

theorem congr (h : c.Moves passed d) (h' : c'.Moves passed d') (hc : c'.tokens = c.tokens) :
    d'.tokens = d.tokens := by
  have happ : passed ++ d'.tokens = passed ++ d.tokens := by rw [← h.tokens, ← h'.tokens, hc]
  exact List.append_cancel_left happ

theorem last_congr (h : c.Moves passed d) (h' : c'.Moves passed d') (hp : passed ≠ []) :
    d'.last = d.last := by
  rw [h.last, h'.last, List.getLast?_eq_some_getLast hp]
  rfl

end Moves

theorem advance_congr (hc : c.Closed) (h : c'.tokens = c.tokens) (hk : c.kind ≠ .eof) :
    c'.advance.tokens = c.advance.tokens := by
  have hmoves := Moves.advance hc hk
  have hmoves' := Moves.advance (closed_congr h hc) (by rwa [kind_congr h])
  rw [current_congr h] at hmoves'
  exact hmoves.congr hmoves' h

/-! ### Going on after a fault -/

theorem skip_of_not_resumes {t : Token} {ts : List Token} (h : c.ahead = t :: ts)
    (hk : resumes c.kind = false) : c.skip = c.advance.skip := by
  rcases c with ⟨last, current, ahead, faults⟩
  obtain rfl : ahead = t :: ts := h
  have hk' : resumes current.kind = false := hk
  simp [skip, skipTo, hk', advance]

theorem skip_of_resumes (hk : resumes c.kind = true) : c.skip = c := by
  rcases c with ⟨last, current, _ | ⟨t, ts⟩, faults⟩
  · rfl
  · have hk' : resumes current.kind = true := hk
    simp [skip, skipTo, hk']

/-- Skipping passes over tokens that depend on nothing but the tokens ahead. -/
theorem exists_skip (ts : List Token) : ∃ skipped, ∀ c : Cursor, c.Closed → c.tokens = ts →
    c.Moves skipped c.skip := by
  induction ts with
  | nil => exact ⟨[], fun c _ hts => nomatch hts⟩
  | cons t ts ih =>
    obtain ⟨skipped, hskip⟩ := ih
    by_cases hk : resumes t.kind = true
    · refine ⟨[], fun c hc hts => ?_⟩
      have hkind : c.kind = t.kind := congrArg Token.kind (List.cons.inj hts).1
      rw [skip_of_resumes (hkind ▸ hk)]
      exact .refl c
    · refine ⟨t :: skipped, fun c hc hts => ?_⟩
      obtain ⟨hcur, hahead⟩ := List.cons.inj hts
      have hkind : c.kind = t.kind := congrArg Token.kind hcur
      have heof : c.kind ≠ .eof := by
        intro he
        rw [← hkind, he] at hk
        exact hk rfl
      have hmoves := Moves.advance hc heof
      have htail : c.advance.tokens = ts := by
        have hall := hmoves.tokens
        rw [hts, hcur] at hall
        exact (List.cons.inj hall).2.symm
      obtain ⟨u, us, hu⟩ : ∃ u us, c.ahead = u :: us := by
        refine List.exists_cons_of_ne_nil fun hnil => ?_
        rw [← hahead, hnil] at htail
        cases htail
      rw [skip_of_not_resumes hu (by rw [hkind]; exact Bool.eq_false_iff.mpr hk)]
      rw [hcur] at hmoves
      exact hmoves.trans (hskip _ (hmoves.closed hc) htail)

/-- After a statement that has failed, reading goes on behind tokens that depend on nothing but the
tokens ahead and where the statement began. -/
theorem exists_resync (start : Cursor) (hd : d.Closed) : ∃ skipped, ∀ d' start' : Cursor,
    d'.tokens = d.tokens → start'.remaining = start.remaining →
    d'.Moves skipped (d'.resync start') := by
  by_cases hstay : (decide (d.remaining = start.remaining) && !d.atEnd) = true
  · obtain ⟨skipped, hskip⟩ := exists_skip d.advance.tokens
    have heof : d.kind ≠ .eof := by
      have hend := (Bool.and_eq_true_iff.mp hstay).2
      simpa [atEnd] using hend
    refine ⟨d.current :: skipped, fun d' start' hd' hs => ?_⟩
    have hclosed := closed_congr hd' hd
    have hmoves := Moves.advance hclosed (by rwa [kind_congr hd'])
    rw [current_congr hd'] at hmoves
    have hgo := hskip _ hclosed.advance (advance_congr hd hd' heof)
    rw [resync, remaining_congr hd', hs, atEnd_congr hd', if_pos hstay]
    exact hmoves.trans hgo
  · obtain ⟨skipped, hskip⟩ := exists_skip d.tokens
    refine ⟨skipped, fun d' start' hd' hs => ?_⟩
    rw [resync, remaining_congr hd', hs, atEnd_congr hd', if_neg hstay]
    exact hskip _ (closed_congr hd' hd) hd'

end Cursor

/-- Reading goes on further ahead than the statement that has failed, unless that began at the end
of the text. -/
theorem Cursor.resync_lt {start d : Cursor} {passed : List Token} (hs : start.Closed)
    (hk : start.kind ≠ .eof) (h : start.Moves passed d) :
    (d.resync start).remaining < start.remaining := by
  have hd := h.closed hs
  have hle := h.remaining_le
  have hskip : ∀ e : Cursor, e.Closed → e.skip.remaining ≤ e.remaining := fun e he => by
    obtain ⟨skipped, hmoves⟩ := exists_skip e.tokens
    exact (hmoves e he rfl).remaining_le
  rw [resync]
  split
  · next hstay =>
    have heof : d.kind ≠ .eof := by
      have hend := (Bool.and_eq_true_iff.mp hstay).2
      simpa [atEnd] using hend
    have hlt := (Moves.advance hd heof).remaining_lt (List.cons_ne_nil _ _)
    have hgo := hskip _ hd.advance
    omega
  · next hstay =>
    have hgo := hskip _ hd
    have hne : d.remaining ≠ start.remaining := by
      intro heq
      -- nothing was passed over, so the cursor still stands at the first token
      have hlen := h.remaining
      obtain rfl : passed = [] := List.length_eq_zero_iff.mp (by omega)
      have hkind := kind_congr h.tokens
      rw [hkind] at hk
      exact hstay (by simp [heq, atEnd, hk])
    omega

end RecordLang
