import Mathlib.Data.List.Basic
import Mathlib.Data.List.Induction
import Mathlib.Data.List.TakeWhile
import RecordLang.Proofs.Token.Spelling

/-!
# Lines and positions

The lines of a source are cut from its characters, while positions are counted over its bytes. The
two agree: a run of bytes that stays on one line stands in the line of its position at the column of
its position (`Source.shows_of_bytes`), and the position behind all bytes is the end of the last
line (`Source.past_bytes`). A line is shown without the carriage returns at its end, which is no
loss to a run that does not end with one.
-/

namespace RecordLang

open Text (encode)

/-! ### Lines of bytes -/

/-- The lines of some bytes: one more than there are line feeds. -/
def byteLines : List UInt8 → List (List UInt8)
  | [] => [[]]
  | b :: bs =>
    if b = Byte.newline then [] :: byteLines bs
    else match byteLines bs with
      | [] => [[b]]
      | l :: ls => (b :: l) :: ls

variable {b : UInt8} {pre run post rest l : List UInt8} {ls : List (List UInt8)}

theorem byteLines_newline (rest : List UInt8) :
    byteLines (Byte.newline :: rest) = [] :: byteLines rest := by
  rw [byteLines, if_pos rfl]

theorem byteLines_cons (hb : b ≠ Byte.newline) (h : byteLines rest = l :: ls) :
    byteLines (b :: rest) = (b :: l) :: ls := by
  rw [byteLines, if_neg hb, h]

theorem exists_byteLines (bs : List UInt8) : ∃ l ls, byteLines bs = l :: ls := by
  cases bs with
  | nil => exact ⟨[], [], rfl⟩
  | cons b bs =>
    rw [byteLines]
    split
    · exact ⟨_, _, rfl⟩
    · split <;> exact ⟨_, _, rfl⟩

/-- Bytes of one line stand at the front of the first line. -/
theorem byteLines_append (hrun : Byte.newline ∉ run) (h : byteLines rest = l :: ls) :
    byteLines (run ++ rest) = (run ++ l) :: ls := by
  induction run with
  | nil => exact h
  | cons b run ih =>
    simp only [List.mem_cons, not_or] at hrun
    exact byteLines_cons (Ne.symm hrun.1) (ih hrun.2)

theorem Position.next_of_ne (hb : b ≠ Byte.newline) (p : Position) :
    p.next b = ⟨p.line, p.column + 1⟩ :=
  if_neg hb

/-- Some bytes in front make lines of their own, and the last of these goes on. What the counters
have come to then are the number of these lines and the length of the last one. -/
theorem exists_past (pre : List UInt8) : ∃ above last,
    Position.origin.past pre = ⟨above.length + 1, last.length + 1⟩ ∧
    ∀ rest l ls, byteLines rest = l :: ls →
      byteLines (pre ++ rest) = above ++ (last ++ l) :: ls := by
  induction pre using List.reverseRecOn with
  | nil => exact ⟨[], [], rfl, fun rest l ls h => h⟩
  | append_singleton pre b ih =>
    obtain ⟨above, last, hpast, hlines⟩ := ih
    have hnext : Position.origin.past (pre ++ [b]) =
        Position.next ⟨above.length + 1, last.length + 1⟩ b := by
      rw [Position.past_append, hpast]
      rfl
    by_cases hb : b = Byte.newline
    · subst hb
      refine ⟨above ++ [last], [], ?_, fun rest l ls h => ?_⟩
      · rw [hnext, List.length_append]
        rfl
      · have hrest : byteLines (Byte.newline :: rest) = [] :: l :: ls := by
          rw [byteLines_newline, h]
        rw [List.append_assoc, List.singleton_append, hlines _ _ _ hrest]
        simp
    · refine ⟨above, last ++ [b], ?_, fun rest l ls h => ?_⟩
      · rw [hnext, Position.next_of_ne hb, List.length_append]
        rfl
      · rw [List.append_assoc, List.singleton_append, hlines _ _ _ (byteLines_cons hb h)]
        simp

/-! ### Lines of characters -/

theorem newline_not_mem_utf8EncodeChar {c : Char} (hc : c ≠ '\n') :
    Byte.newline ∉ String.utf8EncodeChar c := by
  intro hmem
  obtain ⟨heq, hlt⟩ := Text.mem_utf8EncodeChar hmem (by decide)
  have hglyph := congrArg Byte.glyph heq
  rw [Text.glyph_byte hlt] at hglyph
  exact hc hglyph.symm

theorem exists_splitLines (cs : List Char) : ∃ l ls, splitLines cs = l :: ls := by
  cases cs with
  | nil => exact ⟨[], [], rfl⟩
  | cons c cs =>
    rw [splitLines]
    split
    · exact ⟨_, _, rfl⟩
    · split <;> exact ⟨_, _, rfl⟩

/-- A line feed ends a line wherever it stands. -/
theorem splitLines_append (cs ds : List Char) :
    splitLines (cs ++ '\n' :: ds) = splitLines cs ++ splitLines ds := by
  induction cs with
  | nil => rfl
  | cons c cs ih =>
    rw [List.cons_append, splitLines, splitLines, ih]
    by_cases hc : c = '\n'
    · rw [if_pos hc, if_pos hc, List.cons_append]
    · obtain ⟨l, ls, hl⟩ := exists_splitLines cs
      rw [if_neg hc, if_neg hc, hl]
      rfl

theorem length_splitLines (cs : List Char) : (splitLines cs).length = cs.count '\n' + 1 := by
  induction cs with
  | nil => rfl
  | cons c cs ih =>
    rw [splitLines]
    by_cases hc : c = '\n'
    · rw [if_pos hc, hc, List.count_cons_self, List.length_cons, ih]
    · obtain ⟨l, ls, hl⟩ := exists_splitLines cs
      rw [if_neg hc, List.count_cons_of_ne hc, ← ih, hl]
      rfl

/-- The lines of the bytes are the bytes of the lines. -/
theorem byteLines_encode (cs : List Char) : byteLines (encode cs) = (splitLines cs).map encode := by
  induction cs with
  | nil => rfl
  | cons c cs ih =>
    rw [Text.encode_cons]
    by_cases hc : c = '\n'
    · subst hc
      rw [splitLines, if_pos rfl, List.map_cons, ← ih]
      exact byteLines_newline (encode cs)
    · obtain ⟨l, ls, hl⟩ := exists_splitLines cs
      rw [hl] at ih
      rw [byteLines_append (newline_not_mem_utf8EncodeChar hc) ih, splitLines, if_neg hc, hl]
      simp [Text.encode_cons]

/-- What is not shown of a line are carriage returns at its end. -/
theorem exists_encode_dropReturns (l : List Char) : ∃ n,
    encode l = encode (dropReturns l) ++ List.replicate n 13 := by
  have hsplit : l = dropReturns l ++ (l.reverse.takeWhile (· == '\r')).reverse := by
    rw [dropReturns, ← List.reverse_append, List.takeWhile_append_dropWhile, List.reverse_reverse]
  have hreturns : ∀ c ∈ (l.reverse.takeWhile (· == '\r')).reverse, c = '\r' := by
    intro c hc
    simpa using List.mem_takeWhile_imp (List.mem_reverse.mp hc)
  rw [List.eq_replicate_of_mem hreturns] at hsplit
  refine ⟨(l.reverse.takeWhile (· == '\r')).reverse.length, (congrArg encode hsplit).trans ?_⟩
  rw [Text.encode_append]
  refine congrArg (encode (dropReturns l) ++ ·) ?_
  generalize (l.reverse.takeWhile (· == '\r')).reverse.length = n
  induction n with
  | zero => rfl
  | succ n ih =>
    rw [List.replicate_succ, Text.encode_cons, ih, List.replicate_succ]
    rfl

/-- Bytes that do not end with a carriage return are still there when those at the end are gone. -/
theorem prefix_of_append_replicate {shown : List UInt8} {n : Nat} (hne : run ≠ [])
    (hlast : run.getLast? ≠ some 13) (h : pre ++ run ++ post = shown ++ List.replicate n 13) :
    pre ++ run <+: shown := by
  have hpre : pre ++ run <+: shown ++ List.replicate n 13 := ⟨post, h⟩
  rcases List.prefix_or_prefix_of_prefix hpre (List.prefix_append shown _) with hs | ⟨more, hs⟩
  · exact hs
  · cases more using List.reverseRecOn with
    | nil =>
      rw [List.append_nil] at hs
      exact ⟨[], by rw [List.append_nil, hs]⟩
    | append_singleton init b =>
      -- the last byte of the run would be one of the carriage returns
      rw [← hs, List.append_assoc] at h
      have hmem : b ∈ List.replicate n (13 : UInt8) := by
        rw [← List.append_cancel_left h]
        simp
      have hrun : (pre ++ run).getLast? = some b := by
        rw [← hs, ← List.append_assoc, List.getLast?_concat]
      rw [List.getLast?_append_of_ne_nil _ hne, List.eq_of_mem_replicate hmem] at hrun
      exact absurd hrun hlast

/-! ### Positions -/

instance : LT Position := ⟨fun a b => a.line < b.line ∨ a.line = b.line ∧ a.column < b.column⟩

namespace Position

theorem lt_def {a b : Position} :
    a < b ↔ a.line < b.line ∨ a.line = b.line ∧ a.column < b.column :=
  Iff.rfl

theorem lt_of_lt_of_le {a b c : Position} (hab : a < b) (hbc : b ≤ c) : a < c := by
  rw [lt_def] at hab ⊢
  rw [le_def] at hbc
  omega

theorem le_next (p : Position) (b : UInt8) : p ≤ p.next b := by
  rw [le_def, next]
  split
  · exact .inl (Nat.lt_succ_self _)
  · exact .inr ⟨rfl, Nat.le_succ _⟩

theorem le_past (p : Position) (bytes : List UInt8) : p ≤ p.past bytes := by
  induction bytes generalizing p with
  | nil => exact .inr ⟨rfl, Nat.le_refl _⟩
  | cons b bytes ih =>
    have h₁ := le_next p b
    have h₂ := ih (p.next b)
    rw [past_cons]
    rw [le_def] at h₁ h₂ ⊢
    omega

/-- Bytes of one line move the column only. -/
theorem past_of_line (p : Position) (h : Byte.newline ∉ run) :
    p.past run = ⟨p.line, p.column + run.length⟩ := by
  induction run generalizing p with
  | nil => rfl
  | cons b run ih =>
    simp only [List.mem_cons, not_or] at h
    rw [past_cons, ih _ h.2, next_of_ne (Ne.symm h.1), List.length_cons]
    simp only [Position.mk.injEq, true_and]
    omega

end Position

/-- A nonempty run on one line ends before the position behind it. -/
theorem Span.last_between_lt {p : Position} (hp : 0 < p.column) (hne : run ≠ [])
    (h : Byte.newline ∉ run) : (Span.between p (p.past run)).last < p.past run := by
  have hlen : 0 < run.length := List.length_pos_iff.mpr hne
  rw [Span.between, Position.past_of_line p h, Position.lt_def]
  refine .inr ⟨rfl, ?_⟩
  show max (p.column + run.length - 1) 1 < p.column + run.length
  omega

namespace Source

/-- The bytes of the line of the span, from its first column to its last one, are these; the span is
on one line. -/
def Shows (s : Source) (span : Span) (run : List UInt8) : Prop :=
  span.first.line = span.last.line ∧ ∃ line, s.line? span.first.line = some line ∧
    (Text.utf8 line).extract (span.first.column - 1) span.last.column = run

/-- The position behind the last line. -/
def stop (s : Source) : Position :=
  ⟨s.lineCount, (encode ((splitLines s.text.toList).getLastD [])).length + 1⟩

variable {s : Source}

/-- The lines of the bytes, where they are known, are those that the text has. -/
theorem exists_splitLines_of_bytes {above : List (List UInt8)}
    (h : byteLines s.bytes = above ++ l :: ls) : ∃ as x bs,
      splitLines s.text.toList = as ++ x :: bs ∧ as.length = above.length ∧ encode x = l ∧
      bs.length = ls.length := by
  have hmap : (splitLines s.text.toList).map encode = above ++ l :: ls := by
    rw [← byteLines_encode, ← h]
    rfl
  obtain ⟨as, more, heq, has, hmore⟩ := List.map_eq_append_iff.mp hmap
  obtain ⟨x, bs, rfl, hx, hbs⟩ := List.map_eq_cons_iff.mp hmore
  refine ⟨as, x, bs, heq, ?_, hx, ?_⟩
  · rw [← has, List.length_map]
  · rw [← hbs, List.length_map]

theorem line?_of_splitLines {as bs : List (List Char)} {x : List Char}
    (h : splitLines s.text.toList = as ++ x :: bs) :
    s.line? (as.length + 1) = some (String.ofList (dropReturns x)) := by
  rw [line?, if_neg (Nat.succ_ne_zero _), lines, h, List.map_append, Nat.add_sub_cancel,
    List.getElem?_append_right (by rw [List.length_map]), List.length_map, Nat.sub_self]
  rfl

/-- The position behind all bytes is the one behind the last line. -/
theorem past_bytes (s : Source) : Position.origin.past s.bytes = s.stop := by
  obtain ⟨above, last, hpast, hlines⟩ := exists_past s.bytes
  have hall := hlines [] [] [] rfl
  rw [List.append_nil, List.append_nil] at hall
  obtain ⟨as, x, bs, hsplit, has, hx, hbs⟩ := exists_splitLines_of_bytes hall
  have hnil : bs = [] := List.length_eq_zero_iff.mp hbs
  subst hnil
  have hcount : s.lineCount = above.length + 1 := by
    rw [lineCount, lines, List.length_map, hsplit, List.length_append, has]
    rfl
  rw [hpast, stop, hcount, hsplit, List.getLastD_concat, hx]

/-- A run of bytes that stays on one line stands in that line, at the column of its position. -/
theorem shows_of_bytes (hbytes : s.bytes = pre ++ run ++ post) (hne : run ≠ [])
    (hrun : Byte.newline ∉ run) (hlast : run.getLast? ≠ some 13) :
    s.Shows (.between (Position.origin.past pre) (Position.origin.past (pre ++ run))) run := by
  obtain ⟨above, last, hpast, hlines⟩ := exists_past pre
  obtain ⟨l, ls, hpost⟩ := exists_byteLines post
  have hall := hlines (run ++ post) (run ++ l) ls (byteLines_append hrun hpost)
  rw [← List.append_assoc, ← hbytes] at hall
  obtain ⟨as, x, bs, hsplit, has, hx, -⟩ := exists_splitLines_of_bytes hall
  have hline : s.line? (above.length + 1) = some (String.ofList (dropReturns x)) := by
    rw [← has]
    exact line?_of_splitLines hsplit
  obtain ⟨n, hn⟩ := exists_encode_dropReturns x
  have hshown : last ++ run ++ l = encode (dropReturns x) ++ List.replicate n 13 := by
    rw [← hn, hx, List.append_assoc]
  obtain ⟨more, hmore⟩ := prefix_of_append_replicate hne hlast hshown
  have hlen : 0 < run.length := List.length_pos_iff.mpr hne
  rw [Position.past_append, hpast, Position.past_of_line _ hrun]
  refine ⟨rfl, _, hline, ?_⟩
  have hstop : max (last.length + 1 + run.length - 1) 1 = last.length + run.length := by omega
  simp only [Span.between, Nat.add_sub_cancel, hstop]
  rw [Text.utf8_ofList, ← hmore, List.extract_eq_take_drop, List.append_assoc, List.drop_left,
    Nat.add_sub_cancel_left, List.take_left]

end Source

end RecordLang
