import RecordLang.Proofs.Verdict
import RecordLang.Report.Plain

/-!
# Carets and the text above them

The columns of a span count bytes, while the row of carets is made from them as if they counted
characters. A span on one line divides that line into the characters before it, those with a byte in
it, and those behind it (`Span.Divides`). The carets stand under the characters of the span exactly
if each character before the span is a single byte, and the same is true of the span up to the start
of its last character, unless the span ends the line (`caretRow_under_span_iff`).
-/

namespace RecordLang

open Text (encode)

/-! ### Bytes and characters -/

namespace Text

variable {cs : List Char}

theorem length_encode_cons (c : Char) (cs : List Char) :
    (encode (c :: cs)).length = c.utf8Size + (encode cs).length := by
  rw [encode_cons, List.length_append, String.length_utf8EncodeChar]

theorem length_le_length_encode (cs : List Char) : cs.length ≤ (encode cs).length := by
  induction cs with
  | nil => exact Nat.le_refl 0
  | cons c cs ih =>
    have hc := c.utf8Size_pos
    rw [length_encode_cons, List.length_cons]
    omega

/-- There are as many bytes as characters only if all characters are ASCII. -/
theorem length_encode_eq_iff : (encode cs).length = cs.length ↔ ∀ c ∈ cs, c.toNat < 128 := by
  induction cs with
  | nil => simp [encode]
  | cons c cs ih =>
    have hc := c.utf8Size_pos
    have hcs := length_le_length_encode cs
    have hone : c.utf8Size = 1 ↔ c.toNat < 128 := by
      rw [Char.utf8Size_eq_one_iff, UInt32.le_iff_toNat_le]
      exact Nat.lt_succ_iff.symm
    rw [length_encode_cons, List.length_cons, List.forall_mem_cons, ← ih, ← hone]
    omega

/-- Some bytes from the front on: the characters that have one of them, and those behind these. -/
theorem exists_reached {n : Nat} (hn : 0 < n) (h : n ≤ (encode cs).length) : ∃ reached after,
    cs = reached ++ after ∧ (encode reached.dropLast).length < n ∧ n ≤ (encode reached).length := by
  induction cs generalizing n with
  | nil => exact absurd (Nat.lt_of_lt_of_le hn h) (Nat.lt_irrefl 0)
  | cons c cs ih =>
    by_cases hc : n ≤ c.utf8Size
    · refine ⟨[c], cs, rfl, hn, ?_⟩
      rwa [length_encode_cons]
    · rw [length_encode_cons] at h
      obtain ⟨reached, after, rfl, hlt, hle⟩ := @ih (n - c.utf8Size) (by omega) (by omega)
      have hne : reached ≠ [] := by
        rintro rfl
        exact absurd (Nat.lt_of_lt_of_le hlt hle) (Nat.lt_irrefl _)
      refine ⟨c :: reached, after, rfl, ?_, ?_⟩
      · rw [List.dropLast_cons_of_ne_nil hne, length_encode_cons]
        omega
      · rw [length_encode_cons]
        omega

end Text

/-! ### Lines divided by spans -/

theorem dropReturns_isPrefix (line : List Char) : dropReturns line <+: line := by
  have hsuffix := List.dropWhile_suffix (p := (· == '\r')) (l := line.reverse)
  rw [← List.reverse_prefix, List.reverse_reverse] at hsuffix
  exact hsuffix

namespace Span

/-- The characters of a line before the span, those that have a byte in it, and those behind it. -/
structure Divides (span : Span) (line before inside after : List Char) : Prop where
  line_eq : line = before ++ inside ++ after
  first : (encode before).length + 1 = span.first.column
  reaches : (encode before).length + (encode inside.dropLast).length < span.last.column
  last : span.last.column ≤ (encode before).length + (encode inside).length

variable {span : Span} {line before inside after : List Char}

theorem Divides.inside_ne_nil (h : span.Divides line before inside after) : inside ≠ [] := by
  rintro rfl
  exact absurd (Nat.lt_of_lt_of_le h.reaches h.last) (Nat.lt_irrefl _)

end Span

namespace Source

variable {s : Source} {span : Span}

/-- The line on which a span begins, up to there and from there on. -/
theorem Begins.exists_line_before (h : s.Begins span) : ∃ before after,
    s.line? span.line = some (String.ofList (dropReturns (before ++ after))) ∧
      (encode before).length + 1 = span.first.column := by
  obtain ⟨before, after, htext, hfirst⟩ := h.exists_chars
  obtain ⟨above, last, hpast, hlines⟩ := exists_past (encode before)
  obtain ⟨l, ls, hafter⟩ := exists_splitLines after
  have hall : byteLines s.bytes = above ++ (last ++ encode l) :: ls.map encode := by
    have hbytes : s.bytes = encode before ++ encode after := by
      rw [← Text.encode_append, ← htext]
      rfl
    rw [hbytes]
    refine hlines _ _ _ ?_
    rw [byteLines_encode, hafter, List.map_cons]
  obtain ⟨as, x, bs, hsplit, has, hx, -⟩ := exists_splitLines_of_bytes hall
  obtain ⟨pre, post, rfl, rfl, -⟩ := Text.encode_cut hx (.inr (Text.edge_encode last l))
  refine ⟨pre, post, ?_, ?_⟩
  · rw [Span.line, hfirst, hpast, ← has]
    exact line?_of_splitLines hsplit
  · rw [hfirst, hpast]

/-- A span that stays on the line on which it begins divides it. -/
theorem Begins.exists_divides (h : s.Begins span) {line : String}
    (hline : s.line? span.line = some line) (hone : span.last.line = span.first.line)
    (hinside : span.last.column ≤ (Text.utf8 line).length) :
    ∃ before inside after, span.Divides line.toList before inside after := by
  obtain ⟨before, after, hshown, hfirst⟩ := h.exists_line_before
  obtain rfl := Option.some.inj (hshown.symm.trans hline)
  have hforward : span.first.column ≤ span.last.column := by
    have hle := Position.le_def.mp h.1
    omega
  rw [Text.utf8_ofList] at hinside
  rw [String.toList_ofList]
  -- carriage returns that are not shown stand behind the span
  rcases List.prefix_or_prefix_of_prefix (List.prefix_append before after)
    (dropReturns_isPrefix (before ++ after)) with ⟨more, hmore⟩ | ⟨more, hmore⟩
  · rw [← hmore, Text.encode_append, List.length_append] at hinside
    obtain ⟨inside, behind, rfl, hreaches, hlast⟩ := @Text.exists_reached more
      (span.last.column - (encode before).length) (by omega) (by omega)
    refine ⟨before, inside, behind, ?_, hfirst, by omega, by omega⟩
    rw [← hmore, List.append_assoc]
  · rw [← hmore, Text.encode_append, List.length_append] at hfirst
    omega

end Source

/-! ### Rows of carets -/

theorem blanks_append_carets_inj {a b m n : Nat} :
    blanks a ++ carets b = blanks m ++ carets n ↔ a = m ∧ b = n := by
  constructor
  · intro h
    have hchars := congrArg String.toList h
    simp only [blanks, carets, String.toList_append, String.toList_ofList] at hchars
    have hblanks := congrArg (List.count ' ') hchars
    have hlength := congrArg List.length hchars
    simp only [List.count_append, List.count_replicate, List.length_append,
      List.length_replicate] at hblanks hlength
    simp only [beq_self_eq_true, if_true, Char.reduceBEq, Bool.false_eq_true, if_false] at hblanks
    omega
  · rintro ⟨rfl, rfl⟩
    rfl

namespace Diagnostic

variable {d : Diagnostic} {before inside after : List Char}

/-- The carets stand under the characters of the span exactly if columns count characters up to
there, or at least up to the span, which then ends the line. -/
theorem caretRow_eq_iff (h : d.span.Divides d.sourceLine.toList before inside after)
    (hone : d.span.last.line = d.span.first.line) :
    d.caretRow = blanks before.length ++ carets inside.length ↔
      (∀ c ∈ before, c.toNat < 128) ∧
        (d.span.last.column = before.length + inside.length ∨ after = []) := by
  have hlength : d.sourceLine.length = before.length + inside.length + after.length := by
    rw [← String.length_toList, h.line_eq, List.length_append, List.length_append]
  have hinside : 0 < inside.length := List.length_pos_iff.mpr h.inside_ne_nil
  have hbefore := Text.length_le_length_encode before
  have hshorter := Text.length_le_length_encode inside.dropLast
  have hdrop : inside.dropLast.length = inside.length - 1 := List.length_dropLast
  have hfirst := h.first
  have hreaches := h.reaches
  have hafter : after = [] ↔ after.length = 0 := List.length_eq_zero_iff.symm
  rw [caretRow, blanks_append_carets_inj, ← Text.length_encode_eq_iff, hafter]
  rw [caretWidth, caretEnd, if_pos hone, caretStart, hlength]
  omega

end Diagnostic

/-! ### What is reported of a source -/

variable {s : Source} {d : Diagnostic}

/-- What is reported shows the line on which its span begins. -/
theorem analyze_begins (h : d ∈ (analyze s).diagnostics.kept) :
    s.Begins d.span ∧ s.line? d.span.line = some d.sourceLine := by
  have houtcome := analyze_outcome s
  generalize analyze s = a at houtcome h
  cases houtcome with
  | unread _ =>
    obtain ⟨-, hbegins, hshown⟩ := Source.ofForm_of_mem_parse h
    exact ⟨hbegins, hshown.line⟩
  | refused hf =>
    obtain rfl := List.mem_singleton.mp h
    exact ⟨hf, (Diagnostic.shownIn_ofFault hf).line⟩
  | checked => cases h

/-- A diagnostic of a source whose span stays on its line divides the line. Its carets stand under
the characters of the span, one under each, exactly if all characters before the span are ASCII, and
either the last column, too, counts characters or the span ends the line. In particular they do if
the line is ASCII up to the end of the span. -/
theorem caretRow_under_span_iff (s : Source) (d : Diagnostic)
    (hd : d ∈ (analyze s).diagnostics.kept) (hone : d.span.last.line = d.span.first.line)
    (hinside : d.span.last.column ≤ (Text.utf8 d.sourceLine).length) :
    (∃ before inside after, d.span.Divides d.sourceLine.toList before inside after) ∧
    ∀ before inside after, d.span.Divides d.sourceLine.toList before inside after →
      (d.caretRow = blanks before.length ++ carets inside.length ↔
        (∀ c ∈ before, c.toNat < 128) ∧
          (d.span.last.column = before.length + inside.length ∨ after = [])) ∧
      ((∀ c ∈ before ++ inside, c.toNat < 128) →
        d.caretRow = blanks before.length ++ carets inside.length) := by
  obtain ⟨hbegins, hline⟩ := analyze_begins hd
  refine ⟨hbegins.exists_divides hline hone hinside, fun before inside after h => ?_⟩
  have hiff := Diagnostic.caretRow_eq_iff h hone
  refine ⟨hiff, fun hascii => hiff.mpr ?_⟩
  obtain ⟨hbefore, hinside⟩ := List.forall_mem_append.mp hascii
  refine ⟨hbefore, .inl ?_⟩
  -- with one byte for each character the last column can only be that of the last character
  have hdrop : ∀ c ∈ inside.dropLast, c.toNat < 128 := fun c hc =>
    hinside c ((List.dropLast_sublist inside).subset hc)
  have hreaches := h.reaches
  have hlast := h.last
  rw [Text.length_encode_eq_iff.mpr hbefore, Text.length_encode_eq_iff.mpr hdrop,
    List.length_dropLast] at hreaches
  rw [Text.length_encode_eq_iff.mpr hbefore, Text.length_encode_eq_iff.mpr hinside] at hlast
  omega

/-- A declaration with an accent in its value, and behind it on the same line one that fails. -/
def Source.accentBefore : Source := ⟨"main", "let a: string = \"é\" let b: int = true"⟩

/-- There is one diagnostic, for the second declaration: its first byte is the 22nd of the line. -/
theorem Source.accentBefore_report : ∃ d ∈ (analyze .accentBefore).diagnostics.kept,
    d.span = ⟨⟨1, 22⟩, ⟨1, 38⟩⟩ ∧ d.sourceLine = "let a: string = \"é\" let b: int = true" := by
  have hreports : (analyze .accentBefore).diagnostics.kept.map (fun d => (d.span, d.sourceLine)) =
      [(⟨⟨1, 22⟩, ⟨1, 38⟩⟩, "let a: string = \"é\" let b: int = true")] := by decide +kernel
  obtain ⟨d, hd, hshown⟩ := List.map_eq_singleton_iff.mp hreports
  obtain ⟨hspan, hline⟩ := Prod.mk.inj hshown
  exact ⟨d, hd ▸ List.mem_cons_self, hspan, hline⟩

/-- The line is divided before the second declaration, and the carets are not right. -/
theorem Source.accentBefore_divided : ∃ d ∈ (analyze .accentBefore).diagnostics.kept,
    d.span.last.line = d.span.first.line ∧
    d.span.last.column ≤ (Text.utf8 d.sourceLine).length ∧
    (∃ before inside after, d.span.Divides d.sourceLine.toList before inside after) ∧
    ∀ before inside after, d.span.Divides d.sourceLine.toList before inside after → 'é' ∈ before →
      d.caretRow ≠ blanks before.length ++ carets inside.length := by
  obtain ⟨d, hd, hspan, hline⟩ := Source.accentBefore_report
  have hone : d.span.last.line = d.span.first.line := by rw [hspan]
  have hinside : d.span.last.column ≤ (Text.utf8 d.sourceLine).length := by
    rw [hspan, hline]
    decide
  obtain ⟨hdivides, hcarets⟩ := caretRow_under_span_iff .accentBefore d hd hone hinside
  refine ⟨d, hd, hone, hinside, hdivides, fun before inside after h hmem hrow => ?_⟩
  have hascii := ((hcarets before inside after h).1.mp hrow).1 'é' hmem
  exact absurd hascii (by decide)

/-- The carets begin one place too far to the right, and one is missing. -/
theorem Source.accentBefore_carets_late :
    let before := "let a: string = \"é\" "
    let inside := "let b: int = true"
    ∃ d ∈ (analyze .accentBefore).diagnostics.kept,
      d.span.Divides d.sourceLine.toList before.toList inside.toList [] ∧
      before.length = 20 ∧ inside.length = 17 ∧ d.caretRow = blanks 21 ++ carets 16 := by
  obtain ⟨d, hd, hspan, hline⟩ := Source.accentBefore_report
  refine ⟨d, hd, ?_, by decide, by decide, ?_⟩
  · rw [hspan, hline]
    exact ⟨by decide, by decide, by decide, by decide⟩
  · rw [Diagnostic.caretRow, Diagnostic.caretWidth, Diagnostic.caretEnd, Diagnostic.caretStart,
      hspan, hline]
    decide

end RecordLang
