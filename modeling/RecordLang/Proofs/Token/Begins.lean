import RecordLang.Proofs.Text.Boundary
import RecordLang.Proofs.Token.Tiling

/-!
# Where tokens and faults begin

Whatever faults a text has, reading takes it off the front piece by piece and cuts it at edges only,
so that no character is cut (`Lexer.Input.Leads`). Every token and every fault begins at a position
that is come to on the way (`Source.begins_of_token`, `Source.begins_of_fault`). Such a position is
behind some of the characters of the source (`Source.Begins.exists_chars`), and on one of its lines
(`Source.Begins.exists_line`).
-/

namespace RecordLang

open Text (Edge)

/-- The second position is behind some bytes that stand at the first one. -/
def Position.Before (start stop : Position) : Prop := ∃ run, run ≠ [] ∧ stop = start.past run

theorem Position.Before.next {start stop : Position} (h : start.Before stop) (b : UInt8) :
    start.Before (stop.next b) := by
  obtain ⟨run, -, rfl⟩ := h
  exact ⟨run ++ [b], by simp, by simp⟩

/-- What has a byte does not end before it begins. -/
theorem Position.Before.le_last {start stop : Position} (h : start.Before stop) :
    start ≤ (Span.between start stop).last := by
  obtain ⟨run, hne, rfl⟩ := h
  obtain ⟨b, more, rfl⟩ := List.exists_cons_of_ne_nil hne
  have hfirst : start.line < (start.next b).line ∨
      (start.next b).line = start.line ∧ (start.next b).column = start.column + 1 := by
    rw [Position.next]
    split
    · exact .inl (Nat.lt_succ_self _)
    · exact .inr ⟨rfl, rfl⟩
  have hmore := Position.le_past (start.next b) more
  rw [Position.past_cons]
  generalize (start.next b).past more = stop at hmore ⊢
  rw [Position.le_def] at hmore ⊢
  show start.line < stop.line ∨ start.line = stop.line ∧ start.column ≤ max (stop.column - 1) 1
  omega

namespace Byte

variable {b : UInt8}

theorem isBlank_lt (h : isBlank b = true) : b.toNat < 128 := by
  rcases isBlank_iff.mp h with rfl | rfl | rfl | rfl <;> decide

theorem isDigit_lt (h : isDigit b = true) : b.toNat < 128 := by
  have hrange := isDigit_iff.mp h
  omega

theorem isWordPart_lt (h : isWordPart b = true) : b.toNat < 128 := by
  rcases Bool.or_eq_true_iff.mp h with h | h
  · have hrange := isLetter_iff.mp h
    omega
  · exact isDigit_lt h

end Byte

/-- A lexeme ends with a byte of ASCII. -/
theorem Kind.SpelledBy.edge {k : Kind} {lexeme rest : List UInt8} (h : k.SpelledBy lexeme) :
    Edge lexeme rest := by
  obtain ⟨b, more, hne⟩ := List.exists_cons_of_ne_nil h.onLine.1
  have hb : b ∈ lexeme := hne ▸ List.mem_cons_self
  cases h with
  | word hstart hword =>
    refine Text.edge_of_forall (fun c hc => Byte.isWordPart_lt ?_) hb
    rcases List.mem_cons.mp hc with rfl | hc
    · rw [Byte.isWordPart, hstart, Bool.true_or]
    · exact hword c hc
  | int _ hdigits _ => exact Text.edge_of_forall (fun c hc => Byte.isDigit_lt (hdigits c hc)) hb
  | float _ _ hwhole hplaces =>
    refine Text.edge_of_forall (fun c hc => ?_) hb
    rcases List.mem_append.mp hc with hc | hc
    · exact Byte.isDigit_lt (hwhole c hc)
    · rcases List.mem_cons.mp hc with rfl | hc
      · decide
      · exact Byte.isDigit_lt (hplaces c hc)
  | symbol x => exact .inr (by cases x <;> exact ⟨_, rfl, by decide⟩)
  | string _ =>
    refine .inr ⟨Byte.quote, ?_, by decide⟩
    rw [← List.cons_append]
    exact List.getLast?_concat

/-- Blanks and comments end with a byte of ASCII. -/
theorem Blanks.edge {gap rest : List UInt8} (h : Blanks gap) : gap = [] ∨ Edge gap rest := by
  have hbefore : ∀ {b : UInt8} (before : List UInt8) {more : List UInt8}, b.toNat < 128 →
      more = [] ∨ Edge more rest → Edge (before ++ b :: more) rest := by
    rintro b before more hb (rfl | hmore)
    · exact .inr ⟨b, by simp, hb⟩
    · exact (hmore.append_left [b]).append_left before
  induction h with
  | nil => exact .inl rfl
  | @blank b _ hb _ ih =>
    exact .inr (hbefore [] (Byte.isBlank_lt hb) ih)
  | @comment text _ _ _ ih =>
    exact .inr (hbefore (Byte.slash :: Byte.slash :: text) (by decide) ih)

namespace Lexer

variable {i j k : Input} {start : Position} {bytes rest : List UInt8}

/-- The second input is left of the first one behind some bytes, and the cut is at an edge. -/
def Input.Cuts (i j : Input) : Prop :=
  ∃ taken, i.rest = taken ++ j.rest ∧ j.here = i.here.past taken ∧ Edge taken j.rest

/-- The second input is the first one, or left of it behind an edge. -/
def Input.Leads (i j : Input) : Prop := i = j ∨ i.Cuts j

theorem Input.Cuts.trans (h : i.Cuts j) (h' : j.Cuts k) : i.Cuts k := by
  obtain ⟨as, has, hj, -⟩ := h
  obtain ⟨bs, hbs, hk, hedge⟩ := h'
  exact ⟨as ++ bs, by rw [has, hbs, List.append_assoc], by rw [hk, hj, Position.past_append],
    hedge.append_left as⟩

theorem Input.Cuts.next {here : Position} {b : UInt8} (h : Input.Cuts ⟨here.next b, rest⟩ j) :
    Input.Cuts ⟨here, b :: rest⟩ j := by
  obtain ⟨taken, hrest, hj, hedge⟩ := h
  exact ⟨b :: taken, congrArg (b :: ·) hrest, hj, hedge.append_left [b]⟩

/-- The position of an input that is left behind an edge. -/
def Input.CutsAt (i : Input) (p : Position) : Prop := ∃ j, i.Cuts j ∧ p = j.here

theorem Input.CutsAt.next {here p : Position} {b : UInt8}
    (h : Input.CutsAt ⟨here.next b, rest⟩ p) : Input.CutsAt ⟨here, b :: rest⟩ p := by
  obtain ⟨j, hj, hp⟩ := h
  exact ⟨j, hj.next, hp⟩

theorem Input.Leads.refl (i : Input) : i.Leads i := .inl rfl

theorem Input.Leads.trans (h : i.Leads j) (h' : j.Leads k) : i.Leads k := by
  rcases h with rfl | h
  · exact h'
  · rcases h' with rfl | h'
    · exact .inr h
    · exact .inr (h.trans h')

theorem Input.Leads.exists_taken (h : i.Leads j) : ∃ taken,
    i.rest = taken ++ j.rest ∧ j.here = i.here.past taken ∧ (taken = [] ∨ Edge taken j.rest) := by
  rcases h with rfl | ⟨taken, hrest, hj, hedge⟩
  · exact ⟨[], rfl, rfl, .inl rfl⟩
  · exact ⟨taken, hrest, hj, .inr hedge⟩

/-- Before a byte that goes on with nothing there is an edge. -/
theorem Input.cuts_here {here : Position} {b : UInt8} (hb : Byte.isContinuation b = false) :
    Input.Cuts ⟨here, b :: rest⟩ ⟨here, b :: rest⟩ :=
  ⟨[], rfl, rfl, .inl (by simpa using hb)⟩

theorem leads_trim (i : Input) : i.Leads i.trim := by
  obtain ⟨gap, rest, hbytes, htrim, -, hblanks⟩ := exists_gap i.here i.rest
  have htrim' : i.trim = ⟨i.here.past gap, rest⟩ := htrim
  have hedge : gap = [] ∨ Edge gap rest := by
    cases rest with
    | nil => exact .inr (Text.edge_nil gap)
    | cons b rest => exact (hblanks (List.cons_ne_nil b rest)).edge
  rw [htrim']
  rcases hedge with rfl | hedge
  · rw [List.nil_append] at hbytes
    rw [← hbytes]
    exact .refl i
  · exact .inr ⟨gap, hbytes, rfl, hedge⟩

/-- The span begins at a position that is come to from an input on, and does not end before it. -/
def Input.Passes (i : Input) (span : Span) : Prop :=
  span.first ≤ span.last ∧ ∃ j, i.Leads j ∧ span.first = j.here

theorem Input.Passes.here (i : Input) : i.Passes (.point i.here) :=
  ⟨.inr ⟨rfl, Nat.le_refl _⟩, i, .refl i, rfl⟩

theorem Input.Leads.passes {span : Span} (h : i.Leads j) (hspan : j.Passes span) :
    i.Passes span := by
  obtain ⟨hforward, k, hk, hfirst⟩ := hspan
  exact ⟨hforward, k, h.trans hk, hfirst⟩

theorem Input.passes_between {stop : Position} (h : i.here.Before stop) :
    i.Passes (.between i.here stop) :=
  ⟨h.le_last, i, .refl i, rfl⟩

/-! ### Single tokens -/

/-- The faults of a string begin with the string or with a backslash in it. -/
theorem quoted_cuts (start here : Position) (bytes : List UInt8)
    (hopen : start.Before here) :
    Input.Cuts ⟨here, bytes⟩ (quoted start here bytes).next ∧
      ∀ f ∈ (quoted start here bytes).faults, f.span.first ≤ f.span.last ∧
        (f.span.first = start ∨ Input.CutsAt ⟨here, bytes⟩ f.span.first) := by
  fun_induction quoted start here bytes with
  | case1 here =>
    refine ⟨⟨[], rfl, rfl, Text.edge_nil []⟩, fun f hf => ?_⟩
    rw [List.mem_singleton.mp hf]
    exact ⟨hopen.le_last, .inl rfl⟩
  | case2 here rest =>
    refine ⟨Input.cuts_here (by decide), fun f hf => ?_⟩
    rw [List.mem_singleton.mp hf]
    exact ⟨hopen.le_last, .inl rfl⟩
  | case3 here rest => exact ⟨⟨[Byte.quote], rfl, rfl, .inr ⟨_, rfl, by decide⟩⟩, by simp⟩
  | case4 here =>
    refine ⟨⟨[Byte.backslash], rfl, rfl, Text.edge_nil _⟩, fun f hf => ?_⟩
    rcases List.mem_cons.mp hf with rfl | hf
    · exact ⟨Position.Before.le_last ⟨[Byte.backslash], List.cons_ne_nil _ _, rfl⟩,
        .inr ⟨_, Input.cuts_here (by decide), rfl⟩⟩
    · rw [List.mem_singleton.mp hf]
      exact ⟨(hopen.next _).le_last, .inl rfl⟩
  | case5 here e rest v hv _ _ stop ih =>
    obtain ⟨hcuts, hfaults⟩ := ih ((hopen.next Byte.backslash).next e)
    refine ⟨hcuts.next.next, fun f hf => ?_⟩
    obtain ⟨hforward, hfirst⟩ := hfaults f hf
    exact ⟨hforward, hfirst.imp id fun h => h.next.next⟩
  | case6 here e rest hv _ _ stop ih =>
    obtain ⟨hcuts, hfaults⟩ := ih ((hopen.next Byte.backslash).next e)
    refine ⟨hcuts.next.next, fun f hf => ?_⟩
    rcases List.mem_cons.mp hf with rfl | hf
    · exact ⟨Position.Before.le_last ⟨[Byte.backslash, e], List.cons_ne_nil _ _, rfl⟩,
        .inr ⟨_, Input.cuts_here (by decide), rfl⟩⟩
    · obtain ⟨hforward, hfirst⟩ := hfaults f hf
      exact ⟨hforward, hfirst.imp id fun h => h.next.next⟩
  | case7 here b rest _ _ _ ih =>
    obtain ⟨hcuts, hfaults⟩ := ih (hopen.next b)
    refine ⟨hcuts.next, fun f hf => ?_⟩
    obtain ⟨hforward, hfirst⟩ := hfaults f hf
    exact ⟨hforward, hfirst.imp id fun h => h.next⟩

/-- The step takes bytes off the front up to an edge, and its faults begin at edges, too. -/
structure Step.OffFront (s : Step) (i : Input) : Prop where
  next : i.Cuts s.next
  faults : ∀ f ∈ s.faults, i.Passes f.span

/-- A step that takes a lexeme, with at most one fault, which is about the lexeme. -/
theorem offFront_after {lexeme : List UInt8} {kind : Option Kind} {faults : List Fault}
    (h : bytes = lexeme ++ rest) (hne : lexeme ≠ []) (hedge : Edge lexeme rest)
    (hfaults : ∀ f ∈ faults, f.span = .between start (start.past lexeme)) :
    Step.OffFront ⟨kind, faults, .after start lexeme rest⟩ ⟨start, bytes⟩ := by
  refine ⟨⟨lexeme, h, rfl, hedge⟩, fun f hf => ?_⟩
  rw [hfaults f hf]
  exact Input.passes_between ⟨lexeme, hne, rfl⟩

theorem offFront_stringStep (start : Position) (rest : List UInt8) :
    (stringStep start rest).OffFront ⟨start, Byte.quote :: rest⟩ := by
  obtain ⟨hcuts, hfaults⟩ := quoted_cuts start (start.next Byte.quote) rest
    ⟨[Byte.quote], List.cons_ne_nil _ _, rfl⟩
  refine ⟨hcuts.next, fun f hf => ?_⟩
  obtain ⟨hforward, hfirst | ⟨j, hj, hfirst⟩⟩ := hfaults f hf
  · exact ⟨hforward, _, .refl _, hfirst⟩
  · exact ⟨hforward, j, .inr hj.next, hfirst⟩

/-- A step that takes a lexeme without a fault. -/
theorem Step.Takes.offFront {s : Step} (h : s.Takes start bytes) : s.OffFront ⟨start, bytes⟩ := by
  obtain ⟨kind, lexeme, rest, rfl, hbytes, hspelled⟩ := h
  exact offFront_after hbytes hspelled.onLine.1 hspelled.edge (by simp)

/-- The only fault of a number is that its whole part is too large, and then there is no other. -/
theorem numberStep_of_fault (h : (numberStep start bytes).faults ≠ []) :
    let whole := bytes.takeWhile Byte.isDigit
    numberStep start bytes = ⟨some (.int 0),
      [⟨.integerTooLarge whole, .between start (start.past whole)⟩],
      .after start whole (bytes.dropWhile Byte.isDigit)⟩ := by
  unfold numberStep at h ⊢
  dsimp only at h ⊢
  split at h
  · next hplaces =>
    split at h
    · exact absurd rfl h
    · next hlarge =>
      rw [if_pos hplaces, if_neg hlarge]
      rfl
  · exact absurd rfl h

theorem offFront_numberStep {b : UInt8} (hb : Byte.isDigit b = true) (start : Position)
    (rest : List UInt8) : (numberStep start (b :: rest)).OffFront ⟨start, b :: rest⟩ := by
  by_cases hfaults : (numberStep start (b :: rest)).faults = []
  · exact (takes_numberStep hb hfaults).offFront
  · have hmem : b ∈ (b :: rest).takeWhile Byte.isDigit := by
      rw [List.takeWhile_cons_of_pos hb]
      exact List.mem_cons_self
    have hedge : Edge ((b :: rest).takeWhile Byte.isDigit) ((b :: rest).dropWhile Byte.isDigit) :=
      Text.edge_of_forall (fun c hc => Byte.isDigit_lt (List.mem_takeWhile_imp hc)) hmem
    rw [numberStep_of_fault hfaults]
    exact offFront_after List.takeWhile_append_dropWhile.symm (List.ne_nil_of_mem hmem) hedge
      (by simp)

/-- Only a character that makes no symbol is a fault. -/
theorem symbolStep_of_fault {b : UInt8} (h : (symbolStep start b rest).faults ≠ []) :
    Symbol.single? (Byte.glyph b) = none ∧ symbolStep start b rest = strayStep start b rest := by
  unfold symbolStep at h ⊢
  split at h
  · exact absurd rfl h
  · split at h
    · exact absurd rfl h
    · next hsingle => exact ⟨hsingle, rfl⟩

theorem offFront_symbolStep (start : Position) (b : UInt8) (rest : List UInt8) :
    (symbolStep start b rest).OffFront ⟨start, b :: rest⟩ := by
  by_cases hfaults : (symbolStep start b rest).faults = []
  · exact (takes_symbolStep hfaults).offFront
  · -- a stray character is taken with all bytes that go on with it
    rw [(symbolStep_of_fault hfaults).2]
    refine offFront_after ?_ (List.cons_ne_nil b _) (.inl ?_) (by simp [Input.after])
    · rw [List.cons_append, List.takeWhile_append_dropWhile]
    · intro c hc
      have hstop := List.head?_dropWhile_not Byte.isContinuation rest
      rwa [show (rest.dropWhile Byte.isContinuation).head? = some c from hc] at hstop

theorem offFront_step (start : Position) (b : UInt8) (rest : List UInt8) :
    (step start b rest).OffFront ⟨start, b :: rest⟩ := by
  unfold step
  split
  · next hb =>
    subst hb
    exact offFront_stringStep start rest
  · split
    · next hb => exact offFront_numberStep hb start rest
    · split
      · next hb => exact (takes_wordStep hb).offFront
      · exact offFront_symbolStep start b rest

/-! ### The whole text -/

/-- The step at the bytes that are left behind a gap. -/
theorem offFront_trim {b : UInt8} (h : i.trim.rest = b :: rest) :
    (step i.trim.here b rest).OffFront i.trim := by
  have htrim : i.trim = ⟨i.trim.here, b :: rest⟩ := by rw [← h]
  rw [htrim]
  exact offFront_step i.trim.here b rest

/-- Every step takes at least one byte, so a token does not end before it begins. -/
theorem passes_token {b : UInt8} (h : i.trim.rest = b :: rest) :
    i.trim.Passes (.between i.trim.here (step i.trim.here b rest).next.here) := by
  obtain ⟨taken, hrest, hnext, -⟩ := (offFront_trim h).next
  have hne : taken ≠ [] := by
    rintro rfl
    have hlength := length_step i.trim.here b rest
    rw [h, List.nil_append] at hrest
    rw [← hrest, List.length_cons] at hlength
    omega
  exact Input.passes_between ⟨taken, hne, hnext⟩

theorem tokens_pass (i : Input) (faults : Capped Fault) :
    (∀ t ∈ (tokens i faults).1, i.Passes t.span) ∧
      ∀ f ∈ (tokens i faults).2.kept, f ∈ faults.kept ∨ i.Passes f.span := by
  fun_induction tokens i faults with
  | case1 i faults hfull =>
    refine ⟨fun t ht => ?_, fun f hf => .inl hf⟩
    rw [List.mem_singleton.mp ht]
    exact .here i
  | case2 i faults hfull hrest =>
    refine ⟨fun t ht => ?_, fun f hf => .inl hf⟩
    rw [List.mem_singleton.mp ht]
    exact (leads_trim i).passes (.here _)
  | case3 i faults hfull b rest hrest s faults' hkind ih =>
    have hstep : s.OffFront i.trim := offFront_trim hrest
    have hleads : i.Leads s.next.trim :=
      ((leads_trim i).trans (.inr hstep.next)).trans (leads_trim _)
    refine ⟨fun t ht => hleads.passes (ih.1 t ht), fun f hf => ?_⟩
    rcases ih.2 f hf with hf | hf
    · exact (Capped.mem_kept_pushAll hf).imp id fun hf => (leads_trim i).passes (hstep.faults f hf)
    · exact .inr (hleads.passes hf)
  | case4 i faults hfull b rest hrest s faults' kind hkind ts faults'' htokens ih =>
    have hstep : s.OffFront i.trim := offFront_trim hrest
    have hleads : i.Leads s.next := (leads_trim i).trans (.inr hstep.next)
    rw [htokens] at ih
    refine ⟨fun t ht => ?_, fun f hf => ?_⟩
    · rcases List.mem_cons.mp ht with rfl | ht
      · exact (leads_trim i).passes (passes_token hrest)
      · exact hleads.passes (ih.1 t ht)
    · rcases ih.2 f hf with hf | hf
      · exact (Capped.mem_kept_pushAll hf).imp id fun hf => (leads_trim i).passes (hstep.faults f hf)
      · exact .inr (hleads.passes hf)

end Lexer

namespace Source

variable {s : Source} {span : Span}

/-- The span begins behind some of the characters of the source, and does not end before that. -/
def Begins (s : Source) (span : Span) : Prop := Lexer.Input.Passes ⟨.origin, s.bytes⟩ span

theorem begins_of_token {t : Token} (h : t ∈ s.lex.tokens) : s.Begins t.span :=
  (Lexer.tokens_pass ⟨.origin, s.bytes⟩ .empty).1 t h

theorem begins_of_fault {f : Lexer.Fault} (h : f ∈ s.lex.faults.kept) : s.Begins f.span := by
  rcases (Lexer.tokens_pass ⟨.origin, s.bytes⟩ .empty).2 f h with h | h
  · cases h
  · exact h

/-- The characters before such a span, and those from there on. -/
theorem Begins.exists_chars (h : s.Begins span) : ∃ before after,
    s.text.toList = before ++ after ∧ span.first = Position.origin.past (Text.encode before) := by
  obtain ⟨-, j, hj, hfirst⟩ := h
  obtain ⟨taken, hbytes, hhere, hedge⟩ := hj.exists_taken
  obtain ⟨before, after, htext, rfl, -⟩ := Text.encode_cut hbytes hedge
  exact ⟨before, after, htext, hfirst.trans hhere⟩

/-- The line of such a span is one of those of the source. -/
theorem Begins.exists_line (h : s.Begins span) :
    1 ≤ span.line ∧ span.line ≤ s.lineCount ∧ ∃ line, s.line? span.line = some line := by
  obtain ⟨before, after, htext, hspan⟩ := h.exists_chars
  have hfirst : Position.origin ≤ span.first := by
    rw [hspan]
    exact Position.le_past _ _
  have hlast : span.first ≤ s.stop := by
    have hbytes : s.bytes = Text.encode before ++ Text.encode after := by
      rw [← Text.encode_append, ← htext]
      rfl
    rw [← past_bytes, hspan, hbytes, Position.past_append]
    exact Position.le_past _ _
  rw [Position.le_def] at hfirst hlast
  have hone : 1 ≤ span.line := by
    have horigin : Position.origin.line = 1 := rfl
    show 1 ≤ span.first.line
    omega
  have hcount : span.line ≤ s.lineCount := by
    have hstop : s.stop.line = s.lineCount := rfl
    show span.first.line ≤ s.lineCount
    omega
  have hlt : span.line - 1 < s.lines.length := by
    have hlen : s.lineCount = s.lines.length := rfl
    omega
  refine ⟨hone, hcount, s.lines.get ⟨_, hlt⟩, ?_⟩
  rw [line?, if_neg (by omega)]
  exact List.getElem?_eq_getElem hlt

end Source

end RecordLang
