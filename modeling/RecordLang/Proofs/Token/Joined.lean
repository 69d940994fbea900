import RecordLang.Proofs.Token.Tiling

/-!
# Joined texts

A text without faults, a line feed and any second text read as the two texts one after the other
(`Source.lex_joined`). The second text is read from a position further down; nothing but the line
numbers of what is read depends on that (`Lexer.tokens_down`). The first text is read as it was
alone, because no lexeme and no comment goes on behind a line feed (`Lexer.Reads.tokens_append`).
-/

namespace RecordLang

/-! ### Further down -/

def Position.down (k : Nat) (p : Position) : Position := ⟨p.line + k, p.column⟩

def Span.down (k : Nat) (s : Span) : Span := ⟨s.first.down k, s.last.down k⟩

def Token.down (k : Nat) (t : Token) : Token := ⟨t.kind, t.span.down k⟩

def Located.down {α : Type} (k : Nat) (f : Located α) : Located α := ⟨f.cause, f.span.down k⟩

theorem Position.next_down (p : Position) (k : Nat) (b : UInt8) :
    (p.down k).next b = (p.next b).down k := by
  unfold next
  split
  · exact congrArg (Position.mk · 1) (Nat.add_right_comm p.line k 1)
  · rfl

theorem Position.past_down (p : Position) (k : Nat) (bytes : List UInt8) :
    (p.down k).past bytes = (p.past bytes).down k := by
  induction bytes generalizing p with
  | nil => rfl
  | cons b bytes ih => rw [past_cons, past_cons, next_down, ih]

namespace Lexer

variable {start here : Position} {b : UInt8} {rest bytes : List UInt8}

def Input.down (k : Nat) (i : Input) : Input := ⟨i.here.down k, i.rest⟩

def Quoted.down (k : Nat) (q : Quoted) : Quoted :=
  ⟨q.bytes, q.faults.map (·.down k), q.next.down k⟩

def Step.down (k : Nat) (s : Step) : Step := ⟨s.kind, s.faults.map (·.down k), s.next.down k⟩

theorem skipBlanks_down (k : Nat) (inside : Bool) (here : Position) (bytes : List UInt8) :
    skipBlanks inside (here.down k) bytes = (skipBlanks inside here bytes).down k := by
  induction bytes generalizing inside here with
  | nil => rfl
  | cons b rest ih =>
    rw [skipBlanks, skipBlanks, Position.next_down, ih, ih]
    split
    · rfl
    · split
      · rfl
      · split <;> rfl

theorem Input.trim_down (k : Nat) (i : Input) : (i.down k).trim = i.trim.down k :=
  skipBlanks_down k false i.here i.rest

theorem quoted_backslash {e v : UInt8} (he : Byte.unescape? e = some v) :
    quoted start here (Byte.backslash :: e :: rest) =
      (quoted start ((here.next Byte.backslash).next e) rest).cons v := by
  rw [quoted.eq_def]
  simp only [he]
  rfl

theorem quoted_backslash_none {e : UInt8} (he : Byte.unescape? e = none) :
    quoted start here (Byte.backslash :: e :: rest) =
      ((quoted start ((here.next Byte.backslash).next e) rest).cons e).fault
        ⟨.invalidEscape e, .between here ((here.next Byte.backslash).next e)⟩ := by
  rw [quoted.eq_def]
  simp only [he]
  rfl

theorem quoted_cons (hnewline : b ≠ Byte.newline) (hquote : b ≠ Byte.quote)
    (hbackslash : b ≠ Byte.backslash) :
    quoted start here (b :: rest) = (quoted start (here.next b) rest).cons b := by
  rw [quoted.eq_def]
  simp only [if_neg hnewline, if_neg hquote, if_neg hbackslash]

theorem quoted_down (k : Nat) (start here : Position) (bytes : List UInt8) :
    quoted (start.down k) (here.down k) bytes = (quoted start here bytes).down k := by
  fun_induction quoted start here bytes with
  | case1 => rfl
  | case2 =>
    rw [quoted.eq_def]
    rfl
  | case3 here rest _ =>
    rw [quoted.eq_def]
    rfl
  | case4 here _ _ stop =>
    rw [quoted.eq_def]
    rfl
  | case5 here e rest v he _ _ stop ih =>
    rw [quoted_backslash he, Position.next_down, Position.next_down, ih]
    rfl
  | case6 here e rest he _ _ stop ih =>
    rw [quoted_backslash_none he, Position.next_down, Position.next_down, ih]
    rfl
  | case7 here b rest hnewline hquote hbackslash ih =>
    rw [quoted_cons hnewline hquote hbackslash, Position.next_down, ih]
    rfl

theorem after_down (k : Nat) (start : Position) (lexeme rest : List UInt8) :
    Input.after (start.down k) lexeme rest = (Input.after start lexeme rest).down k := by
  rw [Input.after, Position.past_down]
  rfl

theorem plain_down (k : Nat) (start : Position) (kind : Kind) (lexeme rest : List UInt8) :
    Step.plain (start.down k) kind lexeme rest = (Step.plain start kind lexeme rest).down k := by
  rw [Step.plain, after_down]
  rfl

theorem numberStep_down (k : Nat) (start : Position) (bytes : List UInt8) :
    numberStep (start.down k) bytes = (numberStep start bytes).down k := by
  unfold numberStep
  simp only [plain_down, after_down]
  split
  · split <;> rfl
  · rfl

theorem symbolStep_down (k : Nat) (start : Position) (b : UInt8) (rest : List UInt8) :
    symbolStep (start.down k) b rest = (symbolStep start b rest).down k := by
  unfold symbolStep strayStep
  simp only [plain_down, after_down]
  split
  · rfl
  · split <;> rfl

theorem step_down (k : Nat) (start : Position) (b : UInt8) (rest : List UInt8) :
    step (start.down k) b rest = (step start b rest).down k := by
  unfold step stringStep
  rw [Position.next_down, quoted_down, numberStep_down, symbolStep_down, wordStep, plain_down]
  split
  · rfl
  · split
    · rfl
    · split <;> rfl

/-- Nothing but the line numbers of what is read depends on where reading starts. -/
theorem tokens_down (k : Nat) (i : Input) (faults : Capped Fault) :
    tokens (i.down k) (faults.map (·.down k)) =
      ((tokens i faults).1.map (·.down k), (tokens i faults).2.map (·.down k)) := by
  fun_induction tokens i faults with
  | case1 i faults hfull =>
    rw [tokens, Capped.full_map, if_pos hfull]
    rfl
  | case2 i faults hfull hrest =>
    have htrim : (i.down k).trim = ⟨i.trim.here.down k, []⟩ := by
      rw [Input.trim_down, Input.down, hrest]
    exact tokens_eof (by simpa [Capped.full_map] using hfull) htrim
  | case3 i faults hfull b rest hrest s faults' hkind ih =>
    have htrim : (i.down k).trim = ⟨i.trim.here.down k, b :: rest⟩ := by
      rw [Input.trim_down, Input.down, hrest]
    rw [tokens_stray (by simpa [Capped.full_map] using hfull) htrim (step_down k _ b rest) hkind]
    rw [← ih, Capped.map_pushAll, ← Input.trim_down]
    rfl
  | case4 i faults hfull b rest hrest s faults' kind hkind ts faults'' hts ih =>
    have htrim : (i.down k).trim = ⟨i.trim.here.down k, b :: rest⟩ := by
      rw [Input.trim_down, Input.down, hrest]
    have hrec : tokens (s.down k).next ((faults.map (·.down k)).pushAll (s.down k).faults) =
        (ts.map (·.down k), faults''.map (·.down k)) := by
      rw [hts, Capped.map_pushAll] at ih
      exact ih
    rw [tokens_token (by simpa [Capped.full_map] using hfull) htrim (step_down k _ b rest) hkind,
      hrec]
    rfl

/-! ### A line feed behind a text -/

variable {more : List UInt8}

/-- More bytes behind what a step leaves. -/
def Step.append (s : Step) (more : List UInt8) : Step :=
  { s with next := ⟨s.next.here, s.next.rest ++ more⟩ }

theorem takeWhile_newline {p : UInt8 → Bool} (hp : p Byte.newline = false) (bytes : List UInt8) :
    (bytes ++ Byte.newline :: more).takeWhile p = bytes.takeWhile p := by
  induction bytes with
  | nil => simp [hp]
  | cons b bytes ih =>
    rw [List.cons_append, List.takeWhile_cons, List.takeWhile_cons, ih]

theorem dropWhile_newline {p : UInt8 → Bool} (hp : p Byte.newline = false) (bytes : List UInt8) :
    (bytes ++ Byte.newline :: more).dropWhile p = bytes.dropWhile p ++ Byte.newline :: more := by
  induction bytes with
  | nil => simp [hp]
  | cons b bytes ih =>
    rw [List.cons_append, List.dropWhile_cons, List.dropWhile_cons, ih]
    split <;> rfl

theorem decimalPlaces_newline (rest : List UInt8) :
    decimalPlaces (rest ++ Byte.newline :: more) = decimalPlaces rest := by
  cases rest with
  | nil => rfl
  | cons p rest => rw [List.cons_append, decimalPlaces, decimalPlaces, takeWhile_newline rfl]

theorem length_decimalPlaces (h : decimalPlaces rest ≠ []) :
    (decimalPlaces rest).length + 1 ≤ rest.length := by
  have hlen := congrArg List.length (eq_decimalPlaces h)
  rw [List.length_cons, List.length_append] at hlen
  omega

theorem numberStep_append (bytes : List UInt8) : numberStep start (bytes ++ Byte.newline :: more) =
    (numberStep start bytes).append (Byte.newline :: more) := by
  rw [numberStep, numberStep, takeWhile_newline rfl, dropWhile_newline rfl, decimalPlaces_newline]
  simp only
  by_cases hplaces : decimalPlaces (bytes.dropWhile Byte.isDigit) = []
  · rw [hplaces, List.isEmpty_nil, if_pos rfl, if_pos rfl]
    split <;> rfl
  · rw [if_neg (by simpa using hplaces), if_neg (by simpa using hplaces),
      List.drop_append_of_le_length (length_decimalPlaces hplaces)]
    rfl

theorem wordStep_append (bytes : List UInt8) : wordStep start (bytes ++ Byte.newline :: more) =
    (wordStep start bytes).append (Byte.newline :: more) := by
  rw [wordStep, wordStep, takeWhile_newline rfl, dropWhile_newline rfl]
  rfl

theorem pair?_newline (b : UInt8) (rest : List UInt8) :
    pair? b (rest ++ Byte.newline :: more) = pair? b rest := by
  cases rest with
  | nil =>
    -- a line feed is the second character of no symbol
    show Symbol.double? (Byte.glyph b) '\n' = none
    unfold Symbol.double?
    split <;> first | rfl | contradiction
  | cons c rest => rfl

theorem symbolStep_append (b : UInt8) (rest : List UInt8) :
    symbolStep start b (rest ++ Byte.newline :: more) =
      (symbolStep start b rest).append (Byte.newline :: more) := by
  unfold symbolStep strayStep
  rw [pair?_newline, takeWhile_newline rfl, dropWhile_newline rfl]
  split
  · next x hx =>
    cases rest with
    | nil => cases hx
    | cons c rest => rfl
  · split <;> rfl

/-- The inside of a string literal up to its closing quote. -/
theorem quoted_escaped {body text : List UInt8} (h : Escaped body text) :
    quoted start here (body ++ Byte.quote :: rest) =
      ⟨text, [], ⟨here.past (body ++ [Byte.quote]), rest⟩⟩ := by
  induction h generalizing here with
  | nil =>
    rw [List.nil_append, quoted.eq_def]
    rfl
  | plain hnewline hquote hbackslash _ ih =>
    rw [List.cons_append, quoted_cons hnewline hquote hbackslash, ih]
    rfl
  | escape he _ ih =>
    rw [List.cons_append, List.cons_append, quoted_backslash he, ih]
    rfl

theorem stringStep_append (h : (stringStep start rest).faults = []) :
    stringStep start (rest ++ Byte.newline :: more) =
      (stringStep start rest).append (Byte.newline :: more) := by
  obtain ⟨body, rest', rfl, hbody, -⟩ := exists_escaped h
  rw [List.append_assoc, List.cons_append, stringStep, stringStep, quoted_escaped hbody,
    quoted_escaped hbody]
  rfl

theorem step_append (h : (step start b rest).faults = []) :
    step start b (rest ++ Byte.newline :: more) =
      (step start b rest).append (Byte.newline :: more) := by
  unfold step at h ⊢
  rw [← List.cons_append, numberStep_append, wordStep_append, symbolStep_append]
  split
  · next hb =>
    rw [if_pos hb] at h
    exact stringStep_append h
  · split
    · rfl
    · split <;> rfl

/-- What is not skipped begins neither a blank nor a comment. -/
theorem stops_of_trim (h : Input.trim ⟨here, b :: rest⟩ = ⟨here, b :: rest⟩) :
    Byte.isBlank b = false ∧ (b ≠ Byte.slash ∨ rest.head? ≠ some Byte.slash) := by
  -- what is skipped is missing from the rest
  have hskip : ∀ inside, skipBlanks inside (here.next b) rest ≠ ⟨here, b :: rest⟩ := by
    intro inside heq
    have hlen := length_skipBlanks inside (here.next b) rest
    rw [heq] at hlen
    exact Nat.not_succ_le_self _ hlen
  rw [Input.trim, skipBlanks, Bool.false_and, if_neg Bool.false_ne_true] at h
  by_cases hb : Byte.isBlank b = true
  · rw [if_pos hb] at h
    exact absurd h (hskip false)
  · rw [if_neg hb] at h
    refine ⟨by simpa using hb, not_and_or.mp fun hcomment => ?_⟩
    rw [if_pos (by simpa using hcomment)] at h
    exact hskip true h

theorem trim_append_end {i : Input} (h : i.trim = ⟨here, []⟩) :
    Input.trim ⟨i.here, i.rest ++ Byte.newline :: more⟩ =
      Input.trim ⟨(i.here.past i.rest).next Byte.newline, more⟩ := by
  obtain ⟨gap, rest, hbytes, htrim, hend, -⟩ := exists_gap i.here i.rest
  obtain ⟨-, rfl⟩ : here = i.here.past gap ∧ rest = [] := by
    simpa using h.symm.trans htrim
  rw [List.append_nil] at hbytes
  rw [hbytes, ← List.singleton_append, ← List.append_assoc, trim_blanks hend.newline,
    Position.past_append]
  rfl

theorem trim_append_stop {i : Input} (h : i.trim = ⟨here, b :: rest⟩) :
    Input.trim ⟨i.here, i.rest ++ Byte.newline :: more⟩ =
      ⟨here, b :: (rest ++ Byte.newline :: more)⟩ := by
  obtain ⟨gap, rest', hbytes, htrim, -, hgap⟩ := exists_gap i.here i.rest
  obtain ⟨rfl, rfl⟩ : here = i.here.past gap ∧ b :: rest = rest' := by
    simpa using h.symm.trans htrim
  have hblanks := hgap (List.cons_ne_nil _ _)
  rw [hbytes, trim_blanks hblanks] at htrim
  obtain ⟨hb, hslash⟩ := stops_of_trim htrim
  rw [hbytes, List.append_assoc, trim_blanks hblanks]
  refine trim_of_stop hb ?_
  cases rest with
  | nil => exact .inr (by simp [Byte.newline, Byte.slash])
  | cons c rest => exact hslash

theorem past_trim (i : Input) : i.trim.here.past i.trim.rest = i.here.past i.rest := by
  obtain ⟨gap, rest, hbytes, htrim, -, -⟩ := exists_gap i.here i.rest
  have htrim' : i.trim = ⟨i.here.past gap, rest⟩ := htrim
  rw [htrim', hbytes, Position.past_append]

theorem tokens_congr {i j : Input} {faults : Capped Fault} (hfull : faults.full = false)
    (h : i.trim = j.trim) : tokens i faults = tokens j faults := by
  rcases hj : j.trim with ⟨here, _ | ⟨b, rest⟩⟩
  · rw [tokens_eof hfull (h.trans hj), tokens_eof hfull hj]
  · cases hkind : (step here b rest).kind with
    | none => rw [tokens_stray hfull (h.trans hj) rfl hkind, tokens_stray hfull hj rfl hkind]
    | some k => rw [tokens_token hfull (h.trans hj) rfl hkind, tokens_token hfull hj rfl hkind]

/-- What is read without a fault is read so with a line feed and any bytes behind it, which are read
then. -/
theorem Reads.tokens_append {i : Input} {ts : List Token} (h : Reads i ts) (more : List UInt8) :
    tokens ⟨i.here, i.rest ++ Byte.newline :: more⟩ .empty =
      (ts.filter (·.kind ≠ .eof) ++
        (tokens ⟨(i.here.past i.rest).next Byte.newline, more⟩ .empty).1,
      (tokens ⟨(i.here.past i.rest).next Byte.newline, more⟩ .empty).2) := by
  induction h with
  | @done i here htrim => exact tokens_congr rfl (trim_append_end htrim)
  | @token i next here b rest k ts htrim hstep _ ih =>
    have hstep' : step here b (rest ++ Byte.newline :: more) =
        ⟨some k, [], ⟨next.here, next.rest ++ Byte.newline :: more⟩⟩ := by
      rw [step_append (by rw [hstep]), hstep]
      rfl
    have hpast : next.here.past next.rest = i.here.past i.rest := by
      obtain ⟨k', lexeme, rest', hplain, hrest, -⟩ := takes_step (by rw [hstep])
      have hall := past_trim i
      rw [htrim, hrest, Position.past_append] at hall
      rw [hstep] at hplain
      cases hplain
      exact hall
    have hkind : k ≠ .eof := by
      rintro rfl
      exact lexical_step (k := .eof) (by rw [hstep])
    rw [tokens_token rfl (trim_append_stop htrim) hstep' rfl]
    have hpush : (Capped.empty : Capped Fault).pushAll [] = .empty := rfl
    rw [hpush, ih, hpast, List.filter_cons_of_pos (by simpa using hkind)]
    rfl

end Lexer

/-! ### Two sources -/

namespace Source

/-- Two texts with a line feed between them, under a name. -/
def joined (name : String) (s t : Source) : Source := ⟨name, s.text ++ "\n" ++ t.text⟩

variable {name : String} {s t : Source}

theorem bytes_joined : (joined name s t).bytes = s.bytes ++ Byte.newline :: t.bytes := by
  show Text.encode (s.text ++ "\n" ++ t.text).toList = _
  rw [String.toList_append, String.toList_append, Text.encode_append, Text.encode_append,
    List.append_assoc]
  rfl

theorem lines_joined : (joined name s t).lines = s.lines ++ t.lines := by
  have htext : (joined name s t).text.toList = s.text.toList ++ '\n' :: t.text.toList := by
    show (s.text ++ "\n" ++ t.text).toList = _
    rw [String.toList_append, String.toList_append, List.append_assoc]
    rfl
  rw [lines, htext, splitLines_append, List.map_append]
  rfl

theorem line?_joined {n : Nat} (hn : n ≠ 0) :
    (joined name s t).line? (n + s.lineCount) = t.line? n := by
  rw [line?, line?, if_neg hn, if_neg (by omega), lines_joined,
    List.getElem?_append_right (by rw [lineCount]; omega)]
  congr 1
  rw [lineCount]
  omega

theorem lineCount_eq (s : Source) : s.lineCount = s.text.toList.count '\n' + 1 := by
  rw [lineCount, lines, List.length_map, length_splitLines]

/-- Line numbers of faults start with one. -/
theorem line_ne_zero {f : Lexer.Fault} (hf : f ∈ s.lex.faults.kept) : f.span.line ≠ 0 := by
  -- reading from one line further up gives the same faults, each one line further up
  have hdown := congrArg Prod.snd (Lexer.tokens_down 1 ⟨⟨0, 1⟩, s.bytes⟩ .empty)
  have hfaults : s.lex.faults = (Lexer.tokens ⟨⟨0, 1⟩, s.bytes⟩ .empty).2.map (·.down 1) := hdown
  rw [hfaults] at hf
  obtain ⟨g, -, rfl⟩ := List.mem_map.mp hf
  exact Nat.succ_ne_zero _

theorem tokens_joined (h : s.lex.faults.nonempty = false) :
    (joined name s t).lex =
      ⟨s.lex.tokens.filter (·.kind ≠ .eof) ++ t.lex.tokens.map (·.down s.lineCount),
        t.lex.faults.map (·.down s.lineCount)⟩ := by
  have hstop : (Position.origin.past s.bytes).next Byte.newline =
      Position.origin.down s.lineCount := by
    rw [past_bytes, stop]
    exact congrArg (Position.mk · 1) (Nat.add_comm _ _)
  have hjoined := (Lexer.reads_tokens ⟨.origin, s.bytes⟩ h).tokens_append t.bytes
  have hdown := Lexer.tokens_down s.lineCount ⟨.origin, t.bytes⟩ .empty
  have hsecond : Lexer.tokens ⟨Position.origin.down s.lineCount, t.bytes⟩ .empty =
      (t.lex.tokens.map (·.down s.lineCount), t.lex.faults.map (·.down s.lineCount)) := hdown
  rw [hstop, hsecond] at hjoined
  rw [lex, RecordLang.lex, bytes_joined, hjoined]
  rfl

theorem ofFault_joined {f : Lexer.Fault} (hf : f.span.line ≠ 0) :
    Diagnostic.ofFault (joined name s t) (f.down s.lineCount) =
      { Diagnostic.ofFault t f with file := name, span := f.span.down s.lineCount } := by
  have hline : (joined name s t).line? (f.span.down s.lineCount).line = t.line? f.span.line :=
    line?_joined hf
  rw [Diagnostic.ofFault, Diagnostic.inSource]
  show Diagnostic.new _ _ _ _ (((joined name s t).line? (f.span.down s.lineCount).line).getD "") = _
  rw [hline]
  rfl

/-- A text without faults in its spelling, a line feed and any second text: the tokens of the first,
without its end, are followed by those of the second, and the faults are those of the second with
their messages and lines. Everything of the second text stands as many lines further down as the
first has line feeds, and one. -/
theorem lex_joined (name : String) (s t : Source) (h : s.lex.faults.nonempty = false) :
    let k := s.text.toList.count '\n' + 1
    (joined name s t).lex.tokens =
      s.lex.tokens.filter (·.kind ≠ .eof) ++ t.lex.tokens.map (·.down k) ∧
    (joined name s t).lexDiagnostics =
      t.lexDiagnostics.map fun d => { d with file := name, span := d.span.down k } := by
  intro k
  have hk : k = s.lineCount := s.lineCount_eq.symm
  rw [hk, lexDiagnostics, tokens_joined h]
  refine ⟨rfl, ?_⟩
  have hkept : (t.lex.faults.kept.map (·.down s.lineCount)).map
      (Diagnostic.ofFault (joined name s t)) =
      (t.lex.faults.kept.map (Diagnostic.ofFault t)).map
        fun d => { d with file := name, span := d.span.down s.lineCount } := by
    rw [List.map_map, List.map_map]
    exact List.map_congr_left fun f hf => ofFault_joined (line_ne_zero hf)
  exact congrArg (Capped.mk · t.lex.faults.total) hkept

/-- A comment at the end of the first text, and a string without its end in the second. -/
theorem comment_joined :
    let s : Source := ⟨"a", "let x = 1 // one"⟩
    let t : Source := ⟨"b", "x\n\"é"⟩
    s.lex.faults.nonempty = false ∧
      (joined "c" s t).lexDiagnostics.kept.map (fun d => (d.span.first, d.sourceLine)) =
        [(⟨3, 1⟩, "\"é")] ∧
      (joined "c" s t).lex.tokens =
        s.lex.tokens.filter (·.kind ≠ .eof) ++ t.lex.tokens.map (·.down 1) := by
  intro s t
  have hclean : s.lex.faults.nonempty = false := by decide +kernel
  have hcount : s.text.toList.count '\n' + 1 = 1 := by decide +kernel
  obtain ⟨htokens, hfaults⟩ := lex_joined "c" s t hclean
  rw [hcount] at htokens
  refine ⟨hclean, ?_, htokens⟩
  rw [hfaults]
  decide +kernel

end Source

end RecordLang
