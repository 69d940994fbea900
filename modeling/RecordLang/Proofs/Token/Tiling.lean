import RecordLang.Proofs.Program.Run
import RecordLang.Proofs.Source.Lines

/-!
# Tokens tile their text

A text without faults is cut into lexemes, with blanks and comments between them and none of its
bytes left over. Every token stands at the place that its lexeme has among the lines of the source
(`Source.lex_tiles`).
-/

namespace RecordLang

/-! ### Blanks -/

/-- Bytes between two tokens: blanks and comments, each with the line feed that ends it. -/
inductive Blanks : List UInt8 → Prop
  | nil : Blanks []
  | blank {b : UInt8} {rest : List UInt8} (hb : Byte.isBlank b = true) (h : Blanks rest) :
      Blanks (b :: rest)
  | comment {text rest : List UInt8} (htext : Byte.newline ∉ text) (h : Blanks rest) :
      Blanks (Byte.slash :: Byte.slash :: (text ++ Byte.newline :: rest))

/-- Bytes behind the last token: the text may end with a comment. -/
def BlanksToEnd (bytes : List UInt8) : Prop :=
  Blanks bytes ∨ ∃ gap text, bytes = gap ++ Byte.slash :: Byte.slash :: text ∧ Blanks gap ∧
    Byte.newline ∉ text

variable {b : UInt8} {gap text rest : List UInt8}

theorem Blanks.append (h : Blanks gap) (h' : Blanks rest) : Blanks (gap ++ rest) := by
  induction h with
  | nil => exact h'
  | blank hb _ ih => exact .blank hb ih
  | @comment text rest' htext _ ih =>
    have heq : Byte.slash :: Byte.slash :: (text ++ Byte.newline :: rest') ++ rest =
        Byte.slash :: Byte.slash :: (text ++ Byte.newline :: (rest' ++ rest)) := by simp
    rw [heq]
    exact .comment htext ih

theorem BlanksToEnd.append_left (h' : BlanksToEnd rest) (h : Blanks gap) :
    BlanksToEnd (gap ++ rest) := by
  rcases h' with h' | ⟨gap', text, rfl, h', htext⟩
  · exact .inl (h.append h')
  · exact .inr ⟨gap ++ gap', text, (List.append_assoc _ _ _).symm, h.append h', htext⟩

/-- With a line feed behind them they stand between tokens. -/
theorem BlanksToEnd.newline (h : BlanksToEnd gap) : Blanks (gap ++ [Byte.newline]) := by
  rcases h with h | ⟨gap', text, rfl, h, htext⟩
  · exact h.append (.blank rfl .nil)
  · rw [List.append_assoc]
    exact h.append (.comment htext .nil)

namespace Lexer

variable {here start : Position}

theorem trim_blank (hb : Byte.isBlank b = true) :
    Input.trim ⟨here, b :: rest⟩ = Input.trim ⟨here.next b, rest⟩ := by
  simp [Input.trim, skipBlanks, hb]

/-- Inside of a comment everything on its line is skipped. -/
theorem skipBlanks_inside (hline : Byte.newline ∉ text) (here : Position) (rest : List UInt8) :
    skipBlanks true here (text ++ rest) = skipBlanks true (here.past text) rest := by
  induction text generalizing here with
  | nil => rfl
  | cons b text ih =>
    simp only [List.mem_cons, not_or] at hline
    have hb : (b != Byte.newline) = true := by simpa using Ne.symm hline.1
    rw [List.cons_append, skipBlanks, hb, Bool.true_and, if_pos rfl, ih hline.2, Position.past_cons]

theorem trim_comment (hline : Byte.newline ∉ text) (here : Position) (rest : List UInt8) :
    Input.trim ⟨here, Byte.slash :: Byte.slash :: (text ++ rest)⟩ =
      skipBlanks true (here.past (Byte.slash :: Byte.slash :: text)) rest :=
  skipBlanks_inside hline (here.past [Byte.slash, Byte.slash]) rest

/-- Nothing is skipped at a byte that begins neither a blank nor a comment. -/
theorem trim_of_stop (hb : Byte.isBlank b = false)
    (hslash : b ≠ Byte.slash ∨ rest.head? ≠ some Byte.slash) :
    Input.trim ⟨here, b :: rest⟩ = ⟨here, b :: rest⟩ := by
  have hcomment : (b == Byte.slash && rest.head? == some Byte.slash) = false := by
    rcases hslash with h | h
    · simp [h]
    · simp [h]
  simp [Input.trim, skipBlanks, hb, hcomment]

/-- Bytes that stand between tokens are skipped. -/
theorem trim_blanks (h : Blanks gap) (here : Position) (rest : List UInt8) :
    Input.trim ⟨here, gap ++ rest⟩ = Input.trim ⟨here.past gap, rest⟩ := by
  induction h generalizing here with
  | nil => rfl
  | blank hb _ ih => rw [List.cons_append, trim_blank hb, ih, Position.past_cons]
  | @comment text gap htext _ ih =>
    have heq : Byte.slash :: Byte.slash :: (text ++ Byte.newline :: gap) ++ rest =
        Byte.slash :: Byte.slash :: (text ++ Byte.newline :: (gap ++ rest)) := by simp
    rw [heq, trim_comment htext]
    show Input.trim
      ⟨(here.past (Byte.slash :: Byte.slash :: text)).next Byte.newline, gap ++ rest⟩ = _
    rw [ih]
    simp

theorem exists_line (bytes : List UInt8) : ∃ line, Byte.newline ∉ line ∧
    (bytes = line ∨ ∃ rest, bytes = line ++ Byte.newline :: rest) := by
  by_cases h : Byte.newline ∈ bytes
  · obtain ⟨line, rest, heq, hline⟩ := List.eq_append_cons_of_mem h
    exact ⟨line, hline, .inr ⟨rest, heq⟩⟩
  · exact ⟨bytes, h, .inl rfl⟩

/-- What is skipped stands between tokens, or else nothing is left behind it. -/
theorem exists_gap (here : Position) (bytes : List UInt8) : ∃ gap rest, bytes = gap ++ rest ∧
    Input.trim ⟨here, bytes⟩ = ⟨here.past gap, rest⟩ ∧ BlanksToEnd gap ∧
      (rest ≠ [] → Blanks gap) := by
  induction hn : bytes.length using Nat.strong_induction_on generalizing here bytes with
  | _ n ih =>
    subst hn
    -- skipped bytes in front of what is shorter
    have hskip : ∀ {front more : List UInt8}, Blanks front → front ≠ [] → bytes = front ++ more →
        ∃ gap rest, bytes = gap ++ rest ∧ Input.trim ⟨here, bytes⟩ = ⟨here.past gap, rest⟩ ∧
          BlanksToEnd gap ∧ (rest ≠ [] → Blanks gap) := by
      rintro front more hfront hne rfl
      have hlen : 0 < front.length := List.length_pos_iff.mpr hne
      obtain ⟨gap, rest, rfl, htrim, hend, hblanks⟩ :=
        ih more.length (by rw [List.length_append]; omega) (here.past front) more rfl
      refine ⟨front ++ gap, rest, (List.append_assoc _ _ _).symm, ?_, hend.append_left hfront,
        fun hne => hfront.append (hblanks hne)⟩
      rw [trim_blanks hfront, htrim, Position.past_append]
    cases bytes with
    | nil => exact ⟨[], [], rfl, rfl, .inl .nil, fun _ => .nil⟩
    | cons b bytes =>
      by_cases hb : Byte.isBlank b = true
      · exact hskip (.blank hb .nil) (List.cons_ne_nil _ _) rfl
      · by_cases hs : b = Byte.slash ∧ bytes.head? = some Byte.slash
        · obtain ⟨rfl, hhead⟩ := hs
          obtain ⟨more, rfl⟩ := List.head?_eq_some_iff.mp hhead
          obtain ⟨line, hline, rfl | ⟨rest, rfl⟩⟩ := exists_line more
          · refine ⟨Byte.slash :: Byte.slash :: more, [], by simp, ?_,
              .inr ⟨[], more, rfl, .nil, hline⟩, by simp⟩
            have htrim := trim_comment hline here []
            rw [List.append_nil] at htrim
            exact htrim
          · exact @hskip _ rest (.comment hline .nil) (List.cons_ne_nil _ _) (by simp)
        · exact ⟨[], b :: bytes, rfl, trim_of_stop (by simpa using hb) (not_and_or.mp hs),
            .inl .nil, fun _ => .nil⟩

end Lexer

/-! ### Lexemes -/

/-- The inside of a string literal, as it is written and as it is read. -/
inductive Escaped : List UInt8 → List UInt8 → Prop
  | nil : Escaped [] []
  | plain {b : UInt8} {body text : List UInt8} (hnewline : b ≠ Byte.newline)
      (hquote : b ≠ Byte.quote) (hbackslash : b ≠ Byte.backslash) (h : Escaped body text) :
      Escaped (b :: body) (b :: text)
  | escape {e v : UInt8} {body text : List UInt8} (he : Byte.unescape? e = some v)
      (h : Escaped body text) : Escaped (Byte.backslash :: e :: body) (v :: text)

/-- These bytes are a lexeme of this kind of token. -/
inductive Kind.SpelledBy : Kind → List UInt8 → Prop
  | word {b : UInt8} {word : List UInt8} (hb : Byte.isLetter b = true)
      (hword : ∀ c ∈ word, Byte.isWordPart c = true) :
      (Kind.ofWord (Text.ofAscii (b :: word))).SpelledBy (b :: word)
  | int {digits : List UInt8} (hne : digits ≠ []) (hdigits : ∀ c ∈ digits, Byte.isDigit c = true)
      (hfits : Lexer.digitsValue digits < Nat.pow 2 63) :
      (Kind.int (Lexer.digitsValue digits)).SpelledBy digits
  | float {whole places : List UInt8} (hne : whole ≠ []) (hne' : places ≠ [])
      (hwhole : ∀ c ∈ whole, Byte.isDigit c = true)
      (hplaces : ∀ c ∈ places, Byte.isDigit c = true) :
      (Kind.float (.ofDigits (Lexer.digitsValue (whole ++ places)) places.length)).SpelledBy
        (whole ++ Byte.point :: places)
  | symbol (x : Symbol) : (Kind.symbol x).SpelledBy (Text.utf8 x.text)
  | string {body text : List UInt8} (h : Escaped body text) :
      (Kind.string (Text.ofUtf8 text)).SpelledBy (Byte.quote :: (body ++ [Byte.quote]))

section

variable {body lexeme : List UInt8} {k : Kind}

theorem Escaped.newline_not_mem (h : Escaped body text) : Byte.newline ∉ body := by
  induction h with
  | nil => simp
  | plain hnewline _ _ _ ih => simpa using ⟨hnewline.symm, ih⟩
  | @escape e v body text he _ ih =>
    have hne : Byte.newline ≠ e := by
      rintro rfl
      cases he
    simpa using ⟨by decide, hne, ih⟩

theorem isWordPart_ne (h : Byte.isWordPart b = true) : b ≠ Byte.newline ∧ b ≠ 13 := by
  constructor
  · rintro rfl
    cases h
  · rintro rfl
    cases h

theorem isDigit_ne (h : Byte.isDigit b = true) : b ≠ Byte.newline ∧ b ≠ 13 :=
  isWordPart_ne (by rw [Byte.isWordPart, h, Bool.or_true])

/-- A lexeme has at least one byte, stays on its line, and does not end with a carriage return. -/
theorem Kind.SpelledBy.onLine (h : k.SpelledBy lexeme) :
    lexeme ≠ [] ∧ Byte.newline ∉ lexeme ∧ lexeme.getLast? ≠ some 13 := by
  have hall : ∀ {run : List UInt8}, run ≠ [] → (∀ c ∈ run, c ≠ Byte.newline ∧ c ≠ 13) →
      run ≠ [] ∧ Byte.newline ∉ run ∧ run.getLast? ≠ some 13 := by
    intro run hne hrun
    exact ⟨hne, fun hmem => (hrun _ hmem).1 rfl,
      fun hlast => (hrun _ (List.mem_of_getLast? hlast)).2 rfl⟩
  cases h with
  | word hb hword =>
    refine hall (List.cons_ne_nil _ _) fun c hc => isWordPart_ne ?_
    rcases List.mem_cons.mp hc with rfl | hc
    · rw [Byte.isWordPart, hb, Bool.true_or]
    · exact hword c hc
  | int hne hdigits _ => exact hall hne fun c hc => isDigit_ne (hdigits c hc)
  | float hne hne' hwhole hplaces =>
    refine hall (by simp) fun c hc => ?_
    rcases List.mem_append.mp hc with hc | hc
    · exact isDigit_ne (hwhole c hc)
    · rcases List.mem_cons.mp hc with rfl | hc
      · decide
      · exact isDigit_ne (hplaces c hc)
  | symbol x => cases x <;> decide
  | string h =>
    refine ⟨List.cons_ne_nil _ _, ?_, ?_⟩
    · simpa using ⟨by decide, h.newline_not_mem, by decide⟩
    · rw [← List.cons_append, List.getLast?_concat]
      decide

end

namespace Lexer

variable {start here : Position} {bytes : List UInt8}

/-! ### Single steps -/

/-- A string literal without faults: its bytes up to the closing quote, and behind it. -/
theorem exists_escaped (h : (quoted start here bytes).faults = []) : ∃ body rest,
    bytes = body ++ Byte.quote :: rest ∧ Escaped body (quoted start here bytes).bytes ∧
    (quoted start here bytes).next = ⟨here.past (body ++ [Byte.quote]), rest⟩ := by
  fun_induction quoted start here bytes with
  | case1 => cases h
  | case2 => cases h
  | case3 here rest hnewline => exact ⟨[], rest, rfl, .nil, rfl⟩
  | case4 => cases h
  | case5 here e rest v he _ _ stop ih =>
    obtain ⟨body, rest', rfl, hbody, hnext⟩ := ih h
    exact ⟨Byte.backslash :: e :: body, rest', rfl, .escape he hbody, hnext⟩
  | case6 => cases h
  | case7 here b rest hnewline hquote hbackslash ih =>
    obtain ⟨body, rest', rfl, hbody, hnext⟩ := ih h
    exact ⟨b :: body, rest', rfl, .plain hnewline hquote hbackslash hbody, hnext⟩

/-- The step takes a lexeme off the front of the bytes. -/
def Step.Takes (s : Step) (start : Position) (bytes : List UInt8) : Prop :=
  ∃ k lexeme rest, s = .plain start k lexeme rest ∧ bytes = lexeme ++ rest ∧ k.SpelledBy lexeme

theorem takes_stringStep (h : (stringStep start rest).faults = []) :
    (stringStep start rest).Takes start (Byte.quote :: rest) := by
  obtain ⟨body, rest', hrest, hbody, hnext⟩ := exists_escaped h
  refine ⟨_, Byte.quote :: (body ++ [Byte.quote]), rest', ?_, ?_, .string hbody⟩
  · rw [stringStep, Step.plain, Input.after, Position.past_cons, ← hnext, ← h]
    rfl
  · rw [hrest]
    simp

theorem eq_decimalPlaces (h : decimalPlaces rest ≠ []) :
    rest = Byte.point :: (decimalPlaces rest ++ rest.drop ((decimalPlaces rest).length + 1)) := by
  cases rest with
  | nil => exact absurd rfl h
  | cons p rest =>
    rw [decimalPlaces] at h ⊢
    by_cases hp : p = Byte.point
    · rw [if_pos hp, List.drop_succ_cons, hp]
      have hdrop := List.prefix_iff_eq_append.mp (List.takeWhile_prefix Byte.isDigit (l := rest))
      rw [hdrop]
    · rw [if_neg hp] at h
      exact absurd rfl h

theorem isDigit_of_mem_decimalPlaces (h : b ∈ decimalPlaces rest) : Byte.isDigit b = true := by
  cases rest with
  | nil => cases h
  | cons p rest =>
    rw [decimalPlaces] at h
    split at h
    · exact List.mem_takeWhile_imp h
    · cases h

theorem takes_numberStep (hb : Byte.isDigit b = true)
    (h : (numberStep start (b :: rest)).faults = []) :
    (numberStep start (b :: rest)).Takes start (b :: rest) := by
  have hne : (b :: rest).takeWhile Byte.isDigit ≠ [] := by
    rw [List.takeWhile_cons_of_pos hb]
    exact List.cons_ne_nil _ _
  have hdigits : ∀ c ∈ (b :: rest).takeWhile Byte.isDigit, Byte.isDigit c = true :=
    fun c hc => List.mem_takeWhile_imp hc
  have hsplit := (List.takeWhile_append_dropWhile (p := Byte.isDigit) (l := b :: rest)).symm
  rw [numberStep] at h ⊢
  generalize (b :: rest).takeWhile Byte.isDigit = whole at *
  generalize (b :: rest).dropWhile Byte.isDigit = rest' at *
  simp only at h ⊢
  by_cases hplaces : decimalPlaces rest' = []
  · rw [hplaces, List.isEmpty_nil, if_pos rfl] at h ⊢
    by_cases hfits : digitsValue whole < Nat.pow 2 63
    · rw [if_pos hfits]
      exact ⟨_, whole, rest', rfl, hsplit, .int hne hdigits hfits⟩
    · rw [if_neg hfits] at h
      cases h
  · rw [if_neg (by simpa using hplaces)]
    refine ⟨_, _, _, rfl, ?_, .float hne hplaces hdigits fun c => isDigit_of_mem_decimalPlaces⟩
    rw [List.append_assoc, List.cons_append, ← eq_decimalPlaces hplaces]
    exact hsplit

theorem takes_wordStep (hb : Byte.isLetter b = true) :
    (wordStep start (b :: rest)).Takes start (b :: rest) := by
  have hb' : Byte.isWordPart b = true := by rw [Byte.isWordPart, hb, Bool.true_or]
  refine ⟨_, _, _, rfl, List.takeWhile_append_dropWhile.symm, ?_⟩
  rw [List.takeWhile_cons_of_pos hb']
  exact .word hb fun c hc => List.mem_takeWhile_imp hc

theorem byte_glyph (b : UInt8) : Text.byte (Byte.glyph b) = b :=
  UInt8.ofNat_toNat

theorem utf8_symbol (x : Symbol) : Text.utf8 x.text = x.text.toList.map Text.byte := by
  have hascii : x.text.toList.all (fun c => c.toNat < 128) = true := by cases x <;> decide
  exact Text.encode_ascii fun c hc => of_decide_eq_true (List.all_eq_true.mp hascii c hc)

theorem takes_symbolStep (h : (symbolStep start b rest).faults = []) :
    (symbolStep start b rest).Takes start (b :: rest) := by
  unfold symbolStep at h ⊢
  split
  · next x hx =>
    obtain ⟨c, hc, hdouble⟩ := Option.bind_eq_some_iff.mp hx
    obtain ⟨rest', rfl⟩ := List.head?_eq_some_iff.mp hc
    have htext : x.text.toList = [Byte.glyph b, Byte.glyph c] := by
      unfold Symbol.double? at hdouble
      split at hdouble <;> cases hdouble <;> simp_all <;> rfl
    have hbytes := utf8_symbol x
    rw [htext, List.map_cons, List.map_cons, List.map_nil, byte_glyph, byte_glyph] at hbytes
    exact ⟨_, _, _, rfl, rfl, hbytes ▸ .symbol x⟩
  · next hpair =>
    rw [hpair] at h
    split
    · next x hx =>
      have htext : x.text.toList = [Byte.glyph b] := by
        unfold Symbol.single? at hx
        split at hx <;> cases hx <;> simp_all <;> rfl
      have hbytes := utf8_symbol x
      rw [htext, List.map_cons, List.map_nil, byte_glyph] at hbytes
      exact ⟨_, _, _, rfl, rfl, hbytes ▸ .symbol x⟩
    · next hsingle =>
      rw [hsingle] at h
      cases h

/-- A step without faults takes a lexeme. -/
theorem takes_step (h : (step start b rest).faults = []) :
    (step start b rest).Takes start (b :: rest) := by
  unfold step at h ⊢
  split
  · next hb =>
    rw [if_pos hb] at h
    subst hb
    exact takes_stringStep h
  · next hb =>
    rw [if_neg hb] at h
    split
    · next hd =>
      rw [if_pos hd] at h
      exact takes_numberStep hd h
    · next hd =>
      rw [if_neg hd] at h
      split
      · next hl => exact takes_wordStep hl
      · next hl =>
        rw [if_neg hl] at h
        exact takes_symbolStep h

/-! ### Runs -/

/-- The tokens of an input, read one after the other without a fault. -/
inductive Reads : Input → List Token → Prop
  | done {i : Input} {here : Position} (htrim : i.trim = ⟨here, []⟩) : Reads i [⟨.eof, .point here⟩]
  | token {i next : Input} {here : Position} {b : UInt8} {rest : List UInt8} {k : Kind}
      {ts : List Token} (htrim : i.trim = ⟨here, b :: rest⟩)
      (hstep : step here b rest = ⟨some k, [], next⟩) (h : Reads next ts) :
      Reads i (⟨k, .between here next.here⟩ :: ts)

theorem Reads.tokens_eq {i : Input} {ts : List Token} (h : Reads i ts) :
    tokens i .empty = (ts, .empty) := by
  induction h with
  | done htrim => exact tokens_of_end htrim
  | token htrim hstep _ ih => rw [tokens_of_step htrim hstep, ih]

theorem total_tokens (i : Input) (faults : Capped Fault) :
    faults.total ≤ (tokens i faults).2.total := by
  fun_induction tokens i faults with
  | case1 => exact Nat.le_refl _
  | case2 => exact Nat.le_refl _
  | case3 i faults hfull b rest hrest s faults' hkind ih =>
    exact Nat.le_trans (by rw [Capped.total_pushAll]; exact Nat.le_add_right _ _) ih
  | case4 i faults hfull b rest hrest s faults' kind hkind ts faults'' hts ih =>
    rw [hts] at ih
    exact Nat.le_trans (by rw [Capped.total_pushAll]; exact Nat.le_add_right _ _) ih

theorem tokens_eof {i : Input} {faults : Capped Fault} (hfull : faults.full = false)
    (htrim : i.trim = ⟨here, []⟩) : tokens i faults = ([⟨.eof, .point here⟩], faults) := by
  rw [tokens, hfull, if_neg Bool.false_ne_true]
  split
  · rw [htrim]
  · next h =>
    rw [htrim] at h
    cases h

/-- The tokens behind a character that begins none. -/
theorem tokens_stray {i : Input} {faults : Capped Fault} {s : Step} (hfull : faults.full = false)
    (htrim : i.trim = ⟨here, b :: rest⟩) (hs : step here b rest = s) (hkind : s.kind = none) :
    tokens i faults = tokens s.next.trim (faults.pushAll s.faults) := by
  subst hs
  rw [tokens, hfull, if_neg Bool.false_ne_true]
  split
  · next h =>
    rw [htrim] at h
    cases h
  · next h =>
    rw [htrim] at h
    cases h
    simp only [htrim, hkind]

/-- A token and those behind it. -/
theorem tokens_token {i : Input} {faults : Capped Fault} {s : Step} {k : Kind}
    (hfull : faults.full = false) (htrim : i.trim = ⟨here, b :: rest⟩) (hs : step here b rest = s)
    (hkind : s.kind = some k) : tokens i faults =
      (⟨k, .between here s.next.here⟩ :: (tokens s.next (faults.pushAll s.faults)).1,
        (tokens s.next (faults.pushAll s.faults)).2) := by
  subst hs
  rw [tokens, hfull, if_neg Bool.false_ne_true]
  split
  · next h =>
    rw [htrim] at h
    cases h
  · next h =>
    rw [htrim] at h
    cases h
    simp only [htrim, hkind]

/-- The faults of the first step are among those that are found. -/
theorem length_faults_le {i : Input} (htrim : i.trim = ⟨here, b :: rest⟩) :
    (step here b rest).faults.length ≤ (tokens i .empty).2.total := by
  have hpush : (step here b rest).faults.length =
      ((Capped.empty : Capped Fault).pushAll (step here b rest).faults).total := by
    rw [Capped.total_pushAll]
    exact (Nat.zero_add _).symm
  rw [hpush]
  cases hkind : (step here b rest).kind with
  | none =>
    rw [tokens_stray rfl htrim rfl hkind]
    exact total_tokens _ _
  | some k =>
    rw [tokens_token rfl htrim rfl hkind]
    exact total_tokens _ _

/-- Where no fault was found, the tokens were read without one. -/
theorem reads_tokens (i : Input) (h : (tokens i .empty).2.nonempty = false) :
    Reads i (tokens i .empty).1 := by
  induction hn : i.rest.length using Nat.strong_induction_on generalizing i with
  | _ n ih =>
    subst hn
    have htotal : (tokens i .empty).2.total = 0 := by
      simpa [Capped.nonempty] using h
    have hlen := i.length_trim
    rcases htrim : i.trim with ⟨here, _ | ⟨b, rest⟩⟩
    · rw [tokens_of_end htrim]
      exact .done htrim
    · have hfaults : (step here b rest).faults = [] := by
        have hle := length_faults_le htrim
        rw [htotal] at hle
        exact List.length_eq_zero_iff.mp (Nat.le_zero.mp hle)
      obtain ⟨k, lexeme, rest', hstep, -, -⟩ := takes_step hfaults
      have hlt := length_step here b rest
      rw [hstep] at hlt
      rw [htrim] at hlen
      rw [tokens_of_step htrim hstep] at h ⊢
      exact .token htrim hstep (ih _ (Nat.lt_of_le_of_lt hlt hlen) _ h rfl)

end Lexer

/-! ### Tokens among the lines -/

/-- A token with its lexeme, and what stands before it. -/
structure Piece where
  gap : List UInt8
  lexeme : List UInt8
  token : Token

/-- The bytes of a piece. -/
def Piece.bytes (p : Piece) : List UInt8 := p.gap ++ p.lexeme

/-- The pieces follow each other from a position on, and the span of each token runs from the first
byte of its lexeme to the last one. -/
def Placed (here : Position) : List Piece → Prop
  | [] => True
  | p :: ps =>
    p.token.span = .between (here.past p.gap) (here.past p.bytes) ∧ Placed (here.past p.bytes) ps

/-- Blanks and comments stand before the token, and its lexeme has its kind. -/
structure Piece.Sound (p : Piece) : Prop where
  blanks : Blanks p.gap
  spelled : p.token.kind.SpelledBy p.lexeme

theorem Lexer.Reads.exists_pieces {i : Input} {ts : List Token} (h : Reads i ts) :
    ∃ pieces tail, i.rest = pieces.flatMap Piece.bytes ++ tail ∧
      ts = pieces.map Piece.token ++ [⟨.eof, .point (i.here.past i.rest)⟩] ∧ BlanksToEnd tail ∧
      (∀ p ∈ pieces, p.Sound) ∧ Placed i.here pieces := by
  induction h with
  | @done i here htrim =>
    obtain ⟨gap, rest, hbytes, htrim', hend, -⟩ := exists_gap i.here i.rest
    obtain ⟨rfl, rfl⟩ : here = i.here.past gap ∧ rest = [] := by
      simpa using htrim.symm.trans htrim'
    rw [List.append_nil] at hbytes
    subst hbytes
    exact ⟨[], i.rest, rfl, rfl, hend, by simp, trivial⟩
  | @token i next here b rest k ts htrim hstep _ ih =>
    obtain ⟨gap, rest', hbytes, htrim', -, hgap⟩ := exists_gap i.here i.rest
    obtain ⟨rfl, rfl⟩ : here = i.here.past gap ∧ b :: rest = rest' := by
      simpa using htrim.symm.trans htrim'
    obtain ⟨k', lexeme, rest', hplain, hrest, hspelled⟩ := takes_step (by rw [hstep])
    rw [hstep] at hplain
    cases hplain
    obtain ⟨pieces, tail, htail, rfl, hend, hsound, hplaced⟩ := ih
    refine ⟨⟨gap, lexeme, ⟨k, .between (i.here.past gap) ((i.here.past gap).past lexeme)⟩⟩ ::
      pieces, tail, ?_, ?_, hend, List.forall_mem_cons.mpr ⟨⟨hgap (by simp), hspelled⟩, hsound⟩, ?_⟩
    · have hrest' : rest' = pieces.flatMap Piece.bytes ++ tail := htail
      rw [hbytes, hrest, hrest', List.flatMap_cons, Piece.bytes]
      simp
    · have hstop : i.here.past i.rest = ((i.here.past gap).past lexeme).past rest' := by
        rw [hbytes, hrest, Position.past_append, Position.past_append]
      rw [hstop]
      rfl
    · refine ⟨?_, ?_⟩
      · rw [Piece.bytes, Position.past_append]
      · rw [Piece.bytes, Position.past_append]
        exact hplaced

theorem Position.column_past {p : Position} (h : 0 < p.column) (bytes : List UInt8) :
    0 < (p.past bytes).column := by
  induction bytes generalizing p with
  | nil => exact h
  | cons b bytes ih =>
    refine ih ?_
    rw [Position.next]
    split <;> exact Nat.succ_pos _

namespace Placed

variable {here : Position} {ps : List Piece} {p : Piece}

/-- The place of a lexeme among the bytes. -/
theorem exists_around (h : Placed here ps) (hp : p ∈ ps) : ∃ pre post,
    ps.flatMap Piece.bytes = pre ++ p.lexeme ++ post ∧
    p.token.span = .between (here.past pre) (here.past (pre ++ p.lexeme)) := by
  induction ps generalizing here with
  | nil => cases hp
  | cons q ps ih =>
    obtain ⟨hspan, hps⟩ := h
    rcases List.mem_cons.mp hp with rfl | hp
    · exact ⟨p.gap, ps.flatMap Piece.bytes, rfl, hspan⟩
    · obtain ⟨pre, post, hbytes, hspan⟩ := ih hps hp
      refine ⟨q.bytes ++ pre, post, ?_, ?_⟩
      · rw [List.flatMap_cons, hbytes]
        simp
      · simp only [hspan, Position.past_append]

theorem le_first (h : Placed here ps) (hp : p ∈ ps) : here ≤ p.token.span.first := by
  obtain ⟨pre, -, -, hspan⟩ := h.exists_around hp
  rw [hspan]
  exact here.le_past pre

/-- The spans follow each other, and no two share a position. -/
theorem pairwise_lt (h : Placed here ps) (hcolumn : 0 < here.column) (hsound : ∀ p ∈ ps, p.Sound) :
    ps.Pairwise fun p q => p.token.span.last < q.token.span.first := by
  induction ps generalizing here with
  | nil => exact .nil
  | cons p ps ih =>
    obtain ⟨hspan, hps⟩ := h
    obtain ⟨hp, hsound⟩ := List.forall_mem_cons.mp hsound
    obtain ⟨hne, hline, -⟩ := hp.spelled.onLine
    refine .cons (fun q hq => ?_) (ih hps (Position.column_past hcolumn _) hsound)
    refine Position.lt_of_lt_of_le ?_ (hps.le_first hq)
    rw [hspan, Piece.bytes, Position.past_append]
    exact Span.last_between_lt (Position.column_past hcolumn _) hne hline

end Placed

/-- The source is cut into these pieces and what stands behind them. -/
structure Source.Tiled (s : Source) (pieces : List Piece) (tail : List UInt8) : Prop where
  bytes_eq : s.bytes = pieces.flatMap Piece.bytes ++ tail
  tokens_eq : s.lex.tokens = pieces.map Piece.token ++ [⟨.eof, .point s.stop⟩]
  sound : ∀ p ∈ pieces, p.Sound
  /-- Behind the last token, too, stand blanks and comments only. -/
  blanks_tail : BlanksToEnd tail
  placed : Placed .origin pieces
  /-- The lexeme is what the span of the token covers of its line. -/
  shows : ∀ p ∈ pieces, s.Shows p.token.span p.lexeme
  /-- No two tokens share a position, and they are in order. -/
  disjoint : pieces.Pairwise fun p q => p.token.span.last < q.token.span.first

/-- A source without faults in its spelling is cut into tokens, and every byte is a part of just one
token or stands between two. -/
theorem Source.lex_tiles (s : Source) (h : s.lex.faults.nonempty = false) :
    ∃ pieces tail, s.Tiled pieces tail := by
  obtain ⟨pieces, tail, hbytes, htokens, htail, hsound, hplaced⟩ :=
    (Lexer.reads_tokens ⟨.origin, s.bytes⟩ h).exists_pieces
  rw [past_bytes] at htokens
  refine ⟨pieces, tail, hbytes, htokens, hsound, htail, hplaced, fun p hp => ?_,
    hplaced.pairwise_lt Nat.one_pos hsound⟩
  obtain ⟨pre, post, hpieces, hspan⟩ := hplaced.exists_around hp
  obtain ⟨hne, hline, hlast⟩ := (hsound p hp).spelled.onLine
  have hall : s.bytes = pre ++ p.lexeme ++ (post ++ tail) := by
    rw [← List.append_assoc, ← hpieces]
    exact hbytes
  rw [hspan]
  exact shows_of_bytes hall hne hline hlast

/-- Two lines, the first with a character of two bytes and a carriage return at its end. -/
def Source.twoLines : Source := ⟨"main", "let x = \"é\" // ü\r\nx>=1//"⟩

theorem Source.twoLines_tiled : Source.twoLines.lex.faults.nonempty = false ∧
    Source.twoLines.lex.tokens.length = 8 ∧ ∃ pieces tail, Source.twoLines.Tiled pieces tail := by
  have hclean : Source.twoLines.lex.faults.nonempty = false := by decide +kernel
  exact ⟨hclean, by decide +kernel, Source.twoLines.lex_tiles hclean⟩

end RecordLang
