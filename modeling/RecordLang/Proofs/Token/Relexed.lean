import RecordLang.Proofs.Token.Spelling

/-!
# Reading a text that was written

Wherever a token is written, with a blank or the end of the text behind it, reading takes that token
off the front and nothing more (`Lexeme.spells`). Blanks and comments are skipped. So what was written
with `render` is read back.
-/

namespace RecordLang

open Text (byte encode)

namespace Lexer

variable {here : Position} {b : UInt8} {run rest tail bytes : List UInt8} {k : Kind}

/-! ### What follows a token -/

/-- A blank or the end of the text follows. -/
def Separated (rest : List UInt8) : Prop := ∀ b ∈ rest.head?, Byte.isBlank b = true

/-- A run of a class ends where something of another class follows. -/
theorem span_of_stops {α : Type} {p : α → Bool} {run rest : List α} (hrun : ∀ b ∈ run, p b = true)
    (hstop : ∀ b ∈ rest.head?, p b = false) :
    (run ++ rest).takeWhile p = run ∧ (run ++ rest).dropWhile p = rest := by
  rw [List.takeWhile_append_of_pos hrun, List.dropWhile_append_of_pos hrun]
  cases rest with
  | nil => exact ⟨List.append_nil run, rfl⟩
  | cons b rest =>
    have hb : p b = false := hstop b rfl
    simp [List.takeWhile, List.dropWhile, hb]

theorem blank_not_wordPart (h : Byte.isBlank b = true) : Byte.isWordPart b = false := by
  rcases Byte.isBlank_iff.mp h with rfl | rfl | rfl | rfl <;> decide

theorem blank_not_digit (h : Byte.isBlank b = true) : Byte.isDigit b = false :=
  (Bool.or_eq_false_iff.mp (blank_not_wordPart h)).2

/-- Digits and letters come behind all blanks, the slash and the quote. -/
theorem trim_of_le (h : 48 ≤ b.toNat) :
    Input.trim ⟨here, b :: rest⟩ = ⟨here, b :: rest⟩ ∧ b ≠ Byte.quote := by
  have hblank : Byte.isBlank b = false := by
    rw [← Bool.not_eq_true, Byte.isBlank_iff]
    rintro (rfl | rfl | rfl | rfl) <;> exact absurd h (by decide)
  have hslash : b ≠ Byte.slash := by
    rintro rfl
    exact absurd h (by decide)
  refine ⟨by simp [Input.trim, skipBlanks, hblank, hslash], ?_⟩
  rintro rfl
  exact absurd h (by decide)

/-- These bytes make a token of this kind wherever they stand with a blank or the end of the text
behind them. -/
def Spells (bytes : List UInt8) (k : Kind) : Prop :=
  ∃ b tail, bytes = b :: tail ∧ ∀ here rest, Separated rest →
    Input.trim ⟨here, b :: (tail ++ rest)⟩ = ⟨here, b :: (tail ++ rest)⟩ ∧
    ∃ stop, step here b (tail ++ rest) = ⟨some k, [], ⟨stop, rest⟩⟩

/-! ### Words -/

/-- A word is taken off the front up to where it ends, whatever stands there. -/
theorem step_word {c : Char} {cs : List Char} (hc : isNameStart c = true)
    (hcs : ∀ d ∈ cs, isNamePart d = true) : ∃ b tail, encode (c :: cs) = b :: tail ∧
      ∀ here rest, (∀ b ∈ rest.head?, Byte.isWordPart b = false) →
        Input.trim ⟨here, b :: (tail ++ rest)⟩ = ⟨here, b :: (tail ++ rest)⟩ ∧
        ∃ stop, step here b (tail ++ rest) =
          ⟨some (.ofWord (String.ofList (c :: cs))), [], ⟨stop, rest⟩⟩ := by
  obtain ⟨hlt, hletter⟩ := Byte.of_isNameStart hc
  have hparts : ∀ d ∈ c :: cs, isNamePart d = true :=
    List.forall_mem_cons.mpr ⟨by rw [isNamePart, hc, Bool.true_or], hcs⟩
  have hascii : ∀ d ∈ c :: cs, d.toNat < 128 := fun d hd => (Byte.of_isNamePart (hparts d hd)).1
  have hrun : ∀ b ∈ (c :: cs).map byte, Byte.isWordPart b = true := by
    intro b hb
    obtain ⟨d, hd, rfl⟩ := List.mem_map.mp hb
    exact (Byte.of_isNamePart (hparts d hd)).2
  have hrange := Byte.isLetter_iff.mp hletter
  have hdigit : Byte.isDigit (byte c) = false := by
    rw [← Bool.not_eq_true, Byte.isDigit_iff]
    omega
  refine ⟨byte c, cs.map byte, Text.encode_ascii hascii, fun here rest hrest => ?_⟩
  obtain ⟨htrim, hquote⟩ := @trim_of_le here (byte c) (cs.map byte ++ rest) (by omega)
  obtain ⟨htake, hdrop⟩ := span_of_stops hrun hrest
  rw [List.map_cons, List.cons_append] at htake hdrop
  have htext : Text.ofAscii (byte c :: cs.map byte) = String.ofList (c :: cs) :=
    congrArg String.ofList (Text.map_glyph_ascii hascii)
  refine ⟨htrim, here.past (byte c :: cs.map byte), ?_⟩
  rw [step, if_neg hquote, hdigit, if_neg Bool.false_ne_true, if_pos hletter, wordStep]
  simp only [htake, hdrop, htext]
  rfl

theorem spells_word {c : Char} {cs : List Char} (hc : isNameStart c = true)
    (hcs : ∀ d ∈ cs, isNamePart d = true) :
    Spells (encode (c :: cs)) (.ofWord (String.ofList (c :: cs))) := by
  obtain ⟨b, tail, hbytes, hstep⟩ := step_word hc hcs
  exact ⟨b, tail, hbytes, fun here rest hrest => hstep here rest fun b hb =>
    blank_not_wordPart (hrest b hb)⟩

/-! ### Numbers -/

theorem decimalPlaces_of_separated (h : Separated rest) : decimalPlaces rest = [] := by
  cases rest with
  | nil => rfl
  | cons b rest =>
    rw [decimalPlaces, if_neg]
    rintro rfl
    exact absurd (h _ rfl) (by decide)

section Digits

variable {ds es : List Char}

theorem ascii_of_digits (hd : ∀ c ∈ ds, c.isDigit = true) : ∀ c ∈ ds, c.toNat < 128 :=
  fun c hc => (Byte.of_isDigit (hd c hc)).1

theorem isDigit_of_mem (hd : ∀ c ∈ ds, c.isDigit = true) :
    ∀ b ∈ ds.map byte, Byte.isDigit b = true := by
  intro b hb
  obtain ⟨c, hc, rfl⟩ := List.mem_map.mp hb
  exact (Byte.of_isDigit (hd c hc)).2

theorem digitsValue_map (hd : ∀ c ∈ ds, c.isDigit = true) :
    digitsValue (ds.map byte) = Decimal.value ds := by
  rw [digitsValue, Text.map_glyph_ascii (ascii_of_digits hd)]

/-- A number is read where a digit stands. -/
theorem spells_number (hne : ds ≠ []) (hd : ∀ c ∈ ds, c.isDigit = true) (more : List UInt8)
    (h : ∀ here rest, Separated rest → ∃ stop,
      numberStep here (ds.map byte ++ (more ++ rest)) = ⟨some k, [], ⟨stop, rest⟩⟩) :
    Spells (ds.map byte ++ more) k := by
  obtain ⟨c, cs, rfl⟩ := List.exists_cons_of_ne_nil hne
  have hdigit := (Byte.of_isDigit (hd c List.mem_cons_self)).2
  refine ⟨byte c, cs.map byte ++ more, rfl, fun here rest hrest => ?_⟩
  obtain ⟨htrim, hquote⟩ := @trim_of_le here (byte c) (cs.map byte ++ more ++ rest)
    (Byte.isDigit_iff.mp hdigit).1
  obtain ⟨stop, hstep⟩ := h here rest hrest
  refine ⟨htrim, stop, ?_⟩
  rw [step, if_neg hquote, if_pos hdigit, ← hstep, List.append_assoc]
  rfl

theorem spells_int (hne : ds ≠ []) (hd : ∀ c ∈ ds, c.isDigit = true)
    (hfits : Decimal.value ds < Nat.pow 2 63) : Spells (encode ds) (.int (Decimal.value ds)) := by
  rw [Text.encode_ascii (ascii_of_digits hd), ← List.append_nil (ds.map byte)]
  refine spells_number hne hd [] fun here rest hrest => ?_
  obtain ⟨htake, hdrop⟩ := span_of_stops (isDigit_of_mem hd) fun b hb =>
    blank_not_digit (hrest b hb)
  refine ⟨here.past (ds.map byte), ?_⟩
  rw [numberStep, List.nil_append, htake, hdrop, decimalPlaces_of_separated hrest,
    digitsValue_map hd]
  exact if_pos hfits

theorem spells_float (hne : ds ≠ []) (hd : ∀ c ∈ ds, c.isDigit = true) (hne' : es ≠ [])
    (he : ∀ c ∈ es, c.isDigit = true) : Spells (encode (ds ++ '.' :: es))
      (.float (.ofDigits (Decimal.value (ds ++ es)) es.length)) := by
  have hbytes : encode (ds ++ '.' :: es) = ds.map byte ++ Byte.point :: es.map byte := by
    rw [Text.encode_append, Text.encode_cons, Text.encode_ascii (ascii_of_digits hd),
      Text.encode_ascii (ascii_of_digits he)]
    rfl
  rw [hbytes]
  refine spells_number hne hd _ fun here rest hrest => ?_
  obtain ⟨htake, hdrop⟩ := @span_of_stops _ _ (ds.map byte) (Byte.point :: es.map byte ++ rest)
    (isDigit_of_mem hd) (by rintro b ⟨⟩; decide)
  have hplaces : decimalPlaces (Byte.point :: es.map byte ++ rest) = es.map byte := by
    rw [List.cons_append, decimalPlaces, if_pos rfl]
    exact (span_of_stops (isDigit_of_mem he) fun b hb => blank_not_digit (hrest b hb)).1
  have hempty : (es.map byte).isEmpty = false := by
    rw [List.isEmpty_eq_false_iff]
    exact mt List.map_eq_nil_iff.mp hne'
  have hvalue : digitsValue (ds.map byte ++ es.map byte) = Decimal.value (ds ++ es) := by
    rw [← List.map_append, digitsValue_map (List.forall_mem_append.mpr ⟨hd, he⟩)]
  have hrest' : (Byte.point :: es.map byte ++ rest).drop ((es.map byte).length + 1) = rest := by
    rw [List.cons_append, List.drop_succ_cons, List.drop_left]
  refine ⟨here.past (ds.map byte ++ Byte.point :: es.map byte), ?_⟩
  rw [numberStep, htake, hdrop, hplaces, hempty, hvalue, hrest', List.length_map]
  rfl

end Digits

/-! ### Strings -/

/-- Bytes in front of a string literal. -/
def Quoted.prepend (bytes : List UInt8) (q : Quoted) : Quoted :=
  { q with bytes := bytes ++ q.bytes }

/-- Bytes that mean nothing special in a string literal are kept. -/
theorem quoted_plain {start : Position} (h : ∀ b ∈ run, b ≠ Byte.newline ∧ b ≠ Byte.quote ∧
    b ≠ Byte.backslash) :
    quoted start here (run ++ rest) = (quoted start (here.past run) rest).prepend run := by
  induction run generalizing here with
  | nil => rfl
  | cons b run ih =>
    obtain ⟨⟨hnewline, hquote, hbackslash⟩, hrun⟩ := List.forall_mem_cons.mp h
    rw [List.cons_append, quoted.eq_def]
    simp only [if_neg hnewline, if_neg hquote, if_neg hbackslash, ih hrun]
    rfl

/-- None of the bytes of an ordinary character means anything special in a string literal. -/
theorem utf8EncodeChar_plain {c : Char} (hnewline : c ≠ '\n') (hquote : c ≠ '"')
    (hbackslash : c ≠ '\\') : ∀ b ∈ String.utf8EncodeChar c,
      b ≠ Byte.newline ∧ b ≠ Byte.quote ∧ b ≠ Byte.backslash := by
  intro b hb
  have hspecial : ∀ {d : Char}, d.toNat < 128 → c ≠ d → b ≠ byte d := by
    rintro d hd hne rfl
    obtain ⟨heq, hlt⟩ := Text.mem_utf8EncodeChar hb (by rw [Text.toNat_byte hd]; exact hd)
    have hglyph := congrArg Byte.glyph heq
    rw [Text.glyph_byte hd, Text.glyph_byte hlt] at hglyph
    exact hne hglyph.symm
  exact ⟨@hspecial '\n' (by decide) hnewline, @hspecial '"' (by decide) hquote,
    @hspecial '\\' (by decide) hbackslash⟩

/-- A character is read back from the way it is written. -/
theorem quoted_escape {start : Position} (c : Char) : ∃ stop,
    quoted start here (encode (escape c) ++ rest) =
      (quoted start stop rest).prepend (String.utf8EncodeChar c) := by
  unfold escape
  split
  · exact ⟨_, rfl⟩
  · exact ⟨_, rfl⟩
  · exact ⟨_, rfl⟩
  · exact ⟨_, rfl⟩
  · exact ⟨_, rfl⟩
  · next hquote hbackslash hnewline htab hreturn =>
    rw [Text.encode_cons, encode, List.flatMap_nil, List.append_nil]
    exact ⟨_, quoted_plain (utf8EncodeChar_plain hnewline hquote hbackslash)⟩

theorem quoted_text {start : Position} (cs : List Char) : ∃ stop,
    quoted start here (encode (cs.flatMap escape) ++ Byte.quote :: rest) =
      ⟨encode cs, [], ⟨stop, rest⟩⟩ := by
  induction cs generalizing here with
  | nil =>
    refine ⟨here.next Byte.quote, ?_⟩
    rw [List.flatMap_nil, encode, List.flatMap_nil, List.nil_append, quoted.eq_def]
    rfl
  | cons c cs ih =>
    obtain ⟨mid, hchar⟩ := @quoted_escape here (encode (cs.flatMap escape) ++ Byte.quote :: rest)
      start c
    obtain ⟨stop, hcs⟩ := @ih mid
    refine ⟨stop, ?_⟩
    rw [List.flatMap_cons, Text.encode_append, List.append_assoc, hchar, hcs, Text.encode_cons]
    rfl

theorem spells_string (s : String) :
    Spells (encode ('"' :: (s.toList.flatMap escape ++ ['"']))) (.string s) := by
  have hbytes : encode ('"' :: (s.toList.flatMap escape ++ ['"'])) =
      Byte.quote :: (encode (s.toList.flatMap escape) ++ [Byte.quote]) := by
    rw [Text.encode_cons, Text.encode_append]
    rfl
  refine ⟨_, _, hbytes, fun here rest hrest => ⟨rfl, ?_⟩⟩
  obtain ⟨stop, hquoted⟩ := @quoted_text (here.next Byte.quote) rest here s.toList
  refine ⟨stop, ?_⟩
  rw [step, if_pos rfl, stringStep, List.append_assoc, List.singleton_append, hquoted,
    Text.ofUtf8_encode]

/-! ### Symbols -/

theorem spells_symbol (x : Symbol) : Spells (encode x.text.toList) (.symbol x) := by
  -- what follows is nothing or one of four blanks, none of which makes a symbol with the last byte
  have hcases : ∀ {rest : List UInt8}, Separated rest → rest = [] ∨ ∃ more, rest = 32 :: more ∨
      rest = 9 :: more ∨ rest = 13 :: more ∨ rest = 10 :: more := by
    rintro (_ | ⟨b, more⟩) hrest
    · exact .inl rfl
    · right
      refine ⟨more, ?_⟩
      rcases Byte.isBlank_iff.mp (hrest b rfl) with rfl | rfl | rfl | rfl <;> simp
  cases x
  all_goals
    refine ⟨_, _, rfl, fun here rest hrest => ?_⟩
    rcases hcases hrest with rfl | ⟨more, rfl | rfl | rfl | rfl⟩ <;> exact ⟨rfl, _, rfl⟩

/-! ### Between tokens -/

theorem isBlank_char (b : Blank) : Byte.isBlank (byte b.char) = true := by cases b <;> rfl

theorem encode_blank (b : Blank) (cs : List Char) :
    encode (b.char :: cs) = byte b.char :: encode cs := by
  cases b <;> rfl

/-- The rest of a comment is skipped up to the end of its line. -/
theorem skipBlanks_line (h : ∀ b ∈ run, b ≠ Byte.newline) : ∃ stop,
    skipBlanks true here (run ++ Byte.newline :: rest) = skipBlanks false stop rest := by
  induction run generalizing here with
  | nil => exact ⟨_, rfl⟩
  | cons b run ih =>
    obtain ⟨hb, hrun⟩ := List.forall_mem_cons.mp h
    obtain ⟨stop, hstop⟩ := @ih (here.next b) hrun
    refine ⟨stop, ?_⟩
    rw [← hstop, List.cons_append, skipBlanks, if_pos]
    simpa using hb

theorem trim_filler (f : Filler) : ∃ stop,
    Input.trim ⟨here, encode f.text ++ rest⟩ = Input.trim ⟨stop, rest⟩ := by
  cases f with
  | blank b =>
    refine ⟨here.next (byte b.char), ?_⟩
    rw [Filler.text, encode_blank]
    simp [Input.trim, skipBlanks, isBlank_char, encode]
  | comment text inLine =>
    have hline : ∀ b ∈ encode text, b ≠ Byte.newline := by
      rintro b hb rfl
      obtain ⟨c, hc, hmem⟩ := List.mem_flatMap.mp hb
      obtain ⟨heq, hlt⟩ := Text.mem_utf8EncodeChar hmem (by decide)
      have hglyph := congrArg Byte.glyph heq
      rw [Text.glyph_byte hlt] at hglyph
      exact inLine (by rw [← hglyph] at hc; exact hc)
    have hbytes : encode (Filler.comment text inLine).text ++ rest =
        Byte.slash :: Byte.slash :: (encode text ++ Byte.newline :: rest) := by
      rw [Filler.text, Text.encode_cons, Text.encode_cons, Text.encode_append]
      simp only [List.append_assoc]
      rfl
    obtain ⟨stop, hstop⟩ := @skipBlanks_line (here.past [Byte.slash, Byte.slash]) (encode text) rest
      hline
    rw [hbytes]
    exact ⟨stop, hstop⟩

theorem trim_gap (g : Gap) : ∃ stop,
    Input.trim ⟨here, encode g.text ++ rest⟩ = Input.trim ⟨stop, rest⟩ := by
  have hmore : ∀ (fs : List Filler) here, ∃ stop,
      Input.trim ⟨here, encode (fs.flatMap Filler.text) ++ rest⟩ = Input.trim ⟨stop, rest⟩ := by
    intro fs
    induction fs with
    | nil => exact fun here => ⟨here, rfl⟩
    | cons f fs ih =>
      intro here
      rw [List.flatMap_cons, Text.encode_append, List.append_assoc]
      obtain ⟨mid, hfirst⟩ := @trim_filler here (encode (fs.flatMap Filler.text) ++ rest) f
      obtain ⟨stop, hrest⟩ := ih mid
      exact ⟨stop, hfirst.trans hrest⟩
  exact hmore (.blank g.first :: g.more) here

theorem separated_gap (g : Gap) : Separated (encode g.text ++ rest) := by
  intro b hb
  rw [Gap.text, encode_blank] at hb
  cases hb
  exact isBlank_char g.first

end Lexer

/-! ### Whole texts -/

theorem Keyword.isName (w : Keyword) : ∃ c cs, w.text.toList = c :: cs ∧ isNameStart c = true ∧
    ∀ d ∈ cs, isNamePart d = true := by
  cases w <;> exact ⟨_, _, rfl, rfl, List.all_eq_true.mp rfl⟩

/-- However a token is written, it is read back. -/
theorem Lexeme.spells (l : Lexeme) : Lexer.Spells (encode l.text) l.kind := by
  cases l with
  | keyword w =>
    obtain ⟨c, cs, htext, hc, hcs⟩ := w.isName
    have hword := Lexer.spells_word hc hcs
    rw [← htext, String.ofList_toList, Kind.ofWord, Keyword.ofText?_text] at hword
    exact hword
  | symbol x => exact Lexer.spells_symbol x
  | name n =>
    have hword := Lexer.spells_word n.starts n.goesOn
    rw [Kind.ofWord, n.free] at hword
    exact hword
  | int zeros n fits =>
    have hvalue : Decimal.value (List.replicate zeros '0' ++ Nat.toDigits 10 n) = n := by
      rw [Decimal.value, ← Nat.ofDigitChars_eq_foldl, Nat.ofDigitChars_append,
        Nat.ofDigitChars_replicate_zero, Nat.mul_zero, Nat.ofDigitChars_ten_toDigits]
    have hdigits : ∀ c ∈ List.replicate zeros '0' ++ Nat.toDigits 10 n, c.isDigit = true := by
      refine List.forall_mem_append.mpr ⟨fun c hc => ?_, fun c hc => ?_⟩
      · rw [List.eq_of_mem_replicate hc]
        rfl
      · exact Nat.isDigit_of_mem_toDigits (by decide) (by decide) hc
    have hint := Lexer.spells_int (List.append_ne_nil_of_right_ne_nil _ Nat.toDigits_ne_nil) hdigits
      (by rw [hvalue]; exact fits)
    rw [hvalue] at hint
    exact hint
  | float whole places =>
    exact Lexer.spells_float whole.nonempty whole.digits places.nonempty places.digits
  | string s => exact Lexer.spells_string s

theorem render_cons (gap : Nat → Gap) (l : Lexeme) (ls : List Lexeme) : ∃ rest,
    encode (render gap (l :: ls)) = encode l.text ++ rest ∧ Lexer.Separated rest ∧
    ∀ stop, ∃ here, Lexer.Input.trim ⟨stop, rest⟩ =
      Lexer.Input.trim ⟨here, encode (render (fun i => gap (i + 1)) ls)⟩ := by
  cases ls with
  | nil => exact ⟨[], (List.append_nil _).symm, nofun, fun stop => ⟨stop, rfl⟩⟩
  | cons m ls =>
    refine ⟨encode (gap 0).text ++ encode (render (fun i => gap (i + 1)) (m :: ls)), ?_,
      Lexer.separated_gap _, fun stop => Lexer.trim_gap _⟩
    rw [render, Text.encode_append, Text.encode_append]

theorem tokens_render (gap : Nat → Gap) (ls : List Lexeme) {i : Lexer.Input} {here : Position}
    (h : i.trim = Lexer.Input.trim ⟨here, encode (render gap ls)⟩) :
    (Lexer.tokens i .empty).1.map Token.kind = ls.map Lexeme.kind ++ [.eof] ∧
    (Lexer.tokens i .empty).2 = .empty := by
  induction ls generalizing gap i here with
  | nil =>
    have hend : i.trim = ⟨here, []⟩ := h
    rw [Lexer.tokens_of_end hend]
    exact ⟨rfl, rfl⟩
  | cons l ls ih =>
    obtain ⟨rest, hbytes, hsep, hnext⟩ := render_cons gap l ls
    obtain ⟨b, tail, htext, hspell⟩ := l.spells
    obtain ⟨htrim, stop, hstep⟩ := hspell here rest hsep
    obtain ⟨here', hrest⟩ := hnext stop
    obtain ⟨hkinds, hfaults⟩ := ih _ hrest
    rw [hbytes, htext, List.cons_append, htrim] at h
    rw [Lexer.tokens_of_step h hstep]
    exact ⟨congrArg (l.kind :: ·) hkinds, hfaults⟩

/-- Tokens that were written with gaps between them are read back without a fault. -/
theorem lex_render (gap : Nat → Gap) (ls : List Lexeme) :
    (lex (Text.utf8 (String.ofList (render gap ls)))).faults = .empty ∧
    (lex (Text.utf8 (String.ofList (render gap ls)))).tokens.map Token.kind =
      ls.map Lexeme.kind ++ [.eof] := by
  rw [Text.utf8_ofList]
  have htokens := tokens_render gap ls (i := ⟨.origin, encode (render gap ls)⟩) rfl
  exact ⟨htokens.2, htokens.1⟩

-- a slash with a comment on either side
example : String.ofList (render (fun _ => ⟨.space, [.comment ['x'] (by decide)]⟩)
    [.int 2 7 (by decide), .symbol .slash, .string "a\"b"]) =
      "007 //x\n/ //x\n\"a\\\"b\"" := by decide

end RecordLang
