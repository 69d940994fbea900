import RecordLang.Proofs.Token.Begins
import RecordLang.Proofs.Token.Relexed
import RecordLang.Proofs.Token.Rounds
import RecordLang.Proofs.Token.Words

/-!
# Reading takes whole characters

A text is read by bytes, but every round of reading starts and ends between two characters, whatever
faults there are (`Source.lex_reads_characters`). What is read of a string literal is a text again,
although an escape sequence is a backslash and the one byte behind it: the other bytes of a
character that is cut there follow it (`Lexer.whole_quoted`). A character that begins no token is
taken alone and is one fault, which names it (`Lexer.Round.whole_stray`).
-/

namespace RecordLang

open Text (byte encode)

/-! ### Characters of bytes -/

namespace Text

variable {c : Char} {cs : List Char} {b : UInt8} {run rest : List UInt8}

theorem encode_singleton : encode [c] = String.utf8EncodeChar c := List.append_nil _

/-- A byte of ASCII at the front is a character. -/
theorem exists_of_encode_cons (h : encode cs = b :: rest) (hb : b.toNat < 128) :
    ∃ cs', cs = Byte.glyph b :: cs' ∧ rest = encode cs' := by
  cases cs with
  | nil => cases h
  | cons c cs =>
    obtain ⟨first, more, hc, -, -⟩ := exists_utf8EncodeChar c
    rw [encode_cons, hc, List.cons_append] at h
    obtain ⟨rfl, hrest⟩ := List.cons.inj h
    obtain ⟨hfirst, hlt⟩ := mem_utf8EncodeChar (hc ▸ List.mem_cons_self) hb
    rw [utf8EncodeChar_of_lt hlt] at hc
    obtain ⟨-, rfl⟩ := List.cons.inj hc
    exact ⟨cs, by rw [hfirst, glyph_byte hlt], hrest.symm⟩

theorem utf8EncodeChar_glyph (hb : b.toNat < 128) : String.utf8EncodeChar (Byte.glyph b) = [b] := by
  rw [utf8EncodeChar_of_lt (Byte.toNat_glyph b ▸ hb), Lexer.byte_glyph]

/-- Bytes of ASCII at the front are characters one by one. -/
theorem exists_of_encode_append (h : encode cs = run ++ rest) (hrun : ∀ b ∈ run, b.toNat < 128) :
    ∃ cs', cs = run.map Byte.glyph ++ cs' ∧ encode (run.map Byte.glyph) = run ∧
      rest = encode cs' := by
  induction run generalizing cs with
  | nil => exact ⟨cs, rfl, rfl, h.symm⟩
  | cons b run ih =>
    obtain ⟨hb, hrun⟩ := List.forall_mem_cons.mp hrun
    obtain ⟨cs, rfl, hcs⟩ := exists_of_encode_cons h hb
    obtain ⟨cs', rfl, hglyphs, hrest⟩ := ih hcs.symm hrun
    refine ⟨cs', rfl, ?_, hrest⟩
    rw [List.map_cons, encode_cons, utf8EncodeChar_glyph hb, hglyphs, List.singleton_append]

/-- The first character of a text is its first byte with all bytes that go on with it. -/
theorem span_encode_cons (h : encode (c :: cs) = b :: rest) :
    b :: rest.takeWhile Byte.isContinuation = String.utf8EncodeChar c ∧
      rest.dropWhile Byte.isContinuation = encode cs := by
  obtain ⟨first, more, hc, -, hmore⟩ := exists_utf8EncodeChar c
  rw [encode_cons, hc, List.cons_append] at h
  obtain ⟨rfl, rfl⟩ := List.cons.inj h
  obtain ⟨htake, hdrop⟩ := Lexer.span_of_stops hmore (isContinuation_head_encode cs)
  rw [htake, hc]
  exact ⟨rfl, hdrop⟩

end Text

/-- A fault that is about one character shows it. -/
theorem LexicalCause.message_utf8EncodeChar (c : Char) :
    (unexpected (String.utf8EncodeChar c)).message = s!"Unexpected character '{c}'" := by
  have hchar : Text.ofUtf8 (String.utf8EncodeChar c) = String.singleton c := by
    rw [← Text.encode_singleton, ← String.toList_singleton, Text.ofUtf8_encode]
  have hshown : Text.ofUtf8 (String.utf8EncodeChar c) = toString c := hchar
  exact congrArg (fun s : String => s!"Unexpected character '{s}'") hshown

/-! ### String literals -/

/-- The characters behind the opening quote of a string literal up to its end, and the text that is
read. A literal that is not closed ends with its line or with the source, and a backslash that
begins no escape sequence is dropped. -/
inductive Inside : List Char → List Char → Prop
  | cutOff : Inside [] []
  | closed : Inside ['"'] []
  | lastBackslash : Inside ['\\'] []
  | plain {c : Char} {body text : List Char} (hnewline : c ≠ '\n') (hquote : c ≠ '"')
      (hbackslash : c ≠ '\\') (h : Inside body text) : Inside (c :: body) (c :: text)
  | escape {c e : Char} {body text : List Char} (he : escape e = ['\\', c]) (h : Inside body text) :
      Inside ('\\' :: c :: body) (e :: text)
  | unescaped {c : Char} {body text : List Char} (hc : ∀ e, escape e ≠ ['\\', c])
      (h : Inside body text) : Inside ('\\' :: c :: body) (c :: text)

theorem escape_ascii {c e : Char} (h : escape e = ['\\', c]) : c.toNat < 128 ∧ e.toNat < 128 := by
  unfold escape at h
  split at h <;> cases h <;> decide

/-- A byte behind a backslash begins an escape sequence if it is one of the characters that are
written with one. -/
theorem Byte.unescape?_eq_some_iff {b v : UInt8} : Byte.unescape? b = some v ↔
    ∃ c e, escape e = ['\\', c] ∧ b = byte c ∧ v = byte e := by
  constructor
  · intro h
    have hb := Lexer.byte_glyph b
    unfold Byte.unescape? at h
    split at h
    · next hglyph => exact ⟨'"', '"', rfl, by rw [← hb, hglyph], (Option.some.inj h).symm⟩
    · next hglyph => exact ⟨'\\', '\\', rfl, by rw [← hb, hglyph], (Option.some.inj h).symm⟩
    · next hglyph => exact ⟨'n', '\n', rfl, by rw [← hb, hglyph], (Option.some.inj h).symm⟩
    · next hglyph => exact ⟨'t', '\t', rfl, by rw [← hb, hglyph], (Option.some.inj h).symm⟩
    · next hglyph => exact ⟨'r', '\r', rfl, by rw [← hb, hglyph], (Option.some.inj h).symm⟩
    · cases h
  · rintro ⟨c, e, he, rfl, rfl⟩
    unfold escape at he
    split at he <;> cases he <;> rfl

namespace Lexer

variable {start here : Position} {c : Char} {cs : List Char} {b : UInt8} {rest : List UInt8}

theorem isContinuation_plain (h : Byte.isContinuation b = true) :
    b ≠ Byte.newline ∧ b ≠ Byte.quote ∧ b ≠ Byte.backslash := by
  refine ⟨?_, ?_, ?_⟩ <;> rintro rfl <;> cases h

/-- A string literal that is read from characters ends between two of them, and what is read is a
text. -/
def Quoted.Whole (q : Quoted) (here : Position) (cs : List Char) : Prop :=
  ∃ body text after, cs = body ++ after ∧ Inside body text ∧ q.bytes = encode text ∧
    q.next = ⟨here.past (encode body), encode after⟩

theorem whole_plain (hnewline : c ≠ '\n') (hquote : c ≠ '"') (hbackslash : c ≠ '\\')
    (h : (quoted start (here.past (encode [c])) (encode cs)).Whole (here.past (encode [c])) cs) :
    (quoted start here (encode (c :: cs))).Whole here (c :: cs) := by
  obtain ⟨body, text, after, rfl, hinside, hbytes, hnext⟩ := h
  rw [Text.encode_singleton] at hbytes hnext
  rw [Text.encode_cons, quoted_plain (utf8EncodeChar_plain hnewline hquote hbackslash)]
  refine ⟨c :: body, c :: text, after, rfl, .plain hnewline hquote hbackslash hinside, ?_, ?_⟩
  · rw [Quoted.prepend, hbytes, Text.encode_cons]
  · rw [Quoted.prepend, hnext, Text.encode_cons, Position.past_append]

/-- Only the first byte of a character behind a backslash is looked at; that is the whole character
if it begins an escape sequence. -/
theorem unescape?_utf8EncodeChar (hc : String.utf8EncodeChar c = b :: rest) :
    (∃ e, escape e = ['\\', c] ∧ Byte.unescape? b = some (byte e) ∧ rest = []) ∨
      (∀ e, escape e ≠ ['\\', c]) ∧ Byte.unescape? b = none := by
  cases hv : Byte.unescape? b with
  | some v =>
    obtain ⟨d, e, he, hd, rfl⟩ := Byte.unescape?_eq_some_iff.mp hv
    have hdlt : d.toNat < 128 := (escape_ascii he).1
    have hlt : b.toNat < 128 := by
      rw [hd, Text.toNat_byte hdlt]
      exact hdlt
    obtain ⟨hb, hclt⟩ := Text.mem_utf8EncodeChar (hc ▸ List.mem_cons_self) hlt
    have hcd : c = d := by rw [← Text.glyph_byte hclt, ← hb, hd, Text.glyph_byte hdlt]
    rw [Text.utf8EncodeChar_of_lt hclt] at hc
    exact .inl ⟨e, hcd ▸ he, rfl, (List.cons.inj hc).2.symm⟩
  | none =>
    refine .inr ⟨fun e he => ?_, rfl⟩
    rw [Text.utf8EncodeChar_of_lt (escape_ascii he).1] at hc
    obtain ⟨rfl, -⟩ := List.cons.inj hc
    rw [Byte.unescape?_eq_some_iff.mpr ⟨c, e, he, rfl, rfl⟩] at hv
    cases hv

/-- A backslash and the character behind it. If they make no escape sequence, the first byte of the
character is kept and the others follow as ordinary ones. -/
theorem whole_backslash
    (h : (quoted start (here.past (encode ['\\', c])) (encode cs)).Whole
      (here.past (encode ['\\', c])) cs) :
    (quoted start here (encode ('\\' :: c :: cs))).Whole here ('\\' :: c :: cs) := by
  obtain ⟨body, text, after, rfl, hinside, hbytes, hnext⟩ := h
  obtain ⟨b, more, hc, -, hmore⟩ := Text.exists_utf8EncodeChar c
  have hencode : ∀ chars, encode ('\\' :: c :: chars) =
      Byte.backslash :: b :: (more ++ encode chars) := by
    intro chars
    rw [Text.encode_cons, Text.encode_cons, hc]
    rfl
  have hmid : here.past (encode ['\\', c]) = ((here.next Byte.backslash).next b).past more := by
    rw [hencode, encode, List.flatMap_nil, List.append_nil]
    rfl
  have hstop : (quoted start (here.past (encode ['\\', c])) (encode (body ++ after))).next =
      ⟨here.past (encode ('\\' :: c :: body)), encode after⟩ := by
    rw [hnext, hmid, hencode, Position.past_cons, Position.past_cons, Position.past_append]
  have hplain := @quoted_plain ((here.next Byte.backslash).next b) more (encode (body ++ after))
    start fun m hm => isContinuation_plain (hmore m hm)
  rw [← hmid] at hplain
  rw [hencode]
  rcases unescape?_utf8EncodeChar hc with ⟨e, he, hv, rfl⟩ | ⟨hne, hv⟩
  · rw [quoted_backslash hv, hplain]
    have htext : encode (e :: text) = byte e :: encode text := by
      rw [Text.encode_cons, Text.utf8EncodeChar_of_lt (escape_ascii he).2, List.singleton_append]
    refine ⟨'\\' :: c :: body, e :: text, after, rfl, .escape he hinside, ?_, hstop⟩
    rw [htext, ← hbytes]
    rfl
  · rw [quoted_backslash_none hv, hplain]
    have htext : encode (c :: text) = b :: (more ++ encode text) := by
      rw [Text.encode_cons, hc, List.cons_append]
    refine ⟨'\\' :: c :: body, c :: text, after, rfl, .unescaped hne hinside, ?_, hstop⟩
    rw [htext, ← hbytes]
    rfl

/-- A string literal is read character by character. -/
theorem whole_quoted (start here : Position) (cs : List Char) :
    (quoted start here (encode cs)).Whole here cs := by
  -- on the length, for a backslash takes the character behind it along
  induction hn : cs.length using Nat.strong_induction_on generalizing here cs with
  | _ n ih =>
    subst hn
    cases cs with
    | nil => exact ⟨[], [], [], rfl, .cutOff, rfl, rfl⟩
    | cons c cs =>
      by_cases hnewline : c = '\n'
      · subst hnewline
        have hquoted : quoted start here (encode ('\n' :: cs)) =
            ⟨[], [unterminated start here], ⟨here, encode ('\n' :: cs)⟩⟩ := quoted.eq_def ..
        rw [hquoted]
        exact ⟨[], [], '\n' :: cs, rfl, .cutOff, rfl, rfl⟩
      · by_cases hquote : c = '"'
        · subst hquote
          have hquoted : quoted start here (encode ('"' :: cs)) =
              ⟨[], [], ⟨here.next Byte.quote, encode cs⟩⟩ := quoted.eq_def ..
          rw [hquoted]
          exact ⟨['"'], [], cs, rfl, .closed, rfl, rfl⟩
        · by_cases hbackslash : c = '\\'
          · subst hbackslash
            cases cs with
            | nil => exact ⟨['\\'], [], [], rfl, .lastBackslash, rfl, rfl⟩
            | cons d cs =>
              exact whole_backslash (ih cs.length (by simp only [List.length_cons]; omega) _ cs rfl)
          · exact whole_plain hnewline hquote hbackslash (ih cs.length (by simp) _ cs rfl)

theorem quoted_faults (start here : Position) (bytes : List UInt8) :
    ∀ f ∈ (quoted start here bytes).faults, ∀ stray, f.cause ≠ .unexpected stray := by
  fun_induction quoted start here bytes with
  | case1 => simp [unterminated]
  | case2 => simp [unterminated]
  | case3 => simp
  | case4 => simp [unterminated]
  | case5 here e rest v _ _ _ stop ih => exact ih
  | case6 here e rest _ _ _ stop ih => exact List.forall_mem_cons.mpr ⟨by simp, ih⟩
  | case7 here b rest _ _ _ ih => exact ih

end Lexer

/-! ### Characters outside of string literals -/

/-- A character that is no blank and no part of a token. -/
def isStray (c : Char) : Bool :=
  !(c.isWhitespace || c == '"' || isNamePart c || (Symbol.single? c).isSome)

theorem isStray_glyph_of_wordPart {b : UInt8} (h : Byte.isWordPart b = true) :
    b.toNat < 128 ∧ isStray (Byte.glyph b) = false :=
  ⟨Byte.isWordPart_lt h, by simp [isStray, Byte.isNamePart_glyph h]⟩

theorem isStray_glyph_of_digit {b : UInt8} (h : Byte.isDigit b = true) :
    b.toNat < 128 ∧ isStray (Byte.glyph b) = false :=
  isStray_glyph_of_wordPart (by rw [Byte.isWordPart, h, Bool.or_true])

namespace Kind.SpelledBy

variable {k : Kind} {lexeme : List UInt8}

theorem head_of_string {s : String} (h : k.SpelledBy lexeme) (hk : k = .string s) :
    lexeme.head? = some Byte.quote := by
  cases h with
  | word =>
    unfold ofWord at hk
    split at hk <;> cases hk
  | int => cases hk
  | float => cases hk
  | symbol => cases hk
  | string => rfl

/-- There is no stray character in a lexeme other than a string literal. -/
theorem not_stray (h : k.SpelledBy lexeme) (hk : ∀ s, k ≠ .string s) :
    ∀ b ∈ lexeme, b.toNat < 128 ∧ isStray (Byte.glyph b) = false := by
  cases h with
  | word hb hword =>
    exact List.forall_mem_cons.mpr
      ⟨isStray_glyph_of_wordPart (by rw [Byte.isWordPart, hb, Bool.true_or]),
        fun b hb => isStray_glyph_of_wordPart (hword b hb)⟩
  | int _ hdigits _ => exact fun b hb => isStray_glyph_of_digit (hdigits b hb)
  | float _ _ hwhole hplaces =>
    refine List.forall_mem_append.mpr ⟨fun b hb => isStray_glyph_of_digit (hwhole b hb), ?_⟩
    exact List.forall_mem_cons.mpr
      ⟨by decide, fun b hb => isStray_glyph_of_digit (hplaces b hb)⟩
  | symbol x =>
    have hall : (Text.utf8 x.text).all
        (fun b => decide (b.toNat < 128) && !isStray (Byte.glyph b)) = true := by
      cases x <;> rfl
    simpa using hall
  | string _ => exact absurd rfl (hk _)

end Kind.SpelledBy

theorem Byte.of_isWhitespace {c : Char} (h : c.isWhitespace = true) :
    c.toNat < 128 ∧ Byte.isBlank (byte c) = true := by
  have hcases : (decide (c = ' ') || decide (c = '\t') || decide (c = '\r') ||
      decide (c = '\n')) = true := h
  simp only [Bool.or_eq_true, decide_eq_true_eq] at hcases
  rcases hcases with ((rfl | rfl) | rfl) | rfl <;> decide

theorem Symbol.single?_ascii {c : Char} {x : Symbol} (h : Symbol.single? c = some x) :
    c.toNat < 128 := by
  unfold Symbol.single? at h
  split at h <;> cases h <;> decide

/-- A character is a stray if its first byte is not skipped and begins no token. -/
theorem isStray_of_encode {c : Char} {cs : List Char} {b : UInt8} {rest : List UInt8}
    (h : encode (c :: cs) = b :: rest) (hblank : Byte.isBlank b = false) (hquote : b ≠ Byte.quote)
    (hword : Byte.isWordPart b = false) (hsymbol : Symbol.single? (Byte.glyph b) = none) :
    isStray c = true := by
  have hb : c.toNat < 128 → b = byte c := by
    intro hlt
    rw [Text.encode_cons, Text.utf8EncodeChar_of_lt hlt] at h
    exact (List.cons.inj h).1.symm
  -- a character of one of the other classes is one byte, and that is of the class, too
  have hwhitespace : c.isWhitespace = false := by
    rw [← Bool.not_eq_true]
    intro hc
    obtain ⟨hlt, hc⟩ := Byte.of_isWhitespace hc
    rw [← hb hlt, hblank] at hc
    cases hc
  have hne : c ≠ '"' := by
    rintro rfl
    exact hquote (hb (by decide))
  have hname : isNamePart c = false := by
    rw [← Bool.not_eq_true]
    intro hc
    obtain ⟨hlt, hc⟩ := Byte.of_isNamePart hc
    rw [← hb hlt, hword] at hc
    cases hc
  have hsingle : Symbol.single? c = none := by
    cases hc : Symbol.single? c with
    | none => rfl
    | some x =>
      have hlt := Symbol.single?_ascii hc
      rw [hb hlt, Text.glyph_byte hlt, hc] at hsymbol
      cases hsymbol
  simp [isStray, hwhitespace, hne, hname, hsingle]

/-! ### Rounds -/

namespace Lexer

namespace Round

variable {r : Round} {cs : List Char}

/-- What is made of the characters that a round takes. -/
inductive Takes (r : Round) : List Char → Prop
  /-- The bytes of a string literal are those of a text, and it is read as that text. -/
  | string {body text : List Char} (hbody : Inside body text)
      (hbytes : (quoted r.here (r.here.next Byte.quote) r.rest).bytes = encode text)
      (hkind : r.step.kind = some (.string (String.ofList text)))
      (hfaults : ∀ f ∈ r.step.faults, ∀ stray, f.cause ≠ .unexpected stray) : Takes r ('"' :: body)
  /-- There is no stray character in another token. -/
  | token {k : Kind} {cs : List Char} (hcs : ∀ c ∈ cs, isStray c = false)
      (hkind : r.step.kind = some k) (hstring : ∀ s, k ≠ .string s)
      (hfaults : ∀ f ∈ r.step.faults, ∀ stray, f.cause ≠ .unexpected stray) : Takes r cs
  /-- A stray character is taken alone, and is one fault, which names it. -/
  | stray {c : Char} {f : Fault} (hc : isStray c = true) (hkind : r.step.kind = none)
      (hfaults : r.step.faults = [f]) (hmessage : f.cause.message = s!"Unexpected character '{c}'")
      (hspan : f.span = .between r.here r.step.next.here) : Takes r [c]

/-- What is not skipped is no blank. -/
theorem isBlank_first (r : Round) : Byte.isBlank r.first = false := by
  have htrim := r.start.trim_trim
  rw [r.trim_start] at htrim
  exact (stops_of_trim htrim).1

/-- A round at some characters takes the first of them. -/
def Whole (r : Round) (cs : List Char) : Prop :=
  ∃ taken after, cs = taken ++ after ∧ r.Takes taken ∧
    r.step.next = ⟨r.here.past (encode taken), encode after⟩

theorem whole_string (hcs : encode cs = r.first :: r.rest) (hquote : r.first = Byte.quote) :
    r.Whole cs := by
  rw [hquote] at hcs
  obtain ⟨cs, rfl, hrest⟩ := Text.exists_of_encode_cons hcs (by decide)
  have hstep : r.step = stringStep r.here (encode cs) := by
    rw [Round.step, Lexer.step, if_pos hquote, hrest]
  obtain ⟨body, text, after, rfl, hinside, hbytes, hnext⟩ :=
    whole_quoted r.here (r.here.next Byte.quote) cs
  refine ⟨'"' :: body, after, rfl, .string hinside (hrest ▸ hbytes) ?_ ?_, ?_⟩
  · have htext := Text.ofUtf8_encode (String.ofList text)
    rw [String.toList_ofList] at htext
    rw [hstep, stringStep, hbytes, htext]
  · rw [hstep]
    exact quoted_faults _ _ _
  · rw [hstep]
    exact hnext

/-- A token other than a string literal, with the bytes of its lexeme. -/
theorem whole_token {k : Kind} {faults : List Fault} {lexeme rest : List UInt8}
    (hcs : encode cs = r.first :: r.rest) (hbytes : r.first :: r.rest = lexeme ++ rest)
    (hstep : r.step = ⟨some k, faults, .after r.here lexeme rest⟩) (hstring : ∀ s, k ≠ .string s)
    (hlexeme : ∀ b ∈ lexeme, b.toNat < 128 ∧ isStray (Byte.glyph b) = false)
    (hfaults : ∀ f ∈ faults, ∀ stray, f.cause ≠ .unexpected stray) : r.Whole cs := by
  obtain ⟨after, rfl, htaken, rfl⟩ :=
    Text.exists_of_encode_append (hcs.trans hbytes) fun b hb => (hlexeme b hb).1
  refine ⟨lexeme.map Byte.glyph, after, rfl, .token ?_ (by rw [hstep]) hstring ?_, ?_⟩
  · exact List.forall_mem_map.mpr fun b hb => (hlexeme b hb).2
  · rw [hstep]
    exact hfaults
  · rw [hstep, htaken]
    rfl

theorem whole_clean (hcs : encode cs = r.first :: r.rest) (hquote : r.first ≠ Byte.quote)
    (hfaults : r.step.faults = []) : r.Whole cs := by
  obtain ⟨k, lexeme, rest, hstep, hbytes, hspelled⟩ := takes_step hfaults
  have hstring : ∀ s, k ≠ .string s := by
    intro s hk
    have hhead := hspelled.head_of_string hk
    obtain ⟨more, rfl⟩ := List.head?_eq_some_iff.mp hhead
    exact hquote (List.cons.inj hbytes).1
  exact whole_token hcs hbytes hstep hstring (hspelled.not_stray hstring) (by simp)

theorem whole_number (hcs : encode cs = r.first :: r.rest) (hquote : r.first ≠ Byte.quote)
    (hdigit : Byte.isDigit r.first = true) (hfaults : r.step.faults ≠ []) : r.Whole cs := by
  have hnumber : r.step = numberStep r.here (r.first :: r.rest) := by
    rw [Round.step, Lexer.step, if_neg hquote, if_pos hdigit]
  rw [hnumber] at hfaults
  exact whole_token hcs List.takeWhile_append_dropWhile.symm
    (hnumber.trans (numberStep_of_fault hfaults)) (by simp)
    (fun b hb => isStray_glyph_of_digit (List.mem_takeWhile_imp hb)) (by simp)

theorem whole_stray (hcs : encode cs = r.first :: r.rest) (hquote : r.first ≠ Byte.quote)
    (hword : Byte.isWordPart r.first = false) (hfaults : r.step.faults ≠ []) : r.Whole cs := by
  obtain ⟨hletter, hdigit⟩ := Bool.or_eq_false_iff.mp hword
  have hsymbol : r.step = symbolStep r.here r.first r.rest := by
    rw [Round.step, Lexer.step, if_neg hquote, hdigit, if_neg Bool.false_ne_true, hletter,
      if_neg Bool.false_ne_true]
  rw [hsymbol] at hfaults
  obtain ⟨hsingle, hstray⟩ := symbolStep_of_fault hfaults
  cases cs with
  | nil => cases hcs
  | cons c cs =>
    obtain ⟨htaken, hafter⟩ := Text.span_encode_cons hcs
    have hstep : r.step = ⟨none, [⟨.unexpected (String.utf8EncodeChar c),
        .between r.here (r.here.past (encode [c]))⟩], ⟨r.here.past (encode [c]), encode cs⟩⟩ := by
      rw [hsymbol, hstray, strayStep, htaken, hafter, Text.encode_singleton]
      rfl
    have hfaults : r.step.faults = [⟨.unexpected (String.utf8EncodeChar c),
        .between r.here r.step.next.here⟩] := by rw [hstep]
    exact ⟨[c], cs, rfl, .stray (isStray_of_encode hcs r.isBlank_first hquote hword hsingle)
      (by rw [hstep]) hfaults (LexicalCause.message_utf8EncodeChar c) rfl, by rw [hstep]⟩

/-- A round takes whole characters. -/
theorem whole (hcs : encode cs = r.first :: r.rest) : r.Whole cs := by
  by_cases hquote : r.first = Byte.quote
  · exact whole_string hcs hquote
  · by_cases hfaults : r.step.faults = []
    · exact whole_clean hcs hquote hfaults
    · by_cases hdigit : Byte.isDigit r.first = true
      · exact whole_number hcs hquote hdigit hfaults
      · by_cases hletter : Byte.isLetter r.first = true
        · -- a word has no faults
          refine absurd ?_ hfaults
          rw [Round.step, Lexer.step, if_neg hquote, if_neg hdigit, if_pos hletter]
          rfl
        · exact whole_stray hcs hquote (by simp [Byte.isWordPart, hdigit, hletter]) hfaults

end Round

/-! ### The whole text -/

/-- What is left of a text behind some of its characters. -/
def Input.behind (before after : List Char) : Input :=
  ⟨Position.origin.past (encode before), encode after⟩

/-- The round starts behind some characters of a text, skips those of a gap and takes some more. It
starts and ends between two characters, and so does its step. -/
structure Round.Covers (r : Round) (before gap taken after : List Char) : Prop where
  start : r.start = .behind before (gap ++ taken ++ after)
  blanks : Blanks (encode gap)
  begins : r.start.trim = .behind (before ++ gap) (taken ++ after)
  takes : r.Takes taken
  next : r.step.next = .behind (before ++ gap ++ taken) after

theorem Round.exists_covers {r : Round} {before cs : List Char} (h : r.start = .behind before cs) :
    ∃ gap taken after, cs = gap ++ taken ++ after ∧ r.Covers before gap taken after := by
  obtain ⟨gap, rest, hbytes, htrim, -, hblanks⟩ := exists_gap r.start.here r.start.rest
  have htrim' : r.start.trim = ⟨r.start.here.past gap, rest⟩ := htrim
  obtain ⟨hhere, rfl⟩ := Input.mk.inj (r.trim_start.symm.trans htrim')
  have hgap : Blanks gap := hblanks (List.cons_ne_nil _ _)
  have hcs : encode cs = gap ++ r.first :: r.rest := by
    rw [← hbytes, h, Input.behind]
  obtain ⟨gap, cs, rfl, rfl, hrest⟩ := Text.encode_cut hcs hgap.edge
  obtain ⟨taken, after, rfl, htakes, hnext⟩ := Round.whole hrest
  have hbegins : r.here = Position.origin.past (encode (before ++ gap)) := by
    rw [hhere, h, Text.encode_append, Position.past_append]
    rfl
  refine ⟨gap, taken, after, (List.append_assoc _ _ _).symm, ?_, hgap, ?_, htakes, ?_⟩
  · rw [h, List.append_assoc]
  · rw [r.trim_start, hbegins, ← hrest]
    rfl
  · rw [hnext, hbegins, ← Position.past_append, ← Text.encode_append]
    rfl

/-- Rounds that start behind some characters of a text cover those that are left, one round after
another, and the first fault of every round is stored. What the last one leaves is blank, unless the
store of the faults that are found is full. -/
inductive Covered (found : Capped Fault) : List Char → List Char → List Round → Prop
  | stop {before tail : List Char} (h : found.full = true ∨ BlanksToEnd (encode tail)) :
      Covered found before tail []
  | round {before gap taken after : List Char} {r : Round} {rs : List Round}
      (h : r.Covers before gap taken after) (hstored : ∀ f ∈ r.step.faults.head?, f ∈ found.kept)
      (hrs : Covered found (before ++ gap ++ taken) after rs) :
      Covered found before (gap ++ taken ++ after) (r :: rs)

theorem covered_rounds (i : Input) (faults : Capped Fault) :
    ∀ fs before cs, faults.Shows fs → i = .behind before cs →
      Covered (faults.pushAll ((rounds i faults).flatMap fun r => r.step.faults)) before cs
        (rounds i faults) := by
  fun_induction rounds i faults with
  | case1 i faults hfull => exact fun _ before cs _ _ => .stop (.inl hfull)
  | case2 i faults hfull here htrim =>
    intro _ before cs _ h
    obtain ⟨gap, rest, hbytes, htrim', hend, -⟩ := exists_gap i.here i.rest
    obtain ⟨-, rfl⟩ := Input.mk.inj (htrim.symm.trans htrim')
    rw [List.append_nil, h] at hbytes
    have hcs : encode cs = gap := hbytes
    exact .stop (.inr (hcs ▸ hend))
  | case3 i faults hfull here b rest htrim r ih =>
    intro fs before cs hshows h
    obtain ⟨gap, taken, after, rfl, hcovers⟩ := Round.exists_covers (r := r) h
    have hfull : faults.full = false := Bool.not_eq_true _ ▸ hfull
    rw [List.flatMap_cons, Capped.pushAll_append]
    refine .round hcovers (fun f hf => ?_) (ih _ _ _ (hshows.pushAll _) hcovers.next)
    exact Capped.kept_prefix_pushAll.subset (hshows.mem_kept_of_head hfull f hf)

end Lexer

/-- A source is read in rounds, whose tokens and faults are those of the source. Every round starts
and ends between two characters. It skips blanks and comments and then takes a string literal, the
bytes of which are those of a text, or another token, in which there is no stray character, or else
one stray character, for which there is just one fault, which names it and is stored. Nothing but
blanks and comments is left when the rounds end before the store of faults is full. -/
theorem Source.lex_reads_characters (s : Source) :
    let rs := Lexer.rounds ⟨.origin, s.bytes⟩ .empty
    (∃ stop, s.lex.tokens = rs.filterMap Lexer.Round.token? ++ [⟨.eof, .point stop⟩]) ∧
    s.lex.faults = .ofList (rs.flatMap fun r => r.step.faults) ∧
    Lexer.Covered s.lex.faults [] s.text.toList rs := by
  intro rs
  obtain ⟨stop, htokens⟩ := Lexer.exists_tokens_eq ⟨.origin, s.bytes⟩ .empty
  have hfaults : s.lex.faults = .ofList (rs.flatMap fun r => r.step.faults) :=
    congrArg Prod.snd htokens
  refine ⟨⟨stop, congrArg Prod.fst htokens⟩, hfaults, ?_⟩
  rw [hfaults]
  exact Lexer.covered_rounds ⟨.origin, s.bytes⟩ .empty [] [] s.text.toList Capped.shows_empty rfl

-- a stray character of two bytes, and a backslash before one in a string literal that is not closed
example : (lex (Text.utf8 "é \"\\é")).faults.kept.map (fun f => f.cause.message) =
      ["Unexpected character 'é'", "Invalid escape sequence '\\Ã'", "Unterminated string literal"] ∧
    (lex (Text.utf8 "é \"\\é")).tokens.map Token.kind = [.string "é", .eof] := by
  decide +kernel

end RecordLang
