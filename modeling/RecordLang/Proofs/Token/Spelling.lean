import RecordLang.Proofs.Token.Lexed

/-!
# Spellings of tokens

A token has a spelling, and some have many: a whole number may have zeros in front, and the same
number with a point may have more or fewer places. A string literal is written with escape sequences
for some of its characters. Between two tokens stand blanks and comments, a blank first; `render`
writes tokens that way.
-/

namespace RecordLang

/-! ### Between tokens -/

inductive Blank where
  | space | tab | carriageReturn | lineFeed
  deriving DecidableEq, Repr

def Blank.char : Blank → Char
  | space => ' '
  | tab => '\t'
  | carriageReturn => '\r'
  | lineFeed => '\n'

/-- A piece of what stands between two tokens. A comment runs up to the end of its line. -/
inductive Filler where
  | blank (b : Blank)
  | comment (text : List Char) (inLine : '\n' ∉ text)

def Filler.text : Filler → List Char
  | blank b => [b.char]
  | comment text _ => '/' :: '/' :: (text ++ ['\n'])

/-- What stands between two tokens. -/
structure Gap where
  first : Blank
  more : List Filler

def Gap.text (g : Gap) : List Char := g.first.char :: g.more.flatMap Filler.text

/-! ### Tokens -/

def isNameStart (c : Char) : Bool := c.isAlpha || c == '_'

def isNamePart (c : Char) : Bool := isNameStart c || c.isDigit

/-- A name that is no reserved word. -/
structure Name where
  first : Char
  more : List Char
  starts : isNameStart first = true
  goesOn : ∀ c ∈ more, isNamePart c = true
  free : Keyword.ofText? (String.ofList (first :: more)) = none

/-- A run of digits. -/
structure Digits where
  chars : List Char
  nonempty : chars ≠ []
  digits : ∀ c ∈ chars, c.isDigit = true

/-- A token with one of its spellings. -/
inductive Lexeme where
  | keyword (w : Keyword)
  | symbol (x : Symbol)
  | name (n : Name)
  | int (zeros n : Nat) (fits : n < Nat.pow 2 63)
  | float (whole places : Digits)
  | string (s : String)

/-- A character as it is written in a string literal. -/
def escape : Char → List Char
  | '"' => ['\\', '"']
  | '\\' => ['\\', '\\']
  | '\n' => ['\\', 'n']
  | '\t' => ['\\', 't']
  | '\r' => ['\\', 'r']
  | c => [c]

namespace Lexeme

def kind : Lexeme → Kind
  | keyword w => .keyword w
  | symbol x => .symbol x
  | name n => .ident (String.ofList (n.first :: n.more))
  | int _ n _ => .int n
  | float whole places =>
    .float (.ofDigits (Decimal.value (whole.chars ++ places.chars)) places.chars.length)
  | string s => .string s

def text : Lexeme → List Char
  | keyword w => w.text.toList
  | symbol x => x.text.toList
  | name n => n.first :: n.more
  | int zeros n _ => List.replicate zeros '0' ++ Nat.toDigits 10 n
  | float whole places => whole.chars ++ '.' :: places.chars
  | string s => '"' :: (s.toList.flatMap escape ++ ['"'])

end Lexeme

/-- Some tokens as a text, with a gap behind every one of them but the last. -/
def render (gap : Nat → Gap) : List Lexeme → List Char
  | [] => []
  | [l] => l.text
  | l :: m :: ls => l.text ++ ((gap 0).text ++ render (fun i => gap (i + 1)) (m :: ls))

/-! ### Bytes of characters -/

namespace Text

variable {c : Char} {cs ds : List Char}

/-- The UTF-8 bytes of some characters. -/
def encode (cs : List Char) : List UInt8 := cs.flatMap String.utf8EncodeChar

theorem utf8_ofList (cs : List Char) : utf8 (String.ofList cs) = encode cs := by
  rw [utf8, String.toList_ofList, encode]

theorem encode_append : encode (cs ++ ds) = encode cs ++ encode ds := List.flatMap_append

theorem encode_cons : encode (c :: cs) = String.utf8EncodeChar c ++ encode cs := List.flatMap_cons

/-- A text is read back from its bytes. -/
theorem ofUtf8_encode (s : String) : ofUtf8 (encode s.toList) = s := by
  have hbytes : (⟨(encode s.toList).toArray⟩ : ByteArray) = s.toByteArray := by
    rw [← String.utf8Encode_toList]
    exact ByteArray.ext List.data_toByteArray.symm
  rw [ofUtf8, ofUtf8?, hbytes, String.fromUTF8?, dif_pos s.isValidUTF8]
  rfl

/-- An ASCII character is one byte. -/
def byte (c : Char) : UInt8 := UInt8.ofNat c.toNat

theorem utf8EncodeChar_of_lt (h : c.toNat < 128) : String.utf8EncodeChar c = [byte c] := by
  have hle : c.val.toNat ≤ 127 := Nat.le_of_lt_succ h
  rw [String.utf8EncodeChar, if_pos hle]
  rfl

/-- A byte below 128 stands for a character of its own. -/
theorem mem_utf8EncodeChar {b : UInt8} (hb : b ∈ String.utf8EncodeChar c) (hlt : b.toNat < 128) :
    b = byte c ∧ c.toNat < 128 := by
  have hhigh : ∀ {n : Nat}, 128 ≤ n → n < 256 → b ≠ UInt8.ofNat n := by
    rintro n hn hn' rfl
    rw [UInt8.toNat_ofNat'] at hlt
    omega
  unfold String.utf8EncodeChar at hb
  dsimp only at hb
  split at hb
  · next hle => exact ⟨List.mem_singleton.mp hb, Nat.lt_succ_of_le hle⟩
  · -- every byte of a longer character is at least 128
    split at hb
    · simp only [List.mem_cons, List.not_mem_nil, or_false] at hb
      rcases hb with hb | hb <;> exact absurd hb (hhigh (by omega) (by omega))
    · split at hb
      · simp only [List.mem_cons, List.not_mem_nil, or_false] at hb
        rcases hb with hb | hb | hb <;> exact absurd hb (hhigh (by omega) (by omega))
      · simp only [List.mem_cons, List.not_mem_nil, or_false] at hb
        rcases hb with hb | hb | hb | hb <;> exact absurd hb (hhigh (by omega) (by omega))

theorem toNat_byte (h : c.toNat < 128) : (byte c).toNat = c.toNat := by
  rw [byte, UInt8.toNat_ofNat', Nat.mod_eq_of_lt (Nat.lt_trans h (by decide))]

theorem glyph_byte (h : c.toNat < 128) : Byte.glyph (byte c) = c := by
  apply Char.ext
  apply UInt32.toNat_inj.mp
  exact toNat_byte h

/-- The bytes of ASCII characters are those characters one by one. -/
theorem encode_ascii (h : ∀ c ∈ cs, c.toNat < 128) : encode cs = cs.map byte := by
  induction cs with
  | nil => rfl
  | cons c cs ih =>
    obtain ⟨hc, hcs⟩ := List.forall_mem_cons.mp h
    rw [encode_cons, utf8EncodeChar_of_lt hc, ih hcs]
    rfl

theorem map_glyph_ascii (h : ∀ c ∈ cs, c.toNat < 128) : (cs.map byte).map Byte.glyph = cs := by
  rw [List.map_map]
  exact (List.map_congr_left fun c hc => glyph_byte (h c hc)).trans (List.map_id' cs)

end Text

/-! ### Classes of characters and of bytes -/

namespace Byte

variable {b : UInt8} {c : Char}

theorem isDigit_iff : isDigit b = true ↔ 48 ≤ b.toNat ∧ b.toNat ≤ 57 := by
  simp [isDigit, UInt8.le_iff_toNat_le]

theorem isLetter_iff : isLetter b = true ↔
    97 ≤ b.toNat ∧ b.toNat ≤ 122 ∨ 65 ≤ b.toNat ∧ b.toNat ≤ 90 ∨ b.toNat = 95 := by
  simp [isLetter, UInt8.le_iff_toNat_le, ← UInt8.toNat_inj, or_assoc]

theorem isBlank_iff : isBlank b = true ↔ b = 32 ∨ b = 9 ∨ b = 13 ∨ b = 10 := by
  simp [isBlank, or_assoc]

theorem of_isDigit (h : c.isDigit = true) : c.toNat < 128 ∧ isDigit (Text.byte c) = true := by
  have hrange : 48 ≤ c.toNat ∧ c.toNat ≤ 57 := by
    simpa [Char.isDigit, UInt32.le_iff_toNat_le] using h
  have hlt : c.toNat < 128 := by omega
  exact ⟨hlt, isDigit_iff.mpr (by rw [Text.toNat_byte hlt]; exact hrange)⟩

theorem of_isNameStart (h : isNameStart c = true) :
    c.toNat < 128 ∧ isLetter (Text.byte c) = true := by
  have hrange : (65 ≤ c.toNat ∧ c.toNat ≤ 90 ∨ 97 ≤ c.toNat ∧ c.toNat ≤ 122) ∨ c.toNat = 95 := by
    refine (Bool.or_eq_true_iff.mp h).imp (fun h => ?_) fun h => ?_
    · have hval : (decide (c.val ≥ 'A'.val ∧ c.val ≤ 'Z'.val) ||
          decide (c.val ≥ 'a'.val) && decide (c.val ≤ 'z'.val)) = true := h
      simpa [UInt32.le_iff_toNat_le] using hval
    · rw [eq_of_beq h]
      rfl
  have hlt : c.toNat < 128 := by omega
  exact ⟨hlt, isLetter_iff.mpr (by rw [Text.toNat_byte hlt]; omega)⟩

theorem of_isNamePart (h : isNamePart c = true) :
    c.toNat < 128 ∧ isWordPart (Text.byte c) = true := by
  unfold isWordPart
  rcases Bool.or_eq_true_iff.mp h with h | h
  · obtain ⟨hlt, hletter⟩ := of_isNameStart h
    exact ⟨hlt, by rw [hletter, Bool.true_or]⟩
  · obtain ⟨hlt, hdigit⟩ := of_isDigit h
    exact ⟨hlt, by rw [hdigit, Bool.or_true]⟩

end Byte

end RecordLang
