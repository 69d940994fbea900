/-!
# Text and its bytes

The UTF-8 bytes of a text as a list, and back. Decoding is total: bytes that are no UTF-8 text
still give one, with U+FFFD in the place of what cannot be read.
-/

namespace RecordLang.Text

/-- The UTF-8 bytes of a text. -/
def utf8 (s : String) : List UInt8 := s.toList.flatMap String.utf8EncodeChar

/-- The text whose UTF-8 bytes these are, if there is one. -/
def ofUtf8? (bytes : List UInt8) : Option String := String.fromUTF8? ⟨bytes.toArray⟩

/-- The character shown for a byte of a text that cannot be decoded. -/
def replaced (b : UInt8) : Char := if b < 128 then Char.ofUInt8 b else Char.ofNat 0xFFFD

/-- The text of some bytes. Where they are not UTF-8, every byte outside ASCII is replaced. -/
def ofUtf8 (bytes : List UInt8) : String :=
  (ofUtf8? bytes).getD (String.ofList (bytes.map replaced))

/-- The text of bytes that are all ASCII. -/
def ofAscii (bytes : List UInt8) : String := String.ofList (bytes.map Char.ofUInt8)

end RecordLang.Text
