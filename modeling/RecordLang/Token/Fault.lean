import RecordLang.Diagnostic.Basic
import RecordLang.Text.Utf8

/-!
# Faults in the spelling of tokens
-/

namespace RecordLang

/-- What can be wrong with the characters of a text. -/
inductive LexicalCause where
  | unexpected (bytes : List UInt8)
  | integerTooLarge (digits : List UInt8)
  | unterminatedString
  | invalidEscape (byte : UInt8)
  | escapeAtEnd
  deriving DecidableEq, Repr

namespace LexicalCause

def code : LexicalCause → Code
  | unexpected _ | invalidEscape _ => .unexpected
  | integerTooLarge _ => .badLiteral
  | unterminatedString | escapeAtEnd => .unclosed

/-- An invalid escape names the byte after the backslash as if it were a character. -/
def message : LexicalCause → String
  | unexpected bytes => s!"Unexpected character '{Text.ofUtf8 bytes}'"
  | integerTooLarge digits =>
    s!"Integer literal '{Text.ofAscii digits}' does not fit in 64 bits"
  | unterminatedString => "Unterminated string literal"
  | invalidEscape byte => "Invalid escape sequence '\\" ++ Text.ofAscii [byte] ++ "'"
  | escapeAtEnd => "Unexpected end of file in escape sequence"

end LexicalCause

instance : Explained LexicalCause := ⟨LexicalCause.code, LexicalCause.message⟩

end RecordLang
