import RecordLang.Token.Basic
import RecordLang.Token.Fault
import RecordLang.Decimal.Reader

/-!
# From bytes to tokens

The text is read as UTF-8 bytes. Every step takes one token, or one character that begins none, off
the front; what it takes is the longest run that makes a token. Faults do not stop the reading until
as many were found as are stored.
-/

namespace RecordLang

namespace Byte

/-- The ASCII character of a byte; a byte outside ASCII gives a character that is no part of any
token but a string. -/
def glyph (b : UInt8) : Char := Char.ofUInt8 b

def newline : UInt8 := 10
def quote : UInt8 := 34
def slash : UInt8 := 47
def point : UInt8 := 46
def backslash : UInt8 := 92

def isBlank (b : UInt8) : Bool := b == 32 || b == 9 || b == 13 || b == 10

def isDigit (b : UInt8) : Bool := 48 ≤ b && b ≤ 57

def isLetter (b : UInt8) : Bool := 97 ≤ b && b ≤ 122 || 65 ≤ b && b ≤ 90 || b == 95

def isWordPart (b : UInt8) : Bool := isLetter b || isDigit b

/-- A byte that goes on with a character of several bytes. -/
def isContinuation (b : UInt8) : Bool := 128 ≤ b && b < 192

/-- The byte that an escape sequence stands for, by the byte after its backslash. -/
def unescape? (b : UInt8) : Option UInt8 :=
  match glyph b with
  | '"' => some quote
  | '\\' => some backslash
  | 'n' => some 10
  | 't' => some 9
  | 'r' => some 13
  | _ => none

end Byte

namespace Lexer

/-- A fault in the spelling of a token. -/
abbrev Fault := Located LexicalCause

/-- What has not been read yet, and its position. -/
structure Input where
  here : Position
  rest : List UInt8
  deriving DecidableEq, Repr

/-- The input after a run of bytes at its front. -/
def Input.after (start : Position) (lexeme rest : List UInt8) : Input := ⟨start.past lexeme, rest⟩

/-! ### Blanks and comments -/

/-- The rest of the line of a comment is skipped; `inside` says that one is being skipped. -/
def skipBlanks (inside : Bool) (here : Position) : List UInt8 → Input
  | [] => ⟨here, []⟩
  | b :: rest =>
    if inside && b != Byte.newline then skipBlanks true (here.next b) rest
    else if Byte.isBlank b then skipBlanks false (here.next b) rest
    else if b == Byte.slash && rest.head? == some Byte.slash then
      skipBlanks true (here.next b) rest
    else ⟨here, b :: rest⟩

/-- The input without the blanks and comments at its front. -/
def Input.trim (i : Input) : Input := skipBlanks false i.here i.rest

theorem length_skipBlanks (inside : Bool) (here : Position) (bytes : List UInt8) :
    (skipBlanks inside here bytes).rest.length ≤ bytes.length := by
  induction bytes generalizing inside here with
  | nil => simp [skipBlanks]
  | cons b rest ih =>
    unfold skipBlanks
    split
    · exact Nat.le_succ_of_le (ih _ _)
    · split
      · exact Nat.le_succ_of_le (ih _ _)
      · split
        · exact Nat.le_succ_of_le (ih _ _)
        · exact Nat.le_refl _

theorem Input.length_trim (i : Input) : i.trim.rest.length ≤ i.rest.length :=
  length_skipBlanks _ _ _

/-! ### Single tokens -/

/-- One step of reading: the token found, if the bytes made one, the faults met on the way, and
the input after it. -/
structure Step where
  kind : Option Kind
  faults : List Fault
  next : Input

/-- A lexeme without faults. -/
def Step.plain (start : Position) (kind : Kind) (lexeme rest : List UInt8) : Step :=
  ⟨some kind, [], .after start lexeme rest⟩

/-- A string literal after its opening quote: its bytes, its faults, and the input after it. -/
structure Quoted where
  bytes : List UInt8
  faults : List Fault
  next : Input

def Quoted.cons (b : UInt8) (q : Quoted) : Quoted := { q with bytes := b :: q.bytes }

def Quoted.fault (f : Fault) (q : Quoted) : Quoted := { q with faults := f :: q.faults }

/-- A string that was opened at `start` and is not closed before `here`. -/
def unterminated (start here : Position) : Fault := ⟨.unterminatedString, .between start here⟩

/-- A string literal runs up to the next quote that is not escaped, or to the end of its line. A
backslash belongs together with the byte after it, even a line feed; one that begins no escape
sequence is dropped, and the byte is kept. -/
def quoted (start here : Position) : List UInt8 → Quoted
  | [] => ⟨[], [unterminated start here], ⟨here, []⟩⟩
  | b :: rest =>
    if b = Byte.newline then ⟨[], [unterminated start here], ⟨here, b :: rest⟩⟩
    else if b = Byte.quote then ⟨[], [], ⟨here.next b, rest⟩⟩
    else if b = Byte.backslash then
      match rest with
      | [] =>
        let stop := here.next b
        ⟨[], [⟨.escapeAtEnd, .between here stop⟩, unterminated start stop], ⟨stop, []⟩⟩
      | e :: rest =>
        let stop := (here.next b).next e
        match Byte.unescape? e with
        | some v => (quoted start stop rest).cons v
        | none =>
          ((quoted start stop rest).cons e).fault ⟨.invalidEscape e, .between here stop⟩
    else (quoted start (here.next b) rest).cons b

/-- The string literal whose opening quote was at `start`. -/
def stringStep (start : Position) (rest : List UInt8) : Step :=
  let q := quoted start (start.next Byte.quote) rest
  ⟨some (.string (Text.ofUtf8 q.bytes)), q.faults, q.next⟩

/-- The value of a run of digits. -/
def digitsValue (digits : List UInt8) : Nat := Decimal.value (digits.map Byte.glyph)

/-- The digits behind a point at the front. -/
def decimalPlaces : List UInt8 → List UInt8
  | [] => []
  | p :: rest => if p = Byte.point then rest.takeWhile Byte.isDigit else []

/-- A number is a run of digits. A point belongs to it only with a digit after it. A whole number
that does not fit in 64 bits with a sign is a fault, and reads as zero. -/
def numberStep (start : Position) (bytes : List UInt8) : Step :=
  let whole := bytes.takeWhile Byte.isDigit
  let rest := bytes.dropWhile Byte.isDigit
  let places := decimalPlaces rest
  if places.isEmpty then
    let n := digitsValue whole
    if n < Nat.pow 2 63 then .plain start (.int n) whole rest
    else
      let next : Input := .after start whole rest
      ⟨some (.int 0), [⟨.integerTooLarge whole, .between start next.here⟩], next⟩
  else
    let value := Binary64.ofDigits (digitsValue (whole ++ places)) places.length
    .plain start (.float value) (whole ++ Byte.point :: places) (rest.drop (places.length + 1))

/-- A word is a run of letters and digits. -/
def wordStep (start : Position) (bytes : List UInt8) : Step :=
  let word := bytes.takeWhile Byte.isWordPart
  .plain start (.ofWord (Text.ofAscii word)) word (bytes.dropWhile Byte.isWordPart)

/-- A character that begins no token is taken whole and is a fault. -/
def strayStep (start : Position) (b : UInt8) (rest : List UInt8) : Step :=
  let stray := b :: rest.takeWhile Byte.isContinuation
  let next : Input := .after start stray (rest.dropWhile Byte.isContinuation)
  ⟨none, [⟨.unexpected stray, .between start next.here⟩], next⟩

/-- The symbol that a byte makes with the one after it. -/
def pair? (b : UInt8) (rest : List UInt8) : Option Symbol :=
  rest.head?.bind fun c => Symbol.double? (Byte.glyph b) (Byte.glyph c)

/-- A symbol of two characters wins over one of a single character. -/
def symbolStep (start : Position) (b : UInt8) (rest : List UInt8) : Step :=
  match pair? b rest with
  | some x => .plain start (.symbol x) (b :: rest.take 1) (rest.drop 1)
  | none =>
    match Symbol.single? (Byte.glyph b) with
    | some x => .plain start (.symbol x) [b] rest
    | none => strayStep start b rest

/-- The step at a byte that is no blank. -/
def step (start : Position) (b : UInt8) (rest : List UInt8) : Step :=
  if b = Byte.quote then stringStep start rest
  else if Byte.isDigit b then numberStep start (b :: rest)
  else if Byte.isLetter b then wordStep start (b :: rest)
  else symbolStep start b rest

/-! ### Every step reads at least one byte -/

theorem length_dropWhile_le {α : Type} (p : α → Bool) (l : List α) :
    (l.dropWhile p).length ≤ l.length :=
  (List.dropWhile_sublist p).length_le

theorem length_quoted (start here : Position) (bytes : List UInt8) :
    (quoted start here bytes).next.rest.length ≤ bytes.length := by
  fun_induction quoted start here bytes <;>
    simp_all [Quoted.cons, Quoted.fault] <;> omega

theorem length_numberStep (start : Position) (b : UInt8) (rest : List UInt8)
    (h : Byte.isDigit b = true) :
    (numberStep start (b :: rest)).next.rest.length ≤ rest.length := by
  have hd := length_dropWhile_le Byte.isDigit rest
  unfold numberStep
  simp only [List.dropWhile_cons, h, if_true]
  split
  · split <;> exact hd
  · simp only [Step.plain, Input.after, List.length_drop]; omega

theorem length_wordStep (start : Position) (b : UInt8) (rest : List UInt8)
    (h : Byte.isLetter b = true) :
    (wordStep start (b :: rest)).next.rest.length ≤ rest.length := by
  simpa [wordStep, Step.plain, Input.after, List.dropWhile_cons, Byte.isWordPart, h] using
    length_dropWhile_le Byte.isWordPart rest

theorem length_symbolStep (start : Position) (b : UInt8) (rest : List UInt8) :
    (symbolStep start b rest).next.rest.length ≤ rest.length := by
  unfold symbolStep
  split
  · simp [Step.plain, Input.after]
  · split
    · exact Nat.le_refl _
    · exact length_dropWhile_le _ _

theorem length_step (start : Position) (b : UInt8) (rest : List UInt8) :
    (step start b rest).next.rest.length ≤ rest.length := by
  unfold step
  split
  · exact length_quoted _ _ _
  · split
    · exact length_numberStep _ _ _ ‹_›
    · split
      · exact length_wordStep _ _ _ ‹_›
      · exact length_symbolStep _ _ _

/-! ### The whole text -/

/-- The tokens of an input, the end of the text included, with the faults found so far before
those found on the way. Reading ends early once the store of faults is full. After a character that
begins no token, blanks are skipped before that is looked at. -/
def tokens (i : Input) (faults : Capped Fault) : List Token × Capped Fault :=
  if faults.full then ([⟨.eof, .point i.here⟩], faults)
  else
    match _h : i.trim.rest with
    | [] => ([⟨.eof, .point i.trim.here⟩], faults)
    | b :: rest =>
      let s := step i.trim.here b rest
      let faults := faults.pushAll s.faults
      match s.kind with
      | none => tokens s.next.trim faults
      | some kind =>
        let (ts, faults) := tokens s.next faults
        (⟨kind, .between i.trim.here s.next.here⟩ :: ts, faults)
termination_by i.rest.length
decreasing_by
  all_goals
    have h1 := i.length_trim
    have h2 := length_step i.trim.here b rest
    have h3 := (step i.trim.here b rest).next.length_trim
    simp only [_h, List.length_cons] at h1
    omega

end Lexer

/-- The tokens of a text, with the faults in its spelling. -/
structure Lexed where
  tokens : List Token
  faults : Capped Lexer.Fault

/-- Reads the tokens of a text. -/
def lex (bytes : List UInt8) : Lexed :=
  let (tokens, faults) := Lexer.tokens ⟨.origin, bytes⟩ .empty
  ⟨tokens, faults⟩

namespace Source

/-- The tokens of a source. -/
def lex (s : Source) : Lexed := RecordLang.lex s.bytes

/-- The faults in the spelling of a source, as they are reported. -/
def lexDiagnostics (s : Source) : Diagnostics := s.lex.faults.map (.ofFault s)

end Source

end RecordLang
