import RecordLang.Source.Span
import RecordLang.Decimal.Style
import RecordLang.Text.Quoted

/-!
# Tokens

The words of the language: literals, identifiers, reserved words, symbols and the end of the text.
Every kind has a text, as it stands in messages, and a name, as it stands in dumps.
-/

namespace RecordLang

/-- The reserved words. -/
inductive Keyword where
  | let_ | while_ | if_ | else_ | return_ | fn | struct | and_ | or_ | true_ | false_ | null
  deriving DecidableEq, Repr

namespace Keyword

def all : List Keyword :=
  [let_, while_, if_, else_, return_, fn, struct, and_, or_, true_, false_, null]

def text : Keyword → String
  | let_ => "let"
  | while_ => "while"
  | if_ => "if"
  | else_ => "else"
  | return_ => "return"
  | fn => "fn"
  | struct => "struct"
  | and_ => "and"
  | or_ => "or"
  | true_ => "true"
  | false_ => "false"
  | null => "null"

def name : Keyword → String
  | let_ => "Let"
  | while_ => "While"
  | if_ => "If"
  | else_ => "Else"
  | return_ => "Return"
  | fn => "Fn"
  | struct => "Struct"
  | and_ => "And"
  | or_ => "Or"
  | true_ => "True"
  | false_ => "False"
  | null => "Null"

/-- The reserved word with this text. -/
def ofText? (s : String) : Option Keyword := all.find? fun k => k.text == s

theorem ofText?_text (k : Keyword) : ofText? k.text = some k := by cases k <;> decide

end Keyword

/-- Operators and punctuation. -/
inductive Symbol where
  | plus | minus | star | slash | bang | eq | eqEq | bangEq | less | lessEq | greater | greaterEq
  | arrow | fatArrow | question | openParen | closeParen | openBrace | closeBrace | comma | dot
  | colon
  deriving DecidableEq, Repr

namespace Symbol

def all : List Symbol :=
  [plus, minus, star, slash, bang, eq, eqEq, bangEq, less, lessEq, greater, greaterEq, arrow,
   fatArrow, question, openParen, closeParen, openBrace, closeBrace, comma, dot, colon]

def text : Symbol → String
  | plus => "+"
  | minus => "-"
  | star => "*"
  | slash => "/"
  | bang => "!"
  | eq => "="
  | eqEq => "=="
  | bangEq => "!="
  | less => "<"
  | lessEq => "<="
  | greater => ">"
  | greaterEq => ">="
  | arrow => "->"
  | fatArrow => "=>"
  | question => "?"
  | openParen => "("
  | closeParen => ")"
  | openBrace => "\x7b"
  | closeBrace => "\x7d"
  | comma => ","
  | dot => "."
  | colon => ":"

def name : Symbol → String
  | plus => "Plus"
  | minus => "Minus"
  | star => "Star"
  | slash => "Slash"
  | bang => "Bang"
  | eq => "Eq"
  | eqEq => "EqEq"
  | bangEq => "BangEq"
  | less => "Less"
  | lessEq => "LessEq"
  | greater => "Greater"
  | greaterEq => "GreaterEq"
  | arrow => "Arrow"
  | fatArrow => "FatArrow"
  | question => "Question"
  | openParen => "LParen"
  | closeParen => "RParen"
  | openBrace => "LBrace"
  | closeBrace => "RBrace"
  | comma => "Comma"
  | dot => "Dot"
  | colon => "Colon"

/-- The symbol with this text. -/
def ofText? (s : String) : Option Symbol := all.find? fun x => x.text == s

theorem ofText?_text (x : Symbol) : ofText? x.text = some x := by cases x <;> decide

/-- The symbol that two characters make together. -/
def double? : Char → Char → Option Symbol
  | '-', '>' => some arrow
  | '=', '=' => some eqEq
  | '=', '>' => some fatArrow
  | '!', '=' => some bangEq
  | '<', '=' => some lessEq
  | '>', '=' => some greaterEq
  | _, _ => none

/-- The symbol that one character makes alone. -/
def single? : Char → Option Symbol
  | '+' => some plus
  | '-' => some minus
  | '*' => some star
  | '/' => some slash
  | '!' => some bang
  | '=' => some eq
  | '<' => some less
  | '>' => some greater
  | '?' => some question
  | '(' => some openParen
  | ')' => some closeParen
  | '\x7b' => some openBrace
  | '\x7d' => some closeBrace
  | ',' => some comma
  | '.' => some dot
  | ':' => some colon
  | _ => none

end Symbol

/-- What a token is. -/
inductive Kind where
  | int (value : Int)
  | float (value : Binary64)
  | string (value : String)
  | ident (name : String)
  | keyword (word : Keyword)
  | symbol (mark : Symbol)
  | eof
  deriving DecidableEq, Repr, Inhabited

namespace Kind

/-- The word for a kind in messages. -/
def text : Kind → String
  | int n => toString n
  | float x => x.render .plain
  | string s => "\"" ++ s ++ "\""
  | ident s => s
  | keyword k => k.text
  | symbol x => x.text
  | eof => "end of file"

/-- The kind as it stands in dumps. -/
def dump : Kind → String
  | int n => s!"IntLit({n})"
  | float x => s!"FloatLit({x.render .exact})"
  | string s => s!"StringLit({Text.quote s})"
  | ident s => s!"Identifier({Text.quote s})"
  | keyword k => k.name
  | symbol x => x.name
  | eof => "Eof"

def isKeyword : Kind → Bool
  | keyword _ => true
  | _ => false

/-- A statement other than an expression begins with this kind; reading goes on at such a token
after a fault. -/
def startsStatement : Kind → Bool
  | keyword .let_ | keyword .while_ | keyword .if_ | keyword .return_ | keyword .struct => true
  | symbol .openBrace => true
  | _ => false

/-- The reserved word with this text, or else an identifier. -/
def ofWord (s : String) : Kind :=
  match Keyword.ofText? s with
  | some k => keyword k
  | none => ident s

end Kind

/-- A kind at its place in the text. -/
structure Token where
  kind : Kind
  span : Span
  deriving DecidableEq, Repr, Inhabited

end RecordLang
