import RecordLang.Program.Fault
import RecordLang.Program.Tree

/-!
# Reading tokens

A cursor stands at a token, knows the span of the one before it and the tokens ahead, and carries
the faults found so far. A parser moves a cursor forward and yields a value, or nothing once it has
reported a fault; the cursor stays where the fault was met. The last token is the end of the text,
and a cursor does not move past it.
-/

namespace RecordLang

/-- A place in a list of tokens. -/
structure Cursor where
  last : Span
  current : Token
  ahead : List Token
  faults : Capped (Located GrammarCause)

namespace Cursor

/-- The tokens after `t`, with the end of the text behind them if it is missing. -/
def closed (t : Token) : List Token → List Token
  | [] => if t.kind = .eof then [] else [⟨.eof, t.span⟩]
  | u :: us => u :: closed u us

/-- The cursor at the first of some tokens. -/
def ofTokens : List Token → Cursor
  | [] => ⟨.point .origin, ⟨.eof, .point .origin⟩, [], .empty⟩
  | t :: ts => ⟨.point .origin, t, closed t ts, .empty⟩

def kind (c : Cursor) : Kind := c.current.kind

/-- How many tokens are ahead. -/
def remaining (c : Cursor) : Nat := c.ahead.length

/-- Moves to the next token, if there is one. -/
def advance (c : Cursor) : Cursor :=
  match c.ahead with
  | [] => c
  | t :: ts => { c with last := c.current.span, current := t, ahead := ts }

/-- The cursor stands at this symbol. -/
def sees (c : Cursor) (x : Symbol) : Bool := c.kind == .symbol x

def atEnd (c : Cursor) : Bool := c.kind == .eof

/-- The kind of the token `n` places ahead; the first one is at place zero. -/
def peekAhead (c : Cursor) (n : Nat) : Kind := (c.ahead[n]?.map Token.kind).getD .eof

/-- Reports a fault at the current token. -/
def report (c : Cursor) (cause : GrammarCause) : Cursor :=
  { c with faults := c.faults.push ⟨cause, c.current.span⟩ }

/-! ### Going on after a fault -/

/-- Reading goes on at this kind of token. -/
def resumes (k : Kind) : Bool := k.startsStatement || k == .symbol .closeBrace || k == .eof

/-- The last span, the current token and the tokens ahead at the next place to go on. -/
def skipTo (last : Span) (current : Token) : List Token → Span × Token × List Token
  | [] => (last, current, [])
  | t :: ts =>
    if resumes current.kind then (last, current, t :: ts) else skipTo current.span t ts

/-- Moves to the next place to go on. -/
def skip (c : Cursor) : Cursor :=
  let (last, current, ahead) := skipTo c.last c.current c.ahead
  { c with last, current, ahead }

/-- Moves to the next place to go on after a statement that began at `start` has failed. At least
one token is passed over. -/
def resync (c start : Cursor) : Cursor :=
  if c.remaining = start.remaining && !c.atEnd then c.advance.skip else c.skip

end Cursor

/-- Reads a value at a cursor. -/
def Parser (α : Type) : Type := Cursor → Option α × Cursor

namespace Parser

variable {α β : Type}

instance : Monad Parser where
  pure a := fun c => (some a, c)
  bind p f := fun c =>
    match p c with
    | (some a, c) => f a c
    | (none, c) => (none, c)

@[simp] theorem pure_apply (a : α) (c : Cursor) : (pure a : Parser α) c = (some a, c) := rfl

theorem bind_apply (p : Parser α) (f : α → Parser β) (c : Cursor) :
    (p >>= f) c = match p c with
      | (some a, c) => f a c
      | (none, c) => (none, c) := rfl

/-! ### Single tokens -/

/-- The kind of the current token. -/
def peek : Parser Kind := fun c => (some c.kind, c)

/-- The span of the current token. -/
def here : Parser Span := fun c => (some c.current.span, c)

def advance : Parser Unit := fun c => (some (), c.advance)

/-- Reports a fault at the current token. -/
def fail (cause : GrammarCause) : Parser α := fun c => (none, c.report cause)

/-- Reads a token of this kind. -/
def expect (k : Kind) : Parser Unit := do
  let got ← peek
  if got = k then advance else fail (.expected k got)

/-- Reads a symbol. -/
def symbol (x : Symbol) : Parser Unit := expect (.symbol x)

/-- Reads a token of this kind if the cursor stands at one. -/
def eat (k : Kind) : Parser Bool := do
  if (← peek) = k then
    advance
    pure true
  else pure false

def identifier : Parser Ident := do
  let span ← here
  match ← peek with
  | .ident name =>
    advance
    pure ⟨name, span⟩
  | k => fail (.expectedIdentifier k)

/-! ### Combinators -/

/-- Gives a value the span from the current token to the last one that is read for it. -/
def spanned (p : Parser (Span → α)) : Parser α := fun c =>
  match p c with
  | (some f, d) => (some (f (c.current.span.merge d.last)), d)
  | (none, d) => (none, d)

/-- Items with commas between them, up to a closing symbol; a comma may also follow the last item.
The closing symbol is not read. A round that reads nothing is the last one. -/
def items (close : Symbol) (item : Parser α) (c : Cursor) : Option (List α) × Cursor :=
  if c.sees close || c.atEnd then (some [], c)
  else
    match item c with
    | (none, d) => (none, d)
    | (some a, d) =>
      if d.sees .comma then
        if _h : d.advance.remaining < c.remaining then
          match items close item d.advance with
          | (some as, e) => (some (a :: as), e)
          | (none, e) => (none, e)
        else (some [a], d.advance)
      else (some [a], d)
termination_by c.remaining

/-- Statements up to a token that ends them, or until the store of faults is full. After a
statement that has failed, reading goes on at the next place where one can begin. -/
def statements (ends : Kind → Bool) (statement : Parser Stmt) (c : Cursor) : List Stmt × Cursor :=
  if ends c.kind || c.faults.full then ([], c)
  else
    match statement c with
    | (some s, d) =>
      if _h : d.remaining < c.remaining then
        let (ss, e) := statements ends statement d
        (s :: ss, e)
      else ([s], d)
    | (none, d) =>
      if _h : (d.resync c).remaining < c.remaining then
        statements ends statement (d.resync c)
      else ([], d.resync c)
termination_by c.remaining

end Parser

end RecordLang
