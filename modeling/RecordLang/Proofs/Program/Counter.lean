import RecordLang.Proofs.Program.Progress

/-!
# Counting levels

A grammar is the parsers of one nesting depth, so no parser of it counts levels. Here the same texts
are read by a machine that does count them. It keeps one number, which is raised to enter a level and
lowered to leave it. A level is refused after the number was raised, and then the number is lowered
again. A chain of operators, or of calls and member accesses, raises the number once for each of them
and lowers it as often behind the chain, where that has failed too.

The machine does what the parsers do and leaves the number as it was
(`CountedGrammar.covers_counting`). Wherever one of its parsers is called or returns, the number is
not lower than at first and not above the limit.
-/

namespace RecordLang

/-! ### The number of open levels -/

/-- What is noted of the number of open levels. -/
inductive Gauge.Mark where
  /-- It was this when a parser was called or returned. -/
  | seen (v : Int)
  /-- It was set to this. -/
  | set (v : Int)
  deriving DecidableEq, Repr

/-- The number of open levels, and what was noted of it before, from the last to the first. -/
structure Gauge where
  now : Int
  past : List Gauge.Mark

namespace Gauge

def note (g : Gauge) : Gauge := ⟨g.now, .seen g.now :: g.past⟩

def set (g : Gauge) (v : Int) : Gauge := ⟨v, .set v :: g.past⟩

variable {low : Int} {g h m : Gauge} {j k : Nat}

/-- The number is not lower than `low` and not above the limit, with one exception: for a level that
is refused it is set to one above the limit, and then at once to the limit again. -/
inductive Trail (low : Int) : List Mark → Prop
  | start : Trail low []
  | seen {v : Int} {rs : List Mark} (hlow : low ≤ v) (hmax : v ≤ GrammarCause.maxNesting)
    (rest : Trail low rs) : Trail low (.seen v :: rs)
  | set {v : Int} {rs : List Mark} (hlow : low ≤ v) (hmax : v ≤ GrammarCause.maxNesting)
    (rest : Trail low rs) : Trail low (.set v :: rs)
  | refused {v : Int} {rs : List Mark} (hlow : low ≤ v) (hmax : v = GrammarCause.maxNesting)
    (rest : Trail low rs) : Trail low (.set v :: .set (v + 1) :: rs)

namespace Trail

variable {rs rs' : List Mark} {v : Int}

theorem append (h : Trail low rs) (h' : Trail low rs') : Trail low (rs ++ rs') := by
  induction h with
  | start => exact h'
  | seen hlow hmax _ ih => exact .seen hlow hmax ih
  | set hlow hmax _ ih => exact .set hlow hmax ih
  | refused hlow hmax _ ih => exact .refused hlow hmax ih

theorem mono {low' : Int} (hle : low' ≤ low) (h : Trail low rs) : Trail low' rs := by
  induction h with
  | start => exact .start
  | seen hlow hmax _ ih => exact .seen (Int.le_trans hle hlow) hmax ih
  | set hlow hmax _ ih => exact .set (Int.le_trans hle hlow) hmax ih
  | refused hlow hmax _ ih => exact .refused (Int.le_trans hle hlow) hmax ih

/-- A parser is never called above the limit, and never returns there. -/
theorem of_seen (h : Trail low rs) (hv : .seen v ∈ rs) :
    low ≤ v ∧ v ≤ GrammarCause.maxNesting := by
  induction h with
  | start => cases hv
  | seen hlow hmax _ ih =>
    rcases List.mem_cons.mp hv with hv | hv
    · cases hv
      exact ⟨hlow, hmax⟩
    · exact ih hv
  | set _ _ _ ih => exact ih (by simpa using hv)
  | refused _ _ _ ih => exact ih (by simpa using hv)

end Trail

/-- What is noted between two moments is a trail. -/
def Keeps (low : Int) (g h : Gauge) : Prop := ∃ rs, h.past = rs ++ g.past ∧ Trail low rs

theorem Keeps.refl (low : Int) (g : Gauge) : Keeps low g g := ⟨[], rfl, .start⟩

theorem Keeps.trans (hgh : Keeps low g h) (hhm : Keeps low h m) : Keeps low g m := by
  obtain ⟨rs, hrs, htrail⟩ := hgh
  obtain ⟨rs', hrs', htrail'⟩ := hhm
  exact ⟨rs' ++ rs, by rw [hrs', hrs, List.append_assoc], htrail'.append htrail⟩

theorem Keeps.mono {low' : Int} (hle : low' ≤ low) (hgh : Keeps low g h) : Keeps low' g h := by
  obtain ⟨rs, hrs, htrail⟩ := hgh
  exact ⟨rs, hrs, htrail.mono hle⟩

theorem Keeps.note (hgh : Keeps low g h) (hlow : low ≤ h.now)
    (hmax : h.now ≤ GrammarCause.maxNesting) : Keeps low g h.note :=
  hgh.trans ⟨[.seen h.now], rfl, .seen hlow hmax .start⟩

theorem Keeps.set (hgh : Keeps low g h) {v : Int} (hlow : low ≤ v)
    (hmax : v ≤ GrammarCause.maxNesting) : Keeps low g (h.set v) :=
  hgh.trans ⟨[.set v], rfl, .set hlow hmax .start⟩

theorem Keeps.refused (hgh : Keeps low g h) {v : Int} (hlow : low ≤ v)
    (hmax : v = GrammarCause.maxNesting) : Keeps low g ((h.set (v + 1)).set v) :=
  hgh.trans ⟨[.set v, .set (v + 1)], rfl, .refused hlow hmax .start⟩

/-- The number is higher by `k` than it was, and in between it was never lower than at first. -/
structure Rises (k : Nat) (g h : Gauge) : Prop where
  now : h.now = g.now + k
  past : Keeps g.now g h

/-- The number is what it was, and in between it was never lower. -/
def Returns (g h : Gauge) : Prop := Rises 0 g h

theorem Rises.refl (g : Gauge) : Rises 0 g g := ⟨(Int.add_zero _).symm, .refl _ g⟩

theorem Rises.trans (hgh : Rises j g h) (hhm : Rises k h m) : Rises (j + k) g m := by
  obtain ⟨hnow, hpast⟩ := hgh
  obtain ⟨hnow', hpast'⟩ := hhm
  exact ⟨by omega, hpast.trans (hpast'.mono (by omega))⟩

theorem Returns.refl (g : Gauge) : Returns g g := Rises.refl g

theorem Returns.trans (hgh : Returns g h) (hhm : Returns h m) : Returns g m := Rises.trans hgh hhm

theorem Returns.now (h' : Returns g h) : h.now = g.now := by
  have hnow := Rises.now h'
  omega

end Gauge

/-! ### The machine -/

/-- Reads a value at a cursor and counts the levels. -/
def Counted (α : Type) : Type := Gauge → Cursor → Option α × Gauge × Cursor

namespace Counted

open RecordLang.Parser (advance peek here symbol eat identifier typeExpr typedName)

variable {α β : Type}

instance : Monad Counted where
  pure a := fun g c => (some a, g, c)
  bind q f := fun g c =>
    match q g c with
    | (some a, h, d) => f a h d
    | (none, h, d) => (none, h, d)

/-- Nothing is found. -/
def stop : Counted α := fun g c => (none, g, c)

/-- What was found, if anything. -/
def ofOption : Option α → Counted α
  | some a => pure a
  | none => stop

/-- Goes on also where nothing is found. -/
def attempt (q : Counted α) : Counted (Option α) := fun g c =>
  let (r, h, d) := q g c
  (some r, h, d)

/-- A parser that enters no level. -/
def lift (p : Parser α) : Counted α := fun g c => ((p c).1, g, (p c).2)

/-- The number is noted when a parser is called and when it returns. -/
def called (q : Counted α) : Counted α := fun g c =>
  let (r, h, d) := q g.note c
  (r, h.note, d)

/-! ### Entering and leaving levels -/

/-- Raises the number. If it is above the limit then, this is a fault, and the number is lowered
again. -/
def enter : Counted Bool := called fun g c =>
  let raised := g.set (g.now + 1)
  if raised.now > GrammarCause.maxNesting then
    (some false, raised.set (raised.now - 1), c.report .tooDeep)
  else (some true, raised, c)

/-- Lowers the number. -/
def leave : Counted Unit := called fun g c => (some (), g.set (g.now - 1), c)

/-- Lowers the number so many times. -/
def release : Nat → Counted Unit
  | 0 => pure ()
  | levels + 1 => do
    leave
    release levels

/-- Enters a level, if there is one more, and leaves it whatever was found. -/
def within (q : Counted α) : Counted α := do
  if ← enter then
    let r ← attempt q
    leave
    ofOption r
  else stop

/-- Goes on behind an expression as long as a step begins with the next token. Each step takes one
more level, and none of the levels is left here: they are counted. The first number bounds the
steps. -/
def climb (step? : Kind → Option (Expr → Counted Expr)) :
    Nat → Nat → Expr → Counted (Option Expr × Nat)
  | 0, levels, _ => pure (none, levels)
  | steps + 1, levels, e => do
    match step? (← lift peek) with
    | none => pure (some e, levels)
    | some step =>
      if ← enter then
        match ← attempt (step e) with
        | some next => climb step? steps (levels + 1) next
        | none => pure (none, levels + 1)
      else pure (none, levels)

/-- Goes on behind a first expression, and then leaves the levels that the steps took, also where one
of them has failed. Every step takes a level, so there are no more of them than levels. -/
def climbing (step? : Kind → Option (Expr → Counted Expr)) (first : Counted Expr) :
    Counted Expr := do
  let e ← first
  let (result, levels) ← climb step? (GrammarCause.maxNesting + 1) 0 e
  release levels
  ofOption result

/-! ### Statements and expressions, given the parsers for their parts -/

def spanned (q : Counted (Span → α)) : Counted α := fun g c =>
  match q g c with
  | (some f, h, d) => (some (f (c.current.span.merge d.last)), h, d)
  | (none, h, d) => (none, h, d)

def items (close : Symbol) (item : Counted α) (g : Gauge) (c : Cursor) :
    Option (List α) × Gauge × Cursor :=
  if c.sees close || c.atEnd then (some [], g, c)
  else
    match item g c with
    | (none, h, d) => (none, h, d)
    | (some a, h, d) =>
      if d.sees .comma then
        if _h : d.advance.remaining < c.remaining then
          match items close item h d.advance with
          | (some as, k, e) => (some (a :: as), k, e)
          | (none, k, e) => (none, k, e)
        else (some [a], h, d.advance)
      else (some [a], h, d)
termination_by c.remaining

def body (ends : Kind → Bool) (statement : Counted Stmt) (g : Gauge) (c : Cursor) :
    Option (List Stmt) × Gauge × Cursor :=
  if ends c.kind || c.faults.full then (some [], g, c)
  else
    match statement g c with
    | (some s, h, d) =>
      if _h : d.remaining < c.remaining then
        let (ss, k, e) := body ends statement h d
        (ss.map (s :: ·), k, e)
      else (some [s], h, d)
    | (none, h, d) =>
      if _h : (d.resync c).remaining < c.remaining then body ends statement h (d.resync c)
      else (some [], h, d.resync c)
termination_by c.remaining

section

variable (statement : Counted Stmt) (expression : Counted Expr)

def block : Counted Stmt := called <| spanned do
  lift (symbol .openBrace)
  let stmts ← body (fun k => k == .symbol .closeBrace || k == .eof) statement
  lift (symbol .closeBrace)
  pure (.block stmts)

def letStatement : Counted Stmt := called <| spanned do
  lift advance
  let name ← lift identifier
  lift (symbol .colon)
  let type ← lift typeExpr
  if ← lift (eat (.symbol .eq)) then
    let value ← expression
    pure (.let_ name type (some value))
  else pure (.let_ name type none)

def ifStatement : Counted Stmt := called <| spanned do
  lift advance
  let condition ← expression
  let whenTrue ← statement
  if ← lift (eat (.keyword .else_)) then
    let whenFalse ← statement
    pure (.if_ condition whenTrue (some whenFalse))
  else pure (.if_ condition whenTrue none)

def whileStatement : Counted Stmt := called <| spanned do
  lift advance
  let condition ← expression
  let body ← statement
  pure (.while_ condition body)

def returnStatement : Counted Stmt := called <| spanned do
  lift advance
  let next ← lift peek
  if Cursor.resumes next then pure (.return_ none)
  else
    let value ← expression
    pure (.return_ (some value))

def statementBody : Counted Stmt := do
  match ← lift peek with
  | .keyword .let_ => letStatement expression
  | .symbol .openBrace => block statement
  | .keyword .if_ => ifStatement statement expression
  | .keyword .while_ => whileStatement statement expression
  | .keyword .struct => called (lift Parser.structStatement)
  | .keyword .return_ => returnStatement expression
  | _ =>
    let value ← expression
    pure (.expr value value.span)

def functionLiteral : Counted Expr := called <| spanned do
  lift advance
  lift (symbol .openParen)
  let params ← lift (Parser.items .closeParen typedName)
  lift (symbol .closeParen)
  lift (symbol .colon)
  let result ← lift typeExpr
  lift (symbol .fatArrow)
  let body ← statement
  pure (.new (.function params result body))

def field : Counted (Ident × Expr) := do
  let field ← lift identifier
  lift (symbol .colon)
  let value ← expression
  pure (field, value)

def recordLiteral : Counted Expr := called <| spanned do
  let name ← lift identifier
  lift (symbol .openBrace)
  let fields ← items .closeBrace (field expression)
  lift (symbol .closeBrace)
  pure (.new (.record name fields))

def group : Counted Expr := spanned do
  lift advance
  let inner ← expression
  lift (symbol .closeParen)
  pure (.new (.group inner))

def named (name : String) : Counted Expr := fun g c =>
  if Parser.startsRecord name c then recordLiteral expression g c
  else (some (.new (.variable name) c.current.span), g, c.advance)

def primary : Counted Expr := called do
  let span ← lift here
  let k ← lift peek
  match Literal.ofKind? k with
  | some l =>
    lift advance
    pure (.new (.literal l) span)
  | none =>
    match k with
    | .symbol .openParen => group expression
    | .ident name => named expression name
    | _ => lift (Parser.fail (.expectedExpression k))

def suffix (e : Expr) : Counted Expr := called do
  if ← lift (eat (.symbol .dot)) then
    let field ← lift identifier
    pure (.new (.get e field) (e.span.merge field.span))
  else
    lift (symbol .openParen)
    let args ← items .closeParen expression
    let close ← lift here
    lift (symbol .closeParen)
    pure (.new (.call e args) (e.span.merge close))

/-- A primary expression with the calls and member accesses behind it. -/
def call : Counted Expr := called <| climbing
  (fun k => if k = .symbol .openParen ∨ k = .symbol .dot then some (suffix expression) else none)
  (primary expression)

def function : Counted Expr := called do
  if (← lift peek) = .keyword .fn then functionLiteral statement else call expression

end

/-- The operators of a level between their operands. -/
def leftAssoc (level : Nat) (operand : Counted Expr) : Counted Expr := called <| climbing
  (fun k => (Operator.at? level k).map fun op left => do
    lift advance
    let right ← operand
    pure (op.apply left right))
  operand

end Counted

/-- The parsers of the machine that are called behind an entered level. -/
structure CountedGrammar where
  statement : Counted Stmt
  expression : Counted Expr
  unary : Counted Expr

namespace CountedGrammar

open Counted

def operand (q : CountedGrammar) : Nat → Counted Expr
  | 0 => q.unary
  | level + 1 => leftAssoc level (q.operand level)

section

variable (inner : CountedGrammar)

def statementAround : Counted Stmt := called <|
  within (statementBody inner.statement inner.expression)

def expressionAround : Counted Expr := called <| within (inner.operand Operator.levels)

def unaryAround : Counted Expr := called do
  let start ← lift Parser.here
  match UnaryOp.ofKind? (← lift Parser.peek) with
  | some op =>
    lift Parser.advance
    let operand ← within inner.unary
    pure (.new (.unary op operand) (start.merge operand.span))
  | none => function (statementAround inner) (expressionAround inner)

def around : CountedGrammar where
  statement := statementAround inner
  expression := expressionAround inner
  unary := unaryAround inner

end

/-- Nothing is read and nothing is reported. -/
def idle : CountedGrammar := ⟨stop, stop, stop⟩

/-- The machine, with a bound on its recursion that is not reached if it is above the limit. -/
def counting : Nat → CountedGrammar
  | 0 => idle
  | n + 1 => around (counting n)

def full : CountedGrammar := counting (GrammarCause.maxNesting + 1)

end CountedGrammar

/-! ### The same parts of a grammar -/

namespace Grammar

/-- A primary expression with the calls and member accesses behind it. -/
def call (g : Grammar) : Parser Expr := do g.suffixes (← Parser.primary g.expression)

def function (g : Grammar) : Parser Expr := do
  if (← Parser.peek) = .keyword .fn then Parser.functionLiteral g.statement else g.call

theorem suffixes_allowing (n : Nat) (e : Expr) : (allowing n).suffixes e = (do
    let k ← Parser.peek
    if k = .symbol .openParen ∨ k = .symbol .dot then
      nested (inner n) fun g => do g.suffixes (← Parser.suffix g.expression e)
    else pure e) := by
  rw [allowing_eq]
  refine congrArg (Parser.peek >>= ·) (funext fun k => ?_)
  split
  · rfl
  · rfl
  · next hparen hdot => rw [if_neg (not_or.mpr ⟨hparen, hdot⟩)]

theorem unary_allowing (n : Nat) : (allowing n).unary = (do
    let start ← Parser.here
    match UnaryOp.ofKind? (← Parser.peek) with
    | some op =>
      Parser.advance
      let operand ← nested (inner n) fun g => g.unary
      pure (.new (.unary op operand) (start.merge operand.span))
    | none => (allowing n).function) := by
  rw [allowing_eq]
  refine congrArg (Parser.here >>= ·) (funext fun start => funext fun c => ?_)
  rw [Parser.bind_apply, Parser.bind_apply]
  simp only [Parser.peek]
  cases UnaryOp.ofKind? c.kind with
  | some op => rfl
  | none => rfl

end Grammar

/-! ### Levels are entered and left -/

namespace Counted

variable {α β : Type} {g h : Gauge} {c d : Cursor}

theorem bind_apply (q : Counted α) (f : α → Counted β) (g : Gauge) (c : Cursor) :
    (q >>= f) g c = match q g c with
      | (some a, h, d) => f a h d
      | (none, h, d) => (none, h, d) := rfl

theorem bind_of_some {q : Counted α} {f : α → Counted β} {a : α} (hq : q g c = (some a, h, d)) :
    (q >>= f) g c = f a h d := by
  rw [bind_apply, hq]

theorem bind_of_none {q : Counted α} {f : α → Counted β} (hq : q g c = (none, h, d)) :
    (q >>= f) g c = (none, h, d) := by
  rw [bind_apply, hq]

theorem attempt_of_eq {q : Counted α} {r : Option α} (hq : q g c = (r, h, d)) :
    attempt q g c = (some r, h, d) := by
  rw [attempt, hq]

theorem ofOption_apply (r : Option α) : ofOption r g c = (r, g, c) := by
  cases r <;> rfl

theorem exists_enter (hg : g.now < GrammarCause.maxNesting) (c : Cursor) :
    ∃ h, enter g c = (some true, h, c) ∧ g.Rises 1 h := by
  have hfits : ¬(g.note.set (g.note.now + 1)).now > GrammarCause.maxNesting := by
    show ¬g.now + 1 > _
    omega
  refine ⟨(g.note.set (g.now + 1)).note, ?_, rfl, ?_⟩
  · simp only [enter, called, if_neg hfits]
    rfl
  · have hcalled := (Gauge.Keeps.refl g.now g).note (Int.le_refl _) (by omega)
    exact (hcalled.set (by omega) (by omega)).note (by show g.now ≤ g.now + 1; omega)
      (by show g.now + 1 ≤ _; omega)

/-- A level that is refused is not open afterwards, although the number was raised for it. -/
theorem exists_enter_full (hg : g.now = GrammarCause.maxNesting) (c : Cursor) :
    ∃ h, enter g c = (some false, h, c.report .tooDeep) ∧ g.Returns h := by
  have hraised : (g.note.set (g.note.now + 1)).now > GrammarCause.maxNesting := by
    show g.now + 1 > _
    omega
  refine ⟨((g.note.set (g.now + 1)).set g.now).note, ?_, (Int.add_zero _).symm, ?_⟩
  · have hback : (g.note.set (g.note.now + 1)).now - 1 = g.now := Int.add_sub_cancel g.now 1
    simp only [enter, called, if_pos hraised, hback]
    rfl
  · have hcalled := (Gauge.Keeps.refl g.now g).note (Int.le_refl _) (by omega)
    exact (hcalled.refused (Int.le_refl _) hg).note (Int.le_refl _) (by show g.now ≤ _; omega)

example (c : Cursor) : (enter ⟨64, []⟩ c).2.1.past = [.seen 64, .set 64, .set 65, .seen 64] := rfl

theorem exists_leave {k : Nat} (hgh : g.Rises (k + 1) h) (hmax : h.now ≤ GrammarCause.maxNesting)
    (c : Cursor) : ∃ m, leave h c = (some (), m, c) ∧ g.Rises k m := by
  obtain ⟨hnow, hpast⟩ := hgh
  refine ⟨(h.note.set (h.now - 1)).note, rfl, ?_, ?_⟩
  · show h.now - 1 = _
    omega
  · exact ((hpast.note (by omega) hmax).set (by omega) (by omega)).note
      (by show g.now ≤ h.now - 1; omega) (by show h.now - 1 ≤ _; omega)

/-- As many levels are left as were entered. -/
theorem exists_release (k : Nat) (hgh : g.Rises k h) (hmax : h.now ≤ GrammarCause.maxNesting)
    (c : Cursor) : ∃ m, release k h c = (some (), m, c) ∧ g.Returns m := by
  induction k generalizing h with
  | zero => exact ⟨h, rfl, hgh⟩
  | succ k ih =>
    obtain ⟨m, hleave, hgm⟩ := exists_leave hgh hmax c
    have hnow := hgh.now
    have hnow' := hgm.now
    obtain ⟨m', hrelease, hgm'⟩ := ih hgm (by omega)
    exact ⟨m', (bind_of_some hleave).trans hrelease, hgm'⟩

end Counted

/-! ### The machine and the parsers -/

namespace Counted

variable {α β : Type} {n : Nat}

/-- Where `n` further levels are allowed, the machine does what the parser does, and leaves the number
as it was. -/
structure Tracks (n : Nat) (q : Counted α) (p : Parser α) : Prop where
  run : ∀ (g : Gauge) (c : Cursor), g.now + n = GrammarCause.maxNesting →
    ∃ h, q g c = ((p c).1, h, (p c).2) ∧ g.Returns h

namespace Tracks

variable {q : Counted α} {p : Parser α}

theorem lift : Tracks n (lift p) p := ⟨fun g _ _ => ⟨g, rfl, .refl g⟩⟩

theorem pure {a : α} : Tracks n (pure a) (pure a) := ⟨fun g _ _ => ⟨g, rfl, .refl g⟩⟩

theorem bind {f : α → Counted β} {f' : α → Parser β} (hq : Tracks n q p)
    (hf : ∀ a, Tracks n (f a) (f' a)) : Tracks n (q >>= f) (p >>= f') := by
  refine ⟨fun g c hg => ?_⟩
  obtain ⟨h, hrun, hret⟩ := hq.run g c hg
  rw [Parser.bind_apply]
  rcases hp : p c with ⟨_ | a, d⟩
  · rw [hp] at hrun
    exact ⟨h, bind_of_none hrun, hret⟩
  · rw [hp] at hrun
    obtain ⟨h', hrun', hret'⟩ := (hf a).run h d (by rw [hret.now, hg])
    exact ⟨h', (bind_of_some hrun).trans hrun', hret.trans hret'⟩

theorem ite {C : Prop} [Decidable C] {q' : Counted α} {p' : Parser α} (h : Tracks n q p)
    (h' : Tracks n q' p') : Tracks n (if C then q else q') (if C then p else p') := by
  split
  · exact h
  · exact h'

theorem called (h : Tracks n q p) : Tracks n (called q) p := by
  refine ⟨fun g c hg => ?_⟩
  obtain ⟨h, hrun, hnow, hpast⟩ := h.run g.note c hg
  have hnote : g.note.now = g.now := rfl
  refine ⟨h.note, ?_, hnow, ?_⟩
  · rw [Counted.called, hrun]
  · have hcalled := (Gauge.Keeps.refl g.now g).note (Int.le_refl _) (by omega)
    exact (hcalled.trans hpast).note (by omega) (by omega)

/-- A level is entered and left, whether anything is found there or not. -/
theorem within (h : Tracks n q p) : Tracks (n + 1) (within q) p := by
  refine ⟨fun g c hg => ?_⟩
  obtain ⟨h₁, henter, hrises⟩ := exists_enter (g := g) (by omega) c
  have hnow₁ := hrises.now
  obtain ⟨h₂, hrun, hret⟩ := h.run h₁ c (by omega)
  have hnow₂ := hret.now
  obtain ⟨h₃, hleave, hback⟩ := exists_leave (k := 0) (hrises.trans hret) (by omega) (p c).2
  refine ⟨h₃, ?_, hback⟩
  calc Counted.within q g c
      = _ := bind_of_some henter
    _ = _ := bind_of_some (attempt_of_eq hrun)
    _ = _ := bind_of_some hleave
    _ = _ := ofOption_apply _

/-- There is no further level. -/
theorem refuse : Tracks 0 (Counted.within q) (Parser.fail .tooDeep : Parser α) := by
  refine ⟨fun g c hg => ?_⟩
  obtain ⟨h, henter, hret⟩ := exists_enter_full (g := g) (by omega) c
  exact ⟨h, bind_of_some henter, hret⟩

theorem spanned {q : Counted (Span → α)} {p : Parser (Span → α)} (h : Tracks n q p) :
    Tracks n (spanned q) (Parser.spanned p) := by
  refine ⟨fun g c hg => ?_⟩
  obtain ⟨h, hrun, hret⟩ := h.run g c hg
  refine ⟨h, ?_, hret⟩
  rw [Counted.spanned, Parser.spanned, hrun]
  rcases p c with ⟨_ | f, d⟩ <;> rfl

theorem items {close : Symbol} (hq : Tracks n q p) :
    Tracks n (items close q) (Parser.items close p) := by
  refine ⟨fun g c hg => ?_⟩
  induction hr : c.remaining using Nat.strongRecOn generalizing g c with
  | ind r ih =>
  subst hr
  obtain ⟨h, hrun, hret⟩ := hq.run g c hg
  unfold Counted.items Parser.items
  split
  · exact ⟨g, rfl, .refl g⟩
  · rw [hrun]
    rcases p c with ⟨_ | a, d⟩
    · exact ⟨h, rfl, hret⟩
    · dsimp only
      split
      · split
        · next hlt =>
          obtain ⟨h', hrun', hret'⟩ := ih _ hlt h d.advance (by rw [hret.now, hg]) rfl
          rw [hrun']
          refine ⟨h', ?_, hret.trans hret'⟩
          rcases Parser.items close p d.advance with ⟨_ | as, e⟩ <;> rfl
        · exact ⟨h, rfl, hret⟩
      · exact ⟨h, rfl, hret⟩

theorem body {ends : Kind → Bool} {q : Counted Stmt} {p : Parser Stmt} (hq : Tracks n q p) :
    Tracks n (body ends q) (Parser.body ends p) := by
  refine ⟨fun g c hg => ?_⟩
  induction hr : c.remaining using Nat.strongRecOn generalizing g c with
  | ind r ih =>
  subst hr
  obtain ⟨h, hrun, hret⟩ := hq.run g c hg
  rw [Parser.body]
  unfold Counted.body Parser.statements
  split
  · exact ⟨g, rfl, .refl g⟩
  · rw [hrun]
    rcases p c with ⟨_ | s, d⟩
    · dsimp only
      split
      · next hlt =>
        obtain ⟨h', hrun', hret'⟩ := ih _ hlt h (d.resync c) (by rw [hret.now, hg]) rfl
        exact ⟨h', hrun', hret.trans hret'⟩
      · exact ⟨h, rfl, hret⟩
    · dsimp only
      split
      · next hlt =>
        obtain ⟨h', hrun', hret'⟩ := ih _ hlt h d (by rw [hret.now, hg]) rfl
        rw [hrun']
        exact ⟨h', rfl, hret.trans hret'⟩
      · exact ⟨h, rfl, hret⟩

end Tracks

/-! ### Chains -/

section Climb

variable {step? : Kind → Option (Expr → Counted Expr)} {step : Expr → Counted Expr}
  {steps levels : Nat} {e : Expr} {g h k : Gauge} {c d d' : Cursor}

theorem climb_ended (hstep : step? c.kind = none) :
    climb step? (steps + 1) levels e g c = (some (some e, levels), g, c) := by
  refine (bind_of_some rfl).trans ?_
  simp only [hstep]
  rfl

theorem climb_refused (hstep : step? c.kind = some step) (henter : enter g c = (some false, h, d)) :
    climb step? (steps + 1) levels e g c = (some (none, levels), h, d) := by
  refine (bind_of_some rfl).trans ?_
  simp only [hstep]
  exact bind_of_some henter

/-- The level of a step that fails is counted. -/
theorem climb_failed (hstep : step? c.kind = some step) (henter : enter g c = (some true, h, d))
    (hrun : step e h d = (none, k, d')) :
    climb step? (steps + 1) levels e g c = (some (none, levels + 1), k, d') := by
  refine (bind_of_some rfl).trans ?_
  simp only [hstep]
  exact (bind_of_some henter).trans (bind_of_some (attempt_of_eq hrun))

theorem climb_next {next : Expr} (hstep : step? c.kind = some step)
    (henter : enter g c = (some true, h, d)) (hrun : step e h d = (some next, k, d')) :
    climb step? (steps + 1) levels e g c = climb step? steps (levels + 1) next k d' := by
  refine (bind_of_some rfl).trans ?_
  simp only [hstep]
  exact (bind_of_some henter).trans (bind_of_some (attempt_of_eq hrun))

end Climb

/-- With so many levels allowed, fewer than `m`, the parsers `p` go on behind an expression by these
steps: where no step begins they end, with no level left they refuse it, and else they make it one
level further in and go on there. -/
structure Climbs (m : Nat) (step? : Kind → Option (Expr → Counted Expr))
    (p : Nat → Expr → Parser Expr) : Prop where
  ended : ∀ n e c, step? c.kind = none → p n e c = (some e, c)
  refused : ∀ e c step, step? c.kind = some step → p 0 e c = (none, c.report .tooDeep)
  next : ∀ n e c step, n + 1 < m → step? c.kind = some step →
    ∃ s, Tracks n (step e) s ∧ p (n + 1) e c = (s >>= p n) c

namespace Climbs

variable {m : Nat} {step? : Kind → Option (Expr → Counted Expr)} {p : Nat → Expr → Parser Expr}

/-- Where a chain is over or has failed, so many further levels are open as were counted. -/
theorem exists_climb (hp : Climbs m step? p) {steps : Nat} (hsteps : n < steps) (hn : n < m)
    (levels : Nat) (e : Expr) (g : Gauge) (c : Cursor) (hg : g.now + n = GrammarCause.maxNesting) :
    ∃ k h, climb step? steps levels e g c =
        (some ((p n e c).1, levels + k), h, (p n e c).2) ∧ k ≤ n ∧ g.Rises k h := by
  induction n generalizing steps levels e g c with
  | zero =>
    obtain ⟨steps, rfl⟩ := Nat.exists_eq_add_one_of_ne_zero (Nat.ne_of_gt hsteps)
    cases hstep : step? c.kind with
    | none =>
      rw [hp.ended _ _ _ hstep]
      exact ⟨0, g, climb_ended hstep, Nat.le_refl _, .refl g⟩
    | some step =>
      obtain ⟨h, henter, hret⟩ := exists_enter_full (g := g) (by omega) c
      rw [hp.refused _ _ _ hstep]
      exact ⟨0, h, climb_refused hstep henter, Nat.le_refl _, hret⟩
  | succ n ih =>
    obtain ⟨steps, rfl⟩ := Nat.exists_eq_add_one_of_ne_zero (Nat.ne_zero_of_lt hsteps)
    cases hstep : step? c.kind with
    | none =>
      rw [hp.ended _ _ _ hstep]
      exact ⟨0, g, climb_ended hstep, Nat.zero_le _, .refl g⟩
    | some step =>
      obtain ⟨s, hs, hnext⟩ := hp.next n e c step hn hstep
      obtain ⟨h₁, henter, hrises⟩ := exists_enter (g := g) (by omega) c
      have hnow₁ := hrises.now
      obtain ⟨h₂, hrun, hret⟩ := hs.run h₁ c (by omega)
      have hnow₂ := hret.now
      rw [hnext, Parser.bind_apply]
      rcases hsc : s c with ⟨_ | next, d⟩ <;> rw [hsc] at hrun
      · exact ⟨1, h₂, climb_failed hstep henter hrun, by omega, hrises.trans hret⟩
      · -- the rest of the chain is read with one level less, and one more is counted
        obtain ⟨k, h₃, hrest, hk, hrises'⟩ := ih (Nat.lt_of_succ_lt_succ hsteps)
          (Nat.lt_of_succ_lt hn) (levels + 1) next h₂ d (by omega)
        refine ⟨1 + k, h₃, ?_, by omega, (hrises.trans hret).trans hrises'⟩
        rw [climb_next hstep henter hrun, hrest, Nat.add_assoc]

/-- A chain leaves as many levels as it has entered. -/
theorem tracks_climbing (hp : Climbs m step? p) (hn : n < m) (hmax : n ≤ GrammarCause.maxNesting)
    {first : Counted Expr} {first' : Parser Expr} (hfirst : Tracks n first first') :
    Tracks n (climbing step? first) (first' >>= p n) := by
  refine .bind hfirst fun e => ⟨fun g c hg => ?_⟩
  obtain ⟨k, h, hclimb, hk, hrises⟩ := hp.exists_climb (Nat.lt_succ_of_le hmax) hn 0 e g c hg
  have hnow := hrises.now
  rw [Nat.zero_add] at hclimb
  obtain ⟨h', hrelease, hret⟩ := exists_release k hrises (by omega) (p n e c).2
  refine ⟨h', ?_, hret⟩
  calc _ = _ := bind_of_some hclimb
    _ = _ := bind_of_some hrelease
    _ = _ := ofOption_apply _

end Climbs

section Parts

variable {statement : Counted Stmt} {statement' : Parser Stmt} {expression : Counted Expr}
  {expression' : Parser Expr}

theorem tracks_block (hs : Tracks n statement statement') :
    Tracks n (block statement) (Parser.block statement') := by
  rw [Parser.block_eq]
  exact .called <| .spanned (.bind .lift fun _ => .bind (.body hs) fun _ => .bind .lift fun _ => .pure)

theorem tracks_letStatement (he : Tracks n expression expression') :
    Tracks n (letStatement expression) (Parser.letStatement expression') :=
  .called <| .spanned (.bind .lift fun _ => .bind .lift fun _ => .bind .lift fun _ => .bind .lift fun _ =>
    .bind .lift fun _ => .ite (.bind he fun _ => .pure) .pure)

theorem tracks_ifStatement (hs : Tracks n statement statement')
    (he : Tracks n expression expression') :
    Tracks n (ifStatement statement expression) (Parser.ifStatement statement' expression') :=
  .called <| .spanned (.bind .lift fun _ => .bind he fun _ => .bind hs fun _ => .bind .lift fun _ =>
    .ite (.bind hs fun _ => .pure) .pure)

theorem tracks_whileStatement (hs : Tracks n statement statement')
    (he : Tracks n expression expression') : Tracks n (whileStatement statement expression)
      (Parser.whileStatement statement' expression') :=
  .called <| .spanned (.bind .lift fun _ => .bind he fun _ => .bind hs fun _ => .pure)

theorem tracks_returnStatement (he : Tracks n expression expression') :
    Tracks n (returnStatement expression) (Parser.returnStatement expression') :=
  .called <| .spanned (.bind .lift fun _ => .bind .lift fun _ => .ite .pure (.bind he fun _ => .pure))

theorem tracks_statementBody (hs : Tracks n statement statement')
    (he : Tracks n expression expression') : Tracks n (statementBody statement expression)
      (Parser.statementBody statement' expression') := by
  have hvalue : Tracks n (do let value ← expression; pure (Stmt.expr value value.span))
      (do let value ← expression'; pure (Stmt.expr value value.span)) := .bind he fun _ => .pure
  refine .bind .lift fun k => ?_
  cases k with
  | keyword w =>
    cases w with
    | let_ => exact tracks_letStatement he
    | if_ => exact tracks_ifStatement hs he
    | while_ => exact tracks_whileStatement hs he
    | struct => exact .called .lift
    | return_ => exact tracks_returnStatement he
    | _ => exact hvalue
  | symbol x =>
    cases x with
    | openBrace => exact tracks_block hs
    | _ => exact hvalue
  | _ => exact hvalue

theorem tracks_functionLiteral (hs : Tracks n statement statement') :
    Tracks n (functionLiteral statement) (Parser.functionLiteral statement') :=
  .called <| .spanned (.bind .lift fun _ => .bind .lift fun _ => .bind .lift fun _ => .bind .lift fun _ =>
    .bind .lift fun _ => .bind .lift fun _ => .bind .lift fun _ => .bind hs fun _ => .pure)

theorem tracks_recordLiteral (he : Tracks n expression expression') :
    Tracks n (recordLiteral expression) (Parser.recordLiteral expression') := by
  have hfield : Tracks n (field expression) (Parser.field expression') :=
    .bind .lift fun _ => .bind .lift fun _ => .bind he fun _ => .pure
  rw [Parser.recordLiteral_eq]
  exact .called <| .spanned (.bind .lift fun _ => .bind .lift fun _ => .bind (.items hfield) fun _ =>
    .bind .lift fun _ => .pure)

theorem tracks_group (he : Tracks n expression expression') :
    Tracks n (group expression) (Parser.group expression') :=
  .spanned (.bind .lift fun _ => .bind he fun _ => .bind .lift fun _ => .pure)

theorem tracks_named (he : Tracks n expression expression') (name : String) :
    Tracks n (named expression name) (Parser.named expression' name) := by
  refine ⟨fun g c hg => ?_⟩
  unfold named Parser.named
  split
  · exact (tracks_recordLiteral he).run g c hg
  · exact ⟨g, rfl, .refl g⟩

theorem tracks_primary (he : Tracks n expression expression') :
    Tracks n (primary expression) (Parser.primary expression') := by
  rw [Parser.primary_eq]
  refine .called <| .bind .lift fun span => .bind .lift fun k => ?_
  cases Literal.ofKind? k with
  | some l => exact .bind .lift fun _ => .pure
  | none =>
    cases k with
    | symbol x =>
      cases x with
      | openParen => exact tracks_group he
      | _ => exact .lift
    | ident name => exact tracks_named he name
    | _ => exact .lift

theorem tracks_suffix (he : Tracks n expression expression') (e : Expr) :
    Tracks n (suffix expression e) (Parser.suffix expression' e) :=
  .called <| .bind .lift fun _ => .ite (.bind .lift fun _ => .pure)
    (.bind .lift fun _ => .bind (.items he) fun _ => .bind .lift fun _ => .bind .lift fun _ =>
      .pure)

end Parts

end Counted

namespace CountedGrammar

open Counted

/-- The parsers of the machine do what those of a grammar do, where `n` further levels are allowed. -/
structure Tracks (n : Nat) (q : CountedGrammar) (g : Grammar) : Prop where
  statement : Counted.Tracks n q.statement g.statement
  expression : Counted.Tracks n q.expression g.expression
  unary : Counted.Tracks n q.unary g.unary

/-- The machine does so for every number of further levels below `m`. -/
def Covers (m : Nat) (q : CountedGrammar) : Prop := ∀ n < m, q.Tracks n (Grammar.allowing n)

section Chains

variable {m n l : Nat}

/-- The machine reads the chains of a level as the grammar does, if it reads their operands so. -/
theorem climbs_chain {operand : Counted Expr}
    (h : ∀ n < m, Counted.Tracks n operand ((Grammar.allowing n).operand l)) :
    Climbs m (fun k => (Operator.at? l k).map fun op left => do
      lift Parser.advance
      let right ← operand
      pure (op.apply left right)) fun n => (Grammar.allowing n).chain l where
  ended n e c hstep := by
    rw [Option.map_eq_none_iff] at hstep
    rw [Grammar.allowing_eq]
    show Grammar.chainAround _ l e c = _
    rw [Grammar.chainAround, Parser.bind_apply]
    simp only [Parser.peek, hstep]
    rfl
  refused e c step hstep := by
    obtain ⟨op, hop, rfl⟩ := Option.map_eq_some_iff.mp hstep
    show Grammar.chainAround none l e c = _
    rw [Grammar.chainAround, Parser.bind_apply]
    simp only [Parser.peek, hop]
    rfl
  next n e c step hn hstep := by
    obtain ⟨op, hop, rfl⟩ := Option.map_eq_some_iff.mp hstep
    refine ⟨_, .bind .lift fun _ => .bind (h n (Nat.lt_of_succ_lt hn)) fun _ => .pure, ?_⟩
    show Grammar.chainAround (some (Grammar.allowing n)) l e c = _
    rw [Grammar.chainAround, Parser.bind_apply]
    simp only [Parser.peek, hop, Grammar.nested, Parser.bind_apply, Parser.advance]
    rcases (Grammar.allowing n).operand l c.advance with ⟨_ | right, d⟩ <;> rfl

/-- The machine reads calls and member accesses as the grammar does, if it reads expressions so. -/
theorem climbs_suffixes {expression : Counted Expr}
    (h : ∀ n < m, Counted.Tracks n expression (Grammar.allowing n).expression) :
    Climbs m (fun k => if k = .symbol .openParen ∨ k = .symbol .dot then some (suffix expression)
      else none) fun n => (Grammar.allowing n).suffixes where
  ended n e c hstep := by
    have hk : ¬(c.kind = .symbol .openParen ∨ c.kind = .symbol .dot) := by
      intro hk
      simp only [if_pos hk] at hstep
      cases hstep
    rw [Grammar.suffixes_allowing, Parser.bind_apply]
    exact congrFun (if_neg hk) c
  refused e c step hstep := by
    obtain ⟨hk, ⟨⟩⟩ := Option.ite_none_right_eq_some.mp hstep
    rw [Grammar.suffixes_allowing, Parser.bind_apply]
    exact congrFun (if_pos hk) c
  next n e c step hn hstep := by
    obtain ⟨hk, ⟨⟩⟩ := Option.ite_none_right_eq_some.mp hstep
    refine ⟨_, tracks_suffix (h n (Nat.lt_of_succ_lt hn)) e, ?_⟩
    rw [Grammar.suffixes_allowing, Parser.bind_apply]
    exact congrFun (if_pos hk) c

end Chains

section Around

variable {m n : Nat} {q : CountedGrammar}

theorem Covers.operand (h : q.Covers m) (hm : m ≤ GrammarCause.maxNesting + 1) (l : Nat) :
    ∀ n < m, Counted.Tracks n (q.operand l) ((Grammar.allowing n).operand l) := by
  induction l with
  | zero => exact fun n hn => (h n hn).unary
  | succ l ih =>
    exact fun n hn => .called <| (climbs_chain ih).tracks_climbing hn (by omega) (ih n hn)

theorem tracks_call {expression : Counted Expr}
    (h : ∀ n < m, Counted.Tracks n expression (Grammar.allowing n).expression) (hn : n < m)
    (hmax : n ≤ GrammarCause.maxNesting) :
    Counted.Tracks n (call expression) (Grammar.allowing n).call :=
  .called <| (climbs_suffixes h).tracks_climbing hn hmax (tracks_primary (h n hn))

theorem tracks_function {statement : Counted Stmt} {expression : Counted Expr}
    (hs : Counted.Tracks n statement (Grammar.allowing n).statement)
    (h : ∀ n < m, Counted.Tracks n expression (Grammar.allowing n).expression) (hn : n < m)
    (hmax : n ≤ GrammarCause.maxNesting) :
    Counted.Tracks n (function statement expression) (Grammar.allowing n).function :=
  .called <| .bind .lift fun _ => .ite (tracks_functionLiteral hs) (tracks_call h hn hmax)

/-- What is read one level further in, if there is one. -/
theorem tracks_within {α : Type} {r : Counted α} {p : Grammar → Parser α}
    (h : ∀ n < m, Counted.Tracks n r (p (Grammar.allowing n))) (hn : n < m + 1) :
    Counted.Tracks n (within r) (Grammar.nested (Grammar.inner n) p) := by
  cases n with
  | zero => exact .refuse
  | succ n => exact .within (h n (Nat.lt_of_succ_lt_succ hn))

theorem Covers.statementAround (h : q.Covers m) (hn : n < m + 1) :
    Counted.Tracks n (statementAround q) (Grammar.allowing n).statement := by
  rw [Grammar.allowing_eq]
  exact .called <| tracks_within
    (fun n hn => tracks_statementBody (h n hn).statement (h n hn).expression) hn

theorem Covers.expressionAround (h : q.Covers m) (hm : m ≤ GrammarCause.maxNesting + 1)
    (hn : n < m + 1) : Counted.Tracks n (expressionAround q) (Grammar.allowing n).expression := by
  rw [Grammar.allowing_eq]
  exact .called <| tracks_within (h.operand hm _) hn

theorem Covers.unaryAround (h : q.Covers m) (hm : m ≤ GrammarCause.maxNesting) (hn : n < m + 1) :
    Counted.Tracks n (unaryAround q) (Grammar.allowing n).unary := by
  have hexpression : ∀ n < m + 1, Counted.Tracks n (CountedGrammar.expressionAround q)
      (Grammar.allowing n).expression := fun n hn => h.expressionAround (Nat.le_succ_of_le hm) hn
  rw [Grammar.unary_allowing]
  refine .called <| .bind .lift fun start => .bind .lift fun k => ?_
  cases UnaryOp.ofKind? k with
  | some op =>
    exact .bind .lift fun _ => .bind (tracks_within (fun n hn => (h n hn).unary) hn) fun _ => .pure
  | none => exact tracks_function (h.statementAround hn) hexpression hn (by omega)

/-- One more level is allowed around the machine. -/
theorem Covers.around (h : q.Covers m) (hm : m ≤ GrammarCause.maxNesting) :
    (around q).Covers (m + 1) := fun _ hn =>
  ⟨h.statementAround hn, h.expressionAround (Nat.le_succ_of_le hm) hn, h.unaryAround hm hn⟩

end Around

/-- The machine does what the grammar does for every number of further levels that its bound allows
for. -/
theorem covers_counting {m : Nat} (hm : m ≤ GrammarCause.maxNesting + 1) :
    (counting m).Covers m := by
  induction m with
  | zero => exact fun n hn => absurd hn (Nat.not_lt_zero n)
  | succ m ih => exact (ih (Nat.le_of_succ_le hm)).around (Nat.le_of_succ_le_succ hm)

/-- The same of the parsers that are made from those of a grammar. -/
structure TracksAll (n : Nat) (q : CountedGrammar) (g : Grammar) : Prop extends Tracks n q g where
  operand : ∀ l, Counted.Tracks n (q.operand l) (g.operand l)
  function : Counted.Tracks n (Counted.function q.statement q.expression) g.function
  call : Counted.Tracks n (Counted.call q.expression) g.call
  primary : Counted.Tracks n (Counted.primary q.expression) (Parser.primary g.expression)
  suffix : ∀ e, Counted.Tracks n (Counted.suffix q.expression e) (Parser.suffix g.expression e)
  block : Counted.Tracks n (Counted.block q.statement) (Parser.block g.statement)

theorem tracksAll_full {n : Nat} (hn : n ≤ GrammarCause.maxNesting) :
    full.TracksAll n (Grammar.allowing n) := by
  have hfull : full.Covers (GrammarCause.maxNesting + 1) := covers_counting (Nat.le_refl _)
  have hlt : n < GrammarCause.maxNesting + 1 := Nat.lt_succ_of_le hn
  have hexpression := fun n hn => (hfull n hn).expression
  have h := hfull n hlt
  exact ⟨h, fun l => hfull.operand (Nat.le_refl _) l n hlt,
    tracks_function h.statement hexpression hlt hn, tracks_call hexpression hlt hn,
    tracks_primary h.expression, tracks_suffix h.expression, tracks_block h.statement⟩

end CountedGrammar

end RecordLang
