import RecordLang.Proofs.Program.Meets
import RecordLang.Proofs.Program.Unplaced

/-!
# What is in the grammar is read, up to the limit

Where the grammar reads a part with `m` levels, the parser of that part with an allowance of `m` or
more yields the same tree up to places, and with a smaller allowance the first fault is that the
nesting is too deep (`Reads.complete`).
-/

namespace RecordLang

namespace Parser

variable {n m m' m'' : Nat} {k : Kind} {ks ks₁ ks₂ ks' : List Kind}

/-! ### Types -/

section Types

variable {P Q : TypeExpr → Prop}

theorem meets_typeExpr
    (h : ∀ depth, ks.length ≤ depth → Meets n m (typeExprWithin depth) ks P ks') :
    Meets n m typeExpr ks P ks' := by
  refine (h ks.length (Nat.le_refl _)).congr fun c hc => ?_
  rw [typeExpr, ← c.length_kinds, hc.kinds]

theorem meets_optional {f : Bool → Span → TypeExpr} {b : Bool}
    (h : Marked (.symbol .question) ks b ks') (hf : ∀ span, P (f b span)) :
    Meets n 0 (do let b ← eat (.symbol .question); pure (f b)) ks (fun g => ∀ span, P (g span))
      ks' := by
  cases h with
  | there => exact .eatThere nofun (.pure hf)
  | missing h => exact .eatMissing (.pure hf) h

theorem meets_named {depth : Nat} {name : String} {b : Bool}
    (h : Marked (.symbol .question) ks b ks') (hP : ∀ span, P (.named name b span)) :
    Meets n 0 (typeExprWithin (depth + 1)) (.ident name :: ks) P ks' :=
  .spanned (.peek (.advance nofun (meets_optional h hP)))

theorem meets_null {depth : Nat} {b : Bool} (h : Marked (.symbol .question) ks b ks')
    (hP : ∀ span, P (.named "null" b span)) :
    Meets n 0 (typeExprWithin (depth + 1)) (.keyword .null :: ks) P ks' :=
  .spanned (.peek (.advance nofun (meets_optional h hP)))

theorem meets_functionType {depth : Nat} {R : List TypeExpr → Prop}
    (hparams : Meets n m (items .closeParen (typeExprWithin depth)) ks R
      (.symbol .closeParen :: .symbol .arrow :: ks₁))
    (hresult : Meets n m' (typeExprWithin depth) ks₁ Q ks')
    (hP : ∀ params result span, R params → Q result → P (.function params result span)) :
    Meets n (max m m') (typeExprWithin (depth + 1)) (.symbol .openParen :: ks) P ks' := by
  refine .spanned (.peek (.advance nofun (.bind hparams fun params hR => .symbol (.symbol
    (.after hresult fun result hQ => .pure fun span => ?_)))))
  exact hP params result span hR hQ

theorem meets_typedName {x : String} {P : TypedName → Prop} (htype : Meets n m typeExpr ks Q ks')
    (hP : ∀ at_ type span, Q type → P ⟨⟨x, at_⟩, type, span⟩) :
    Meets n m typedName (.ident x :: .symbol .colon :: ks) P ks' := by
  refine .spanned (.identifier fun at_ => .symbol (.after htype fun type hQ =>
    .pure fun span => ?_))
  exact hP at_ type span hQ

end Types

/-! ### Statements -/

section Statements

variable {statement : Parser Stmt} {expression : Parser Expr}
variable {P S T : Stmt → Prop} {E : Expr → Prop} {Q : TypeExpr → Prop}

theorem meets_declared [Reporting expression] {x : String}
    (htype : Meets n 0 typeExpr ks Q (k :: ks'))
    (hk : k ≠ .symbol .eq) (hP : ∀ at_ type span, Q type → P (.let_ ⟨x, at_⟩ type none span)) :
    Meets n 0 (statementBody statement expression)
      (.keyword .let_ :: .ident x :: .symbol .colon :: ks) P (k :: ks') := by
  refine .peek (.spanned (.advance nofun (.identifier fun at_ => .symbol
    (.after htype fun type hQ => .eatMissing (.pure fun span => ?_)
      fun he => hk (Option.some.inj he)))))
  exact hP at_ type span hQ

theorem meets_initialized [Reporting expression] {x : String}
    (htype : Meets n 0 typeExpr ks Q (.symbol .eq :: ks₁))
    (hvalue : Meets n m expression ks₁ E ks')
    (hP : ∀ at_ type e span, Q type → E e → P (.let_ ⟨x, at_⟩ type (some e) span)) :
    Meets n m (statementBody statement expression)
      (.keyword .let_ :: .ident x :: .symbol .colon :: ks) P ks' := by
  refine .peek (.spanned (.advance nofun (.identifier fun at_ => .symbol
    (.before htype fun type hQ => .eatThere nofun (.after hvalue fun e hE =>
      .pure fun span => ?_)))))
  exact hP at_ type e span hQ hE

theorem meets_block {R : List Stmt → Prop}
    (hbody : Meets n m (body (fun k => k == .symbol .closeBrace || k == .eof) statement) ks R
      (.symbol .closeBrace :: ks'))
    (hP : ∀ ss span, R ss → P (.block ss span)) :
    Meets n m (statementBody statement expression) (.symbol .openBrace :: ks) P ks' := by
  refine .peek ?_
  refine .spanned (.symbol (.after hbody fun ss hR => .symbol (.pure fun span => ?_)))
  exact hP ss span hR

theorem meets_if [Reporting statement] (hcond : Meets n m expression ks E ks₁)
    (htrue : Meets n m' statement ks₁ S (k :: ks')) (hk : k ≠ .keyword .else_)
    (hP : ∀ e s span, E e → S s → P (.if_ e s none span)) :
    Meets n (max m m') (statementBody statement expression) (.keyword .if_ :: ks) P (k :: ks') := by
  refine .peek (.spanned (.advance nofun (.bind hcond fun e hE => .after htrue fun s hS =>
    .eatMissing (.pure fun span => ?_) fun he => hk (Option.some.inj he))))
  exact hP e s span hE hS

theorem meets_ifElse [Reporting statement] (hcond : Meets n m expression ks E ks₁)
    (htrue : Meets n m' statement ks₁ S (.keyword .else_ :: ks₂))
    (hfalse : Meets n m'' statement ks₂ T ks')
    (hP : ∀ e s t span, E e → S s → T t → P (.if_ e s (some t) span)) :
    Meets n (max m (max m' m'')) (statementBody statement expression) (.keyword .if_ :: ks) P
      ks' := by
  refine .peek (.spanned (.advance nofun (.bind hcond fun e hE => .bind htrue fun s hS =>
    .eatThere nofun (.after hfalse fun t hT => .pure fun span => ?_))))
  exact hP e s t span hE hS hT

theorem meets_while [Reporting statement] (hcond : Meets n m expression ks E ks₁)
    (hbody : Meets n m' statement ks₁ S ks') (hP : ∀ e s span, E e → S s → P (.while_ e s span)) :
    Meets n (max m m') (statementBody statement expression) (.keyword .while_ :: ks) P ks' := by
  refine .peek (.spanned (.advance nofun (.bind hcond fun e hE => .after hbody fun s hS =>
    .pure fun span => ?_)))
  exact hP e s span hE hS

theorem meets_struct {x : String} {R : List TypedName → Prop}
    (hfields : Meets n m (items .closeBrace typedName) ks R (.symbol .closeBrace :: ks'))
    (hP : ∀ at_ fields span, R fields → P (.struct ⟨x, at_⟩ fields span)) :
    Meets n m (statementBody statement expression)
      (.keyword .struct :: .ident x :: .symbol .openBrace :: ks) P ks' := by
  refine .peek (.spanned (.advance nofun (.identifier fun at_ => .symbol (.after hfields
    fun fields hR => .symbol (.pure fun span => ?_)))))
  exact hP at_ fields span hR

theorem meets_returnNone (hk : Cursor.resumes k = true) (hP : ∀ span, P (.return_ none span)) :
    Meets n 0 (statementBody statement expression) (.keyword .return_ :: k :: ks) P (k :: ks) := by
  refine .peek (.spanned (.advance nofun (.peek ?_)))
  rw [if_pos hk]
  exact .pure hP

theorem meets_returnSome (hk : Cursor.resumes k = false)
    (hvalue : Meets n m expression (k :: ks) E ks')
    (hP : ∀ e span, E e → P (.return_ (some e) span)) :
    Meets n m (statementBody statement expression) (.keyword .return_ :: k :: ks) P ks' := by
  refine .peek (.spanned (.advance nofun (.peek ?_)))
  rw [if_neg (by rw [hk]; exact nofun)]
  exact .after hvalue fun e hE => .pure fun span => hP e span hE

theorem meets_expr (hk : k.startsExpression = true) (hvalue : Meets n m expression (k :: ks) E ks')
    (hP : ∀ e span, E e → P (.expr e span)) :
    Meets n m (statementBody statement expression) (k :: ks) P ks' := by
  refine .peek ?_
  split
  · cases hk
  · cases hk
  · cases hk
  · cases hk
  · cases hk
  · cases hk
  · exact .after hvalue fun e hE => .pure (hP e e.span hE)

end Statements

/-! ### Expressions -/

section Expressions

variable {statement : Parser Stmt} {expression : Parser Expr} {P E : Expr → Prop}

theorem meets_functionLiteral [Reporting statement] {R : List TypedName → Prop}
    {Q : TypeExpr → Prop} {S : Stmt → Prop}
    (hparams : Meets n 0 (items .closeParen typedName) ks R
      (.symbol .closeParen :: .symbol .colon :: ks₁))
    (hresult : Meets n 0 typeExpr ks₁ Q (.symbol .fatArrow :: ks₂))
    (hbody : Meets n m statement ks₂ S ks')
    (hP : ∀ params result body span, R params → Q result → S body →
      P (.new (.function params result body) span)) :
    Meets n m (functionLiteral statement) (.keyword .fn :: .symbol .openParen :: ks) P ks' := by
  refine .spanned (.advance nofun (.symbol (.before hparams fun params hR => .symbol (.symbol
    (.before hresult fun result hQ => .symbol (.after hbody fun body hS =>
      .pure fun span => ?_))))))
  exact hP params result body span hR hQ hS

theorem meets_field {x : String} {P : Ident × Expr → Prop} (hvalue : Meets n m expression ks E ks')
    (hP : ∀ at_ e, E e → P (⟨x, at_⟩, e)) :
    Meets n m (field expression) (.ident x :: .symbol .colon :: ks) P ks' :=
  .identifier fun at_ => .symbol (.after hvalue fun e hE => .pure (hP at_ e hE))

theorem meets_literal {l : Literal} (h : Literal.ofKind? k = some l)
    (hP : ∀ span, P (.new (.literal l) span)) :
    Meets n 0 (primary expression) (k :: ks) P ks := by
  refine ⟨fun _ c hc => ?_, fun hm => absurd hm (Nat.not_lt_zero n)⟩
  have hk : k ≠ .eof := fun he => by rw [he] at h; cases h
  refine ⟨.new (.literal l) c.current.span, c.advance, ?_, hP _, hc.advance hk⟩
  simp only [primary, hc.kind, h]

theorem meets_group (hinner : Meets n m expression ks E (.symbol .closeParen :: ks'))
    (hP : ∀ e span, E e → P (.new (.group e) span)) :
    Meets n m (primary expression) (.symbol .openParen :: ks) P ks' := by
  have hgroup : Meets n m (group expression) (.symbol .openParen :: ks) P ks' :=
    .spanned (.advance nofun (.after hinner fun e hE => .symbol (.pure fun span => hP e span hE)))
  refine hgroup.congr fun c hc => ?_
  simp only [primary, hc.kind, Literal.ofKind?]

theorem meets_record [Reporting expression] {x : String} {R : List (Ident × Expr) → Prop}
    (hopens : opensRecord x (.symbol .openBrace :: ks) = true)
    (hfields : Meets n m (items .closeBrace (field expression)) ks R (.symbol .closeBrace :: ks'))
    (hP : ∀ at_ fields span, R fields → P (.new (.record ⟨x, at_⟩ fields) span)) :
    Meets n m (primary expression) (.ident x :: .symbol .openBrace :: ks) P ks' := by
  have hrecord :
      Meets n m (recordLiteral expression) (.ident x :: .symbol .openBrace :: ks) P ks' := by
    rw [recordLiteral_eq]
    refine .spanned (.identifier fun at_ => .symbol (.after hfields fun fields hR => .symbol
      (.pure fun span => ?_)))
    exact hP at_ fields span hR
  refine hrecord.congr fun c hc => ?_
  simp only [primary, hc.kind, Literal.ofKind?, startsRecord_eq hc.kinds, hopens, if_true]

theorem meets_variable {x : String} (hopens : opensRecord x ks = false)
    (hP : ∀ span, P (.new (.variable x) span)) :
    Meets n 0 (primary expression) (.ident x :: ks) P ks := by
  refine ⟨fun _ c hc => ?_, fun hm => absurd hm (Nat.not_lt_zero n)⟩
  refine ⟨.new (.variable x) c.current.span, c.advance, ?_, hP _, hc.advance nofun⟩
  simp only [primary, hc.kind, Literal.ofKind?, startsRecord_eq hc.kinds, hopens]
  rfl

theorem meets_get {e : Expr} {x : String}
    (hP : ∀ at_ span, P (.new (.get e ⟨x, at_⟩) span)) :
    Meets n 0 (suffix expression e) (.symbol .dot :: .ident x :: ks) P ks :=
  .eatThere nofun (.identifier fun at_ => .pure (hP at_ _))

theorem meets_call [Reporting expression] {e : Expr} {R : List Expr → Prop}
    (hargs : Meets n m (items .closeParen expression) ks R (.symbol .closeParen :: ks'))
    (hP : ∀ args span, R args → P (.new (.call e args) span)) :
    Meets n m (suffix expression e) (.symbol .openParen :: ks) P ks' := by
  refine .eatMissing (.symbol (.after hargs fun args hR => .here fun close => .symbol
    (.pure ?_))) nofun
  exact hP args _ hR

end Expressions

end Parser

/-! ### The grammar -/

namespace Grammar

open RecordLang.Parser

variable {n m m' : Nat} {k : Kind} {ks ks₁ ks' : List Kind} {P R : Expr → Prop}

theorem meets_statement {P : Stmt → Prop} (h : ∀ n',
      Meets n' m (statementBody (allowing n').statement (allowing n').expression) ks P ks') :
    Meets n (m + 1) (allowing n).statement ks P ks' := by
  rw [allowing_eq]
  exact .nested fun n' _ => h n'

theorem meets_expression
    (h : ∀ n', Meets n' m ((allowing n').operand Operator.levels) ks P ks') :
    Meets n (m + 1) (allowing n).expression ks P ks' := by
  rw [allowing_eq]
  exact .nested fun n' _ => h n'

theorem meets_suffixesNil {e : Expr} (hc : k ≠ .symbol .openParen) (hd : k ≠ .symbol .dot)
    (hP : P e) : Meets n 0 ((allowing n).suffixes e) (k :: ks) P (k :: ks) := by
  rw [allowing_eq]
  refine .peek ?_
  split
  · exact absurd rfl hc
  · exact absurd rfl hd
  · exact .pure hP

theorem meets_suffixes {e : Expr} (hk : k = .symbol .openParen ∨ k = .symbol .dot)
    (hfirst : ∀ n', Meets n' m (suffix (allowing n').expression e) (k :: ks) R ks₁)
    (hrest : ∀ n' e', R e' → Meets n' m' ((allowing n').suffixes e') ks₁ P ks') :
    Meets n (max m m' + 1) ((allowing n).suffixes e) (k :: ks) P ks' := by
  have hnext : Meets n (max m m' + 1)
      (nested (inner n) fun g => do g.suffixes (← suffix g.expression e)) (k :: ks) P ks' :=
    .nested fun n' _ => (hfirst n').bind (hrest n')
  rw [allowing_eq]
  refine .peek ?_
  obtain rfl | rfl := hk
  · exact hnext
  · exact hnext

theorem meets_unaryOp {op : UnaryOp} (h : UnaryOp.ofKind? k = some op)
    (hoperand : ∀ n', Meets n' m (allowing n').unary ks R ks')
    (hP : ∀ e span, R e → P (.new (.unary op e) span)) :
    Meets n (m + 1) (allowing n).unary (k :: ks) P ks' := by
  have hk : k ≠ .eof := fun he => by rw [he] at h; cases h
  have hnext : Meets n (m + 1) (nested (inner n) fun g => g.unary) ks R ks' :=
    .nested fun n' _ => hoperand n'
  rw [allowing_eq]
  refine .here fun start => .peek ?_
  rw [h]
  exact .advance hk (.after hnext fun e hR => .pure (hP e _ hR))

theorem meets_function
    (h : Meets n m (functionLiteral (allowing n).statement) (.keyword .fn :: ks) P ks') :
    Meets n m (allowing n).unary (.keyword .fn :: ks) P ks' := by
  rw [allowing_eq] at h ⊢
  exact .here fun start => .peek h

theorem meets_suffixed (hk : UnaryOp.ofKind? k = none) (hfn : k ≠ .keyword .fn)
    (hfirst : Meets n m (primary (allowing n).expression) (k :: ks) R ks₁)
    (hrest : ∀ e, R e → Meets n m' ((allowing n).suffixes e) ks₁ P ks') :
    Meets n (max m m') (allowing n).unary (k :: ks) P ks' := by
  have hnext := hfirst.bind hrest
  rw [allowing_eq] at hnext ⊢
  refine .here fun start => .peek ?_
  rw [hk]
  dsimp only
  rw [if_neg hfn]
  exact hnext

theorem meets_chainNil {l : Nat} {left : Expr} (h : Operator.at? l k = none) (hP : P left) :
    Meets n 0 ((allowing n).chain l left) (k :: ks) P (k :: ks) := by
  rw [allowing_eq]
  refine .peek ?_
  rw [h]
  exact .pure hP

theorem meets_chainCons {l : Nat} {op : Operator} {left : Expr} (h : Operator.at? l k = some op)
    (hsecond : ∀ n', Meets n' m ((allowing n').operand l) ks R ks₁)
    (hrest : ∀ n' right, R right →
      Meets n' m' ((allowing n').chain l (op.apply left right)) ks₁ P ks') :
    Meets n (max m m' + 1) ((allowing n).chain l left) (k :: ks) P ks' := by
  have hk : k ≠ .eof := fun he => by rw [he] at h; cases h
  rw [allowing_eq]
  refine .peek ?_
  rw [h]
  exact .nested fun n' _ => .advance hk ((hsecond n').bind (hrest n'))

theorem meets_operandSucc {l : Nat} (hfirst : Meets n m ((allowing n).operand l) ks R ks₁)
    (hrest : ∀ e, R e → Meets n m' ((allowing n).chain l e) ks₁ P ks') :
    Meets n (max m m') ((allowing n).operand (l + 1)) ks P ks' :=
  hfirst.bind hrest

end Grammar

/-! ### Completeness -/

open RecordLang.Parser RecordLang.Grammar

/-- The parsers of an item with an allowance of `n` levels, where so many kinds are ahead. -/
inductive Item.Runs (n length : Nat) : (i : Item) → Parser i.Tree → Prop
  | type {depth : Nat} (h : length ≤ depth) : Runs n length .type (typeExprWithin depth)
  | typedName : Runs n length .typedName Parser.typedName
  | field : Runs n length .field (Parser.field (allowing n).expression)
  | expression : Runs n length .expression (allowing n).expression

theorem Item.Runs.reporting {n length : Nat} {i : Item} {q : Parser i.Tree}
    (h : i.Runs n length q) : Reporting q := by
  cases h <;> infer_instance

theorem Item.Runs.mono {n length length' : Nat} {i : Item} {q : Parser i.Tree}
    (h : i.Runs n length q) (hl : length' ≤ length) : i.Runs n length' q := by
  cases h with
  | type h => exact .type (Nat.le_trans hl h)
  | typedName => exact .typedName
  | field => exact .field
  | expression => exact .expression

/-- A list of items may end with this symbol. -/
def Symbol.closes : Symbol → Bool
  | .closeParen | .closeBrace => true
  | _ => false

theorem Symbol.closes_ne {x : Symbol} {k : Kind} (hx : x.closes = true) (hk : k.startsPart = true) :
    k ≠ .symbol x := by
  rintro rfl
  unfold Symbol.closes at hx
  split at hx
  · cases hk
  · cases hk
  · cases hx

def Item.unplaced : (i : Item) → i.Tree → i.Tree
  | .type => TypeExpr.unplaced
  | .typedName => TypedName.unplaced
  | .field => fun f => (f.1.unplaced, f.2.unplaced)
  | .expression => Expr.unplaced

/-- What the parsers of a part do where the grammar reads it with `m` levels. -/
def Part.Complete (m : Nat) (ks ks' : List Kind) : (s : Part) → s.Tree → Prop
  | .item i, a => ∀ n q, i.Runs n ks.length q →
    Meets n m q ks (fun b => i.unplaced b = i.unplaced a) ks'
  | .items i close, as => ∀ n q, i.Runs n ks.length q → close.closes = true →
    Meets n m (Parser.items close q) ks (fun bs => bs.map i.unplaced = as.map i.unplaced)
      (.symbol close :: ks')
  | .statement, s => ∀ n,
    Meets n m (allowing n).statement ks (fun t => t.unplaced = s.unplaced) ks'
  | .statements last, ss => ∀ n ends, ends last = true →
    (∀ k : Kind, k.startsPart = true → ends k = false) →
    Meets n m (body ends (allowing n).statement) ks (fun ts => unplacedAll ts = unplacedAll ss) ks'
  | .operand l, e => ∀ n,
    Meets n m ((allowing n).operand l) ks (fun e' => e'.unplaced = e.unplaced) ks'
  | .chain l left, e => ∀ n left', left'.unplaced = left.unplaced →
    Meets n m ((allowing n).chain l left') ks (fun e' => e'.unplaced = e.unplaced) ks'
  | .unary, e => ∀ n, Meets n m (allowing n).unary ks (fun e' => e'.unplaced = e.unplaced) ks'
  | .primary, e => ∀ n,
    Meets n m (Parser.primary (allowing n).expression) ks (fun e' => e'.unplaced = e.unplaced) ks'
  | .suffixes first, e => ∀ n first', first'.unplaced = first.unplaced →
    Meets n m ((allowing n).suffixes first') ks (fun e' => e'.unplaced = e.unplaced) ks'

theorem Reads.opens {i : Item} {m : Nat} {ks ks' : List Kind} {a : i.Tree} {close : Symbol}
    (h : Reads (.item i) m ks a ks') (hclose : close.closes = true) : Meets.Opens close ks := by
  obtain ⟨k, ks₁, rfl, hk⟩ := h.begins.startsPart
  refine ⟨k, ks₁, rfl, Symbol.closes_ne hclose hk, ?_⟩
  rintro rfl
  cases hk

theorem Part.Complete.typeExpr {m n : Nat} {ks ks' : List Kind} {t : TypeExpr}
    (h : (Part.item .type).Complete m ks ks' t) :
    Meets n m Parser.typeExpr ks (fun t' => t'.unplaced = t.unplaced) ks' :=
  meets_typeExpr fun _ hdepth => h n _ (.type hdepth)

/-- A primary expression begins with neither a unary operator nor a function literal. -/
theorem Reads.primary_begins {m : Nat} {ks ks' : List Kind} {e : Expr}
    (h : Reads .primary m ks e ks') :
    ∃ k ks₁, ks = k :: ks₁ ∧ UnaryOp.ofKind? k = none ∧ k ≠ .keyword .fn := by
  cases h with
  | literal h =>
    refine ⟨_, _, rfl, ?_, ?_⟩
    · unfold Literal.ofKind? at h
      split at h
      all_goals first | rfl | cases h
    · rintro rfl
      cases h
  | group _ => exact ⟨_, _, rfl, rfl, nofun⟩
  | record _ _ => exact ⟨_, _, rfl, rfl, nofun⟩
  | variable_ _ => exact ⟨_, _, rfl, rfl, nofun⟩

theorem Kind.not_resumes {k : Kind} (h : k.startsExpression = true) : Cursor.resumes k = false := by
  cases k with
  | int | float | string | ident => rfl
  | keyword w => cases w <;> first | rfl | cases h
  | symbol x => cases x <;> first | rfl | cases h
  | eof => cases h

theorem Kind.not_ends {k : Kind} (h : k.startsPart = true) :
    (k == .symbol .closeBrace || k == .eof) = false := by
  simp only [Bool.or_eq_false_iff, beq_eq_false_iff_ne]
  constructor
  · exact Symbol.closes_ne rfl h
  · rintro rfl
    cases h

theorem Reads.complete {s : Part} {m : Nat} {ks ks' : List Kind} {a : s.Tree}
    (h : Reads s m ks a ks') : s.Complete m ks ks' a := by
  induction h with
  -- lists
  | itemsNil => exact fun n q hq hclose => Meets.itemsNil.mono fun bs hbs => by rw [hbs]
  | itemsLast item ih =>
    intro n q hq hclose
    have := hq.reporting
    refine (Meets.itemsLast (item.opens hclose) (ih n q hq) ?_).mono ?_
    · rintro rfl
      cases hclose
    · rintro _ ⟨b, hb, rfl⟩
      simp [hb]
  | itemsNext item rest ih ih' =>
    intro n q hq hclose
    have := hq.reporting
    have hlen := item.behind.shorter rfl
    rw [List.length_cons] at hlen
    refine (Meets.itemsNext (item.opens hclose) (ih n q hq)
      (ih' n q (hq.mono ?_) hclose) ?_).mono ?_
    · omega
    · omega
    · rintro _ ⟨b, bs, hb, hbs, rfl⟩
      simp [hb, hbs]
  -- types
  | named mark =>
    intro n q hq
    cases hq with | type hdepth
    obtain ⟨depth, rfl⟩ := Nat.exists_eq_add_of_lt hdepth
    exact meets_named mark fun span => rfl
  | null mark =>
    intro n q hq
    cases hq with | type hdepth
    obtain ⟨depth, rfl⟩ := Nat.exists_eq_add_of_lt hdepth
    exact meets_null mark fun span => rfl
  | functionType inParams inResult ih ih' =>
    intro n q hq
    cases hq with | type hdepth
    obtain ⟨depth, rfl⟩ := Nat.exists_eq_add_of_lt hdepth
    have hlen := inParams.behind.shorter rfl
    rw [List.length_cons] at hlen
    refine meets_functionType (ih n _ (.type ?_) rfl) (ih' n _ (.type ?_)) ?_
    · omega
    · omega
    · intro params result span hparams hresult
      simp only [Item.unplaced] at hparams hresult ⊢
      simp only [TypeExpr.unplaced, unplacedTypes_eq_map, hparams, hresult]
  | typedName _ ih =>
    intro n q hq
    cases hq
    refine meets_typedName ih.typeExpr fun at_ type span htype => ?_
    simp only [Item.unplaced, TypedName.unplaced, Ident.unplaced, htype]
  -- expressions
  | field _ ih =>
    intro n q hq
    cases hq
    refine meets_field (ih n _ .expression) fun at_ e he => ?_
    simp only [Item.unplaced, Ident.unplaced] at he ⊢
    rw [he]
  | expression _ ih =>
    intro n q hq
    cases hq
    exact meets_expression ih
  | operandZero _ ih => exact ih
  | operandSucc _ _ ih ih' => exact fun n => meets_operandSucc (ih n) (ih' n)
  | chainNil h => exact fun n left' hleft => meets_chainNil h hleft
  | @chainCons _ _ _ _ op _ _ _ _ _ _ _ h _ _ ih ih' =>
    intro n left' hleft
    refine meets_chainCons h ih fun n' right hright => ih' n' _ ?_
    rw [Operator.apply_eq]
    cases op <;> simp only [Expr.new, Operator.form, Expr.unplaced, Form.unplaced, hleft, hright]
  | unaryOp h _ ih =>
    intro n
    refine meets_unaryOp h ih fun e span he => ?_
    simp only [Expr.new, Expr.unplaced, Form.unplaced, he]
  | function _ _ _ ih ih' ih'' =>
    intro n
    refine meets_function (meets_functionLiteral (ih n _ .typedName rfl) ih'.typeExpr (ih'' n) ?_)
    intro params result body span hparams hresult hbody
    simp only [Item.unplaced] at hparams
    simp only [Expr.new, Expr.unplaced, Form.unplaced, hparams, hresult, hbody]
  | suffixed inFirst _ ih ih' =>
    intro n
    obtain ⟨k, ks₁, rfl, hop, hfn⟩ := inFirst.primary_begins
    exact meets_suffixed hop hfn (ih n) (ih' n)
  | literal h => exact fun n => meets_literal h fun span => rfl
  | group _ ih =>
    intro n
    refine meets_group (ih n _ .expression) fun e span he => ?_
    simp only [Item.unplaced] at he
    simp only [Expr.new, Expr.unplaced, Form.unplaced, he]
  | record h _ ih =>
    intro n
    refine meets_record h (ih n _ .field rfl) fun at_ fields span hfields => ?_
    simp only [Item.unplaced] at hfields
    simp only [Expr.new, Expr.unplaced, Form.unplaced, unplacedFields_eq_map, Ident.unplaced]
      at hfields ⊢
    rw [hfields]
  | variable_ h => exact fun n => meets_variable h fun span => rfl
  | suffixesNil hc hd => exact fun n e' he => meets_suffixesNil hc hd he
  | @get m _ _ e _ x span _ ih =>
    intro n e₁ he
    rw [← Nat.zero_max m]
    refine meets_suffixes (R := fun e₂ => e₂.unplaced = (Expr.new (.get e x) span).unplaced)
      (.inr rfl) (fun n' => meets_get fun at_ span => ?_) ih
    simp only [Expr.new, Expr.unplaced, Form.unplaced, Ident.unplaced, he]
  | @call _ _ _ _ _ e _ args span _ _ ih ih' =>
    intro n e₁ he
    refine meets_suffixes (R := fun e₂ => e₂.unplaced = (Expr.new (.call e args) span).unplaced)
      (.inl rfl) (fun n' => meets_call (ih n' _ .expression rfl) fun args span hargs => ?_) ih'
    simp only [Item.unplaced] at hargs
    simp only [Expr.new, Expr.unplaced, Form.unplaced, unplacedArgs_eq_map, he, hargs]
  -- statements
  | expr value ih =>
    intro n
    obtain ⟨k, ks₁, rfl, hk⟩ := value.begins
    refine meets_statement fun n' => meets_expr hk (ih n' _ .expression) fun e span he => ?_
    simp only [Item.unplaced] at he
    simp only [Stmt.unplaced, he]
  | declared _ h ih =>
    intro n
    refine meets_statement fun n' => meets_declared ih.typeExpr h fun at_ type span htype => ?_
    simp only [Stmt.unplaced, Ident.unplaced, htype]
  | initialized _ _ ih ih' =>
    intro n
    refine meets_statement fun n' => meets_initialized ih.typeExpr (ih' n' _ .expression)
      fun at_ type e span htype he => ?_
    simp only [Item.unplaced] at he
    simp only [Stmt.unplaced, Ident.unplaced, htype, he]
  | block _ ih =>
    intro n
    refine meets_statement fun n' => meets_block (ih n' _ rfl ?_) fun ss span hss => ?_
    · exact fun k hk => Kind.not_ends hk
    · simp only [Stmt.unplaced, hss]
  | if_ _ _ h ih ih' =>
    intro n
    refine meets_statement fun n' => meets_if (ih n' _ .expression) (ih' n') h
      fun e s span he hs => ?_
    simp only [Item.unplaced] at he
    simp only [Stmt.unplaced, he, hs]
  | ifElse _ _ _ ih ih' ih'' =>
    intro n
    refine meets_statement fun n' => meets_ifElse (ih n' _ .expression) (ih' n') (ih'' n')
      fun e s t span he hs ht => ?_
    simp only [Item.unplaced] at he
    simp only [Stmt.unplaced, he, hs, ht]
  | while_ _ _ ih ih' =>
    intro n
    refine meets_statement fun n' => meets_while (ih n' _ .expression) (ih' n')
      fun e s span he hs => ?_
    simp only [Item.unplaced] at he
    simp only [Stmt.unplaced, he, hs]
  | struct _ ih =>
    intro n
    refine meets_statement fun n' => meets_struct (ih n' _ .typedName rfl)
      fun at_ fields span hfields => ?_
    simp only [Item.unplaced] at hfields
    simp only [Stmt.unplaced, Ident.unplaced, hfields]
  | returnNone h => exact fun n => meets_statement fun n' => meets_returnNone h fun span => rfl
  | returnSome value ih =>
    intro n
    obtain ⟨k, ks₁, rfl, hk⟩ := value.begins
    refine meets_statement fun n' => meets_returnSome (Kind.not_resumes hk) (ih n' _ .expression)
      fun e span he => ?_
    simp only [Item.unplaced] at he
    simp only [Stmt.unplaced, he]
  | statementsNil =>
    intro n ends hlast hparts
    exact (Meets.bodyNil hlast).mono fun ts hts => by rw [hts]
  | statementsCons first _ ih ih' =>
    intro n ends hlast hparts
    obtain ⟨k, ks₁, rfl, hk⟩ := first.begins
    refine (Meets.bodyCons (hparts k hk) (ih n) (ih' n ends hlast hparts)
      (first.behind.shorter rfl)).mono ?_
    rintro _ ⟨t, ts, ht, hts, rfl⟩
    simp only [unplacedAll, ht, hts]

/-! ### Programs -/

theorem Cursor.map_closed (t : Token) (ts : List Token) : (closed t ts).map Token.kind =
    if ((t :: ts).map Token.kind).getLast? = some .eof then ts.map Token.kind
    else ts.map Token.kind ++ [.eof] := by
  induction ts generalizing t with
  | nil =>
    by_cases h : t.kind = .eof <;> simp [closed, h]
  | cons u us ih =>
    rw [closed, List.map_cons, ih u]
    simp only [List.map_cons, List.getLast?_cons_cons]
    split <;> rfl

/-- The end of the text is behind the kinds of a list of tokens, once. -/
theorem Cursor.kinds_ofTokens (tokens : List Token) : (Cursor.ofTokens tokens).kinds =
    if (tokens.map Token.kind).getLast? = some .eof then tokens.map Token.kind
    else tokens.map Token.kind ++ [.eof] := by
  cases tokens with
  | nil => rfl
  | cons t ts =>
    have h : (Cursor.ofTokens (t :: ts)).kinds = t.kind :: (closed t ts).map Token.kind := rfl
    rw [h, map_closed]
    split <;> rfl

theorem Cursor.closed_ofTokens (tokens : List Token) : (Cursor.ofTokens tokens).Closed := by
  rw [Closed, kinds_ofTokens]
  split
  · assumption
  · exact List.getLast?_concat

theorem Cursor.faults_ofTokens (tokens : List Token) :
    (Cursor.ofTokens tokens).faults = .empty := by
  cases tokens <;> rfl

/-- A run over all tokens that ends without faults makes a program. -/
theorem parse_of_run {tokens : List Token} {ss : List Stmt} {d : Cursor}
    (h : statements (· == .eof) (allowing GrammarCause.maxNesting).statement
      (Cursor.ofTokens tokens) = (ss, d)) (hd : d.faults = .empty) :
    parse tokens = ⟨some ⟨ss, (Cursor.ofTokens tokens).current.span.merge d.last⟩, .empty⟩ := by
  have hnone :
      ¬ (ss.isEmpty && (Capped.empty : Capped (Located GrammarCause)).nonempty) = true := by
    simp [Capped.nonempty, Capped.empty]
  simp only [parse, Grammar.full, h, hd]
  rw [if_neg hnone]

/-- A program that is read without a fault is in the grammar and takes no more levels than there
are. -/
theorem parse_reads {tokens : List Token} (h : (parse tokens).faults = .empty) :
    ∃ p rest, (parse tokens).program = some p ∧ ReadsWithin (.statements .eof)
      GrammarCause.maxNesting (Cursor.ofTokens tokens).kinds p.body (.eof :: rest) := by
  have hrun := @Yields.body (· == .eof) _ _ _ (sound_allowing GrammarCause.maxNesting).statement
  obtain ⟨-, k, rest, hks, hk, hreads⟩ := hrun.run (Cursor.closed_ofTokens tokens) rfl h
  obtain rfl : k = .eof := by simpa using hk
  rw [hks] at hreads
  exact ⟨⟨_, _⟩, rest, congrArg Parsed.program (parse_of_run rfl h), hreads⟩

/-- What is in the grammar is read without a fault if it takes no more levels than there are, and if
it takes more that is the first fault. -/
theorem Reads.parsed {tokens : List Token} {m : Nat} {ss : List Stmt} {rest : List Kind}
    (h : Reads (.statements .eof) m (Cursor.ofTokens tokens).kinds ss (.eof :: rest)) :
    (m ≤ GrammarCause.maxNesting → ∃ p, parse tokens = ⟨some p, .empty⟩ ∧
      unplacedAll p.body = unplacedAll ss) ∧
    (GrammarCause.maxNesting < m →
      ∃ span more, (parse tokens).faults.kept = ⟨.tooDeep, span⟩ :: more) := by
  have hbefore : (Cursor.ofTokens tokens).Before (Cursor.ofTokens tokens).kinds :=
    ⟨rfl, Cursor.faults_ofTokens tokens, Cursor.closed_ofTokens tokens⟩
  have hmeets := h.complete GrammarCause.maxNesting (· == .eof) rfl fun k hk =>
    (Bool.or_eq_false_iff.mp (Kind.not_ends hk)).2
  refine ⟨fun hm => ?_, fun hm => hmeets.refuses hm _ hbefore⟩
  obtain ⟨ts, d, hrun, hts, hd⟩ := hmeets.takes hm _ hbefore
  obtain ⟨hts', rfl⟩ := Prod.mk.inj hrun
  obtain rfl := Option.some.inj hts'
  exact ⟨_, parse_of_run rfl hd.clean, hts⟩

end RecordLang
