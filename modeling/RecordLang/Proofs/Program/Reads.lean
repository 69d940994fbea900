import RecordLang.Proofs.Program.Run

/-!
# The grammar as a relation

`Reads s m ks a ks'` says that at the front of the kinds `ks` there is a part `s` of a program, that
its tree is `a`, and that the kinds `ks'` are behind it. It says nothing about spans, cursors or
faults, and sets no limit: `m` is the number of nesting levels that reading the part takes. A comma
may stand behind the last item of a list.
-/

namespace RecordLang

/-- What stands in a list with commas. -/
inductive Item where
  | type | typedName | field | expression

abbrev Item.Tree : Item → Type
  | .type => TypeExpr
  | .typedName => TypedName
  | .field => Ident × Expr
  | .expression => Expr

/-- The parts of a program. The operators of a chain and the calls and member accesses behind an
expression are read once what stands before them is known. -/
inductive Part where
  | item (i : Item)
  | items (i : Item) (close : Symbol)
  | statement
  | statements (last : Kind)
  | operand (level : Nat)
  | chain (level : Nat) (left : Expr)
  | unary
  | primary
  | suffixes (e : Expr)

abbrev Part.Tree : Part → Type
  | .item i => i.Tree
  | .items i _ => List i.Tree
  | .statement => Stmt
  | .statements _ => List Stmt
  | .operand _ | .chain .. | .unary | .primary | .suffixes _ => Expr

/-- A mark that may be there. -/
inductive Marked (k : Kind) : List Kind → Bool → List Kind → Prop
  | there {ks : List Kind} : Marked k (k :: ks) true ks
  | missing {ks : List Kind} (h : ks.head? ≠ some k) : Marked k ks false ks

/-- The operator with its operands. -/
def Operator.form : Operator → Expr → Expr → Form
  | .binary op, l, r => .binary l op r
  | .logical op, l, r => .logical l op r

/-- The kinds behind a name make it the name of a record literal. -/
def opensRecord (name : String) : List Kind → Bool
  | .symbol .openBrace :: .ident _ :: .symbol .colon :: _ => true
  | .symbol .openBrace :: .symbol .closeBrace :: _ => name.toList.head?.any Char.isUpper
  | _ => false

/-! ### Rules -/

inductive Reads : (s : Part) → Nat → List Kind → s.Tree → List Kind → Prop
  -- lists
  | itemsNil {i : Item} {close : Symbol} {ks : List Kind} :
      Reads (.items i close) 0 (.symbol close :: ks) [] ks
  | itemsLast {i : Item} {close : Symbol} {m : Nat} {ks ks' : List Kind} {a : i.Tree}
      (item : Reads (.item i) m ks a (.symbol close :: ks')) : Reads (.items i close) m ks [a] ks'
  | itemsNext {i : Item} {close : Symbol} {m m' : Nat} {ks ks₁ ks' : List Kind} {a : i.Tree}
      {as : List i.Tree} (item : Reads (.item i) m ks a (.symbol .comma :: ks₁))
      (rest : Reads (.items i close) m' ks₁ as ks') :
      Reads (.items i close) (max m m') ks (a :: as) ks'
  -- types
  | named {name : String} {optional : Bool} {ks ks' : List Kind} {span : Span}
      (mark : Marked (.symbol .question) ks optional ks') :
      Reads (.item .type) 0 (.ident name :: ks) (.named name optional span) ks'
  | null {optional : Bool} {ks ks' : List Kind} {span : Span}
      (mark : Marked (.symbol .question) ks optional ks') :
      Reads (.item .type) 0 (.keyword .null :: ks) (.named "null" optional span) ks'
  | functionType {ks ks₁ ks' : List Kind} {params : List TypeExpr} {result : TypeExpr} {span : Span}
      (inParams : Reads (.items .type .closeParen) 0 ks params (.symbol .arrow :: ks₁))
      (inResult : Reads (.item .type) 0 ks₁ result ks') :
      Reads (.item .type) 0 (.symbol .openParen :: ks) (.function params result span) ks'
  | typedName {x : Ident} {ks ks' : List Kind} {type : TypeExpr} {span : Span}
      (inType : Reads (.item .type) 0 ks type ks') :
      Reads (.item .typedName) 0 (.ident x.name :: .symbol .colon :: ks) ⟨x, type, span⟩ ks'
  -- expressions
  | field {x : Ident} {m : Nat} {ks ks' : List Kind} {e : Expr}
      (value : Reads (.item .expression) m ks e ks') :
      Reads (.item .field) m (.ident x.name :: .symbol .colon :: ks) (x, e) ks'
  | expression {m : Nat} {ks ks' : List Kind} {e : Expr}
      (operand : Reads (.operand Operator.levels) m ks e ks') :
      Reads (.item .expression) (m + 1) ks e ks'
  | operandZero {m : Nat} {ks ks' : List Kind} {e : Expr} (unary : Reads .unary m ks e ks') :
      Reads (.operand 0) m ks e ks'
  | operandSucc {l m m' : Nat} {ks ks₁ ks' : List Kind} {left e : Expr}
      (first : Reads (.operand l) m ks left ks₁) (rest : Reads (.chain l left) m' ks₁ e ks') :
      Reads (.operand (l + 1)) (max m m') ks e ks'
  | chainNil {l : Nat} {k : Kind} {ks : List Kind} {left : Expr} (h : Operator.at? l k = none) :
      Reads (.chain l left) 0 (k :: ks) left (k :: ks)
  | chainCons {l m m' : Nat} {k : Kind} {op : Operator} {ks ks₁ ks' : List Kind}
      {left right e : Expr} {span : Span} (h : Operator.at? l k = some op)
      (second : Reads (.operand l) m ks right ks₁)
      (rest : Reads (.chain l (.new (op.form left right) span)) m' ks₁ e ks') :
      Reads (.chain l left) (max m m' + 1) (k :: ks) e ks'
  | unaryOp {m : Nat} {k : Kind} {op : UnaryOp} {ks ks' : List Kind} {e : Expr} {span : Span}
      (h : UnaryOp.ofKind? k = some op) (operand : Reads .unary m ks e ks') :
      Reads .unary (m + 1) (k :: ks) (.new (.unary op e) span) ks'
  | function {m : Nat} {ks ks₁ ks₂ ks' : List Kind} {params : List TypedName} {result : TypeExpr}
      {body : Stmt} {span : Span}
      (inParams : Reads (.items .typedName .closeParen) 0 ks params (.symbol .colon :: ks₁))
      (inResult : Reads (.item .type) 0 ks₁ result (.symbol .fatArrow :: ks₂))
      (inBody : Reads .statement m ks₂ body ks') :
      Reads .unary m (.keyword .fn :: .symbol .openParen :: ks)
        (.new (.function params result body) span) ks'
  | suffixed {m m' : Nat} {ks ks₁ ks' : List Kind} {first e : Expr}
      (inFirst : Reads .primary m ks first ks₁) (rest : Reads (.suffixes first) m' ks₁ e ks') :
      Reads .unary (max m m') ks e ks'
  | literal {k : Kind} {l : Literal} {ks : List Kind} {span : Span}
      (h : Literal.ofKind? k = some l) :
      Reads .primary 0 (k :: ks) (.new (.literal l) span) ks
  | group {m : Nat} {ks ks' : List Kind} {e : Expr} {span : Span}
      (inner : Reads (.item .expression) m ks e (.symbol .closeParen :: ks')) :
      Reads .primary m (.symbol .openParen :: ks) (.new (.group e) span) ks'
  | record {x : Ident} {m : Nat} {ks ks' : List Kind} {fields : List (Ident × Expr)} {span : Span}
      (h : opensRecord x.name (.symbol .openBrace :: ks) = true)
      (inFields : Reads (.items .field .closeBrace) m ks fields ks') :
      Reads .primary m (.ident x.name :: .symbol .openBrace :: ks) (.new (.record x fields) span) ks'
  | variable_ {name : String} {ks : List Kind} {span : Span} (h : opensRecord name ks = false) :
      Reads .primary 0 (.ident name :: ks) (.new (.variable name) span) ks
  | suffixesNil {k : Kind} {ks : List Kind} {e : Expr} (hc : k ≠ .symbol .openParen)
      (hd : k ≠ .symbol .dot) : Reads (.suffixes e) 0 (k :: ks) e (k :: ks)
  | get {m : Nat} {ks ks' : List Kind} {e e' : Expr} {x : Ident} {span : Span}
      (rest : Reads (.suffixes (.new (.get e x) span)) m ks e' ks') :
      Reads (.suffixes e) (m + 1) (.symbol .dot :: .ident x.name :: ks) e' ks'
  | call {m m' : Nat} {ks ks₁ ks' : List Kind} {e e' : Expr} {args : List Expr} {span : Span}
      (inArgs : Reads (.items .expression .closeParen) m ks args ks₁)
      (rest : Reads (.suffixes (.new (.call e args) span)) m' ks₁ e' ks') :
      Reads (.suffixes e) (max m m' + 1) (.symbol .openParen :: ks) e' ks'
  -- statements
  | expr {m : Nat} {ks ks' : List Kind} {e : Expr} {span : Span}
      (value : Reads (.item .expression) m ks e ks') : Reads .statement (m + 1) ks (.expr e span) ks'
  | declared {x : Ident} {k : Kind} {ks ks' : List Kind} {type : TypeExpr} {span : Span}
      (inType : Reads (.item .type) 0 ks type (k :: ks')) (h : k ≠ .symbol .eq) :
      Reads .statement 1 (.keyword .let_ :: .ident x.name :: .symbol .colon :: ks)
        (.let_ x type none span) (k :: ks')
  | initialized {x : Ident} {m : Nat} {ks ks₁ ks' : List Kind} {type : TypeExpr} {e : Expr}
      {span : Span} (inType : Reads (.item .type) 0 ks type (.symbol .eq :: ks₁))
      (value : Reads (.item .expression) m ks₁ e ks') :
      Reads .statement (m + 1) (.keyword .let_ :: .ident x.name :: .symbol .colon :: ks)
        (.let_ x type (some e) span) ks'
  | block {m : Nat} {ks ks' : List Kind} {body : List Stmt} {span : Span}
      (inBody : Reads (.statements (.symbol .closeBrace)) m ks body (.symbol .closeBrace :: ks')) :
      Reads .statement (m + 1) (.symbol .openBrace :: ks) (.block body span) ks'
  | if_ {m m' : Nat} {k : Kind} {ks ks₁ ks' : List Kind} {e : Expr} {s : Stmt} {span : Span}
      (condition : Reads (.item .expression) m ks e ks₁)
      (whenTrue : Reads .statement m' ks₁ s (k :: ks')) (h : k ≠ .keyword .else_) :
      Reads .statement (max m m' + 1) (.keyword .if_ :: ks) (.if_ e s none span) (k :: ks')
  | ifElse {m m' m'' : Nat} {ks ks₁ ks₂ ks' : List Kind} {e : Expr} {s s' : Stmt} {span : Span}
      (condition : Reads (.item .expression) m ks e ks₁)
      (whenTrue : Reads .statement m' ks₁ s (.keyword .else_ :: ks₂))
      (whenFalse : Reads .statement m'' ks₂ s' ks') :
      Reads .statement (max m (max m' m'') + 1) (.keyword .if_ :: ks) (.if_ e s (some s') span) ks'
  | while_ {m m' : Nat} {ks ks₁ ks' : List Kind} {e : Expr} {s : Stmt} {span : Span}
      (condition : Reads (.item .expression) m ks e ks₁) (body : Reads .statement m' ks₁ s ks') :
      Reads .statement (max m m' + 1) (.keyword .while_ :: ks) (.while_ e s span) ks'
  | struct {x : Ident} {ks ks' : List Kind} {fields : List TypedName} {span : Span}
      (inFields : Reads (.items .typedName .closeBrace) 0 ks fields ks') :
      Reads .statement 1 (.keyword .struct :: .ident x.name :: .symbol .openBrace :: ks)
        (.struct x fields span) ks'
  | returnNone {k : Kind} {ks : List Kind} {span : Span} (h : Cursor.resumes k = true) :
      Reads .statement 1 (.keyword .return_ :: k :: ks) (.return_ none span) (k :: ks)
  | returnSome {m : Nat} {ks ks' : List Kind} {e : Expr} {span : Span}
      (value : Reads (.item .expression) m ks e ks') :
      Reads .statement (m + 1) (.keyword .return_ :: ks) (.return_ (some e) span) ks'
  | statementsNil {last : Kind} {ks : List Kind} : Reads (.statements last) 0 (last :: ks) [] (last :: ks)
  | statementsCons {last : Kind} {m m' : Nat} {ks ks₁ ks' : List Kind} {s : Stmt} {ss : List Stmt}
      (first : Reads .statement m ks s ks₁) (rest : Reads (.statements last) m' ks₁ ss ks') :
      Reads (.statements last) (max m m') ks (s :: ss) ks'

/-! ### First kinds -/

/-- An expression may begin with this kind. -/
def Kind.startsExpression : Kind → Bool
  | .ident _ | .symbol .openParen | .symbol .minus | .symbol .bang | .keyword .fn => true
  | k => (Literal.ofKind? k).isSome

/-- A type, an item of a list, an expression or a statement may begin with this kind. -/
def Kind.startsPart (k : Kind) : Bool := k.startsExpression || k.startsStatement

theorem Kind.startsExpression_of_unaryOp {k : Kind} {op : UnaryOp}
    (h : UnaryOp.ofKind? k = some op) : k.startsExpression = true := by
  unfold UnaryOp.ofKind? at h
  split at h
  · rfl
  · rfl
  · cases h

theorem Kind.startsExpression_of_literal {k : Kind} {l : Literal} (h : Literal.ofKind? k = some l) :
    k.startsExpression = true := by
  unfold startsExpression
  split
  · rfl
  · rfl
  · rfl
  · rfl
  · rfl
  · rw [h]; rfl

/-- What a part begins with. A list is empty or begins with what is in it. -/
def Part.Begins : (s : Part) → List Kind → s.Tree → List Kind → Prop
  | .item .expression, ks, _, _ | .operand _, ks, _, _ | .unary, ks, _, _ | .primary, ks, _, _ =>
    ∃ k ks₁, ks = k :: ks₁ ∧ k.startsExpression = true
  | .item _, ks, _, _ | .statement, ks, _, _ => ∃ k ks₁, ks = k :: ks₁ ∧ k.startsPart = true
  | .items _ close, ks, as, ks' =>
    as = [] ∧ ks = .symbol close :: ks' ∨ as ≠ [] ∧ ∃ k ks₁, ks = k :: ks₁ ∧ k.startsPart = true
  | .statements last, ks, _, _ => ∃ k ks₁, ks = k :: ks₁ ∧ (k = last ∨ k.startsPart = true)
  | .chain .., _, _, _ | .suffixes _, _, _, _ => True

theorem Part.Begins.startsPart {i : Item} {ks ks' : List Kind} {a : i.Tree}
    (h : (Part.item i).Begins ks a ks') : ∃ k ks₁, ks = k :: ks₁ ∧ k.startsPart = true := by
  cases i with
  | type | typedName | field => exact h
  | expression =>
    obtain ⟨k, ks₁, rfl, hk⟩ := h
    exact ⟨k, ks₁, rfl, by rw [Kind.startsPart, hk, Bool.true_or]⟩

theorem Reads.begins {s : Part} {m : Nat} {ks ks' : List Kind} {a : s.Tree}
    (h : Reads s m ks a ks') : s.Begins ks a ks' := by
  induction h with
  | itemsNil => exact .inl ⟨rfl, rfl⟩
  | itemsLast _ ih => exact .inr ⟨nofun, ih.startsPart⟩
  | itemsNext _ _ ih _ => exact .inr ⟨nofun, ih.startsPart⟩
  | named | null | functionType | typedName | field => exact ⟨_, _, rfl, rfl⟩
  | expression _ ih => exact ih
  | operandZero _ ih => exact ih
  | operandSucc _ _ ih _ => exact ih
  | chainNil | chainCons => trivial
  | unaryOp h _ _ => exact ⟨_, _, rfl, Kind.startsExpression_of_unaryOp h⟩
  | function => exact ⟨_, _, rfl, rfl⟩
  | suffixed _ _ ih _ => exact ih
  | literal h => exact ⟨_, _, rfl, Kind.startsExpression_of_literal h⟩
  | group | record | variable_ => exact ⟨_, _, rfl, rfl⟩
  | suffixesNil | get | call => trivial
  | expr _ ih => exact ih.startsPart
  | declared | initialized | block | if_ | ifElse | while_ | struct | returnNone | returnSome =>
    exact ⟨_, _, rfl, rfl⟩
  | statementsNil => exact ⟨_, _, rfl, .inl rfl⟩
  | statementsCons _ _ ih _ =>
    obtain ⟨k, ks₁, rfl, hk⟩ := ih
    exact ⟨k, ks₁, rfl, .inr hk⟩

/-! ### Reading goes forward -/

/-- Reading the part takes at least one token. -/
def Part.takes : Part → Bool
  | .chain .. | .suffixes _ | .statements _ => false
  | _ => true

/-- What is behind a part, and that there is less of it if `strict`. -/
structure Behind (strict : Bool) (ks ks' : List Kind) : Prop where
  suffix : ks' <:+ ks
  shorter : strict = true → ks'.length < ks.length

namespace Behind

variable {strict strict' : Bool} {k : Kind} {ks ks₁ ks' : List Kind}

theorem refl (ks : List Kind) : Behind false ks ks := ⟨List.suffix_rfl, nofun⟩

theorem trans (h : Behind strict ks ks₁) (h' : Behind strict' ks₁ ks') : Behind strict ks ks' :=
  ⟨h'.suffix.trans h.suffix, fun hs => Nat.lt_of_le_of_lt h'.suffix.length_le (h.shorter hs)⟩

theorem cons (h : Behind strict ks ks') (k : Kind) : Behind true (k :: ks) ks' :=
  ⟨h.suffix.trans (List.suffix_cons k ks), fun _ => Nat.lt_succ_of_le h.suffix.length_le⟩

theorem skip (h : Behind strict ks (k :: ks')) : Behind strict ks ks' :=
  ⟨(List.suffix_cons k ks').trans h.suffix, fun _ => h.suffix.length_le⟩

theorem lax (h : Behind strict ks ks') : Behind false ks ks' := ⟨h.suffix, nofun⟩

end Behind

theorem Marked.behind {k : Kind} {ks ks' : List Kind} {b : Bool} (h : Marked k ks b ks') :
    Behind false ks ks' := by
  cases h with
  | there => exact ((Behind.refl _).cons k).lax
  | missing => exact .refl _

/-- What is behind a part is what is left of the kinds, and it is less unless the part is empty. -/
theorem Reads.behind {s : Part} {m : Nat} {ks ks' : List Kind} {a : s.Tree}
    (h : Reads s m ks a ks') : Behind s.takes ks ks' := by
  induction h with
  | itemsNil => exact (Behind.refl _).cons _
  | itemsLast _ ih => exact ih.skip
  | itemsNext _ _ ih ih' => exact ih.skip.trans ih'
  | named h | null h => exact h.behind.cons _
  | functionType _ _ ih ih' => exact (ih.skip.trans ih').cons _
  | typedName _ ih | field _ ih => exact (ih.cons _).cons _
  | expression _ ih | operandZero _ ih => exact ih
  | operandSucc _ _ ih ih' => exact ih.trans ih'
  | chainNil | suffixesNil | statementsNil => exact .refl _
  | chainCons _ _ _ ih ih' => exact ((ih.trans ih').cons _).lax
  | unaryOp _ _ ih => exact ih.cons _
  | function _ _ _ ih ih' ih'' => exact (((ih.skip.trans ih'.skip).trans ih'').cons _).cons _
  | suffixed _ _ ih ih' => exact ih.trans ih'
  | literal | variable_ => exact (Behind.refl _).cons _
  | group _ ih => exact ih.skip.cons _
  | record _ _ ih => exact (ih.cons _).cons _
  | get _ ih => exact ((ih.cons _).cons _).lax
  | call _ _ ih ih' => exact ((ih.trans ih').cons _).lax
  | expr _ ih => exact ih
  | declared _ _ ih => exact ((ih.cons _).cons _).cons _
  | initialized _ _ ih ih' => exact (((ih.skip.trans ih').cons _).cons _).cons _
  | block _ ih => exact ih.skip.cons _
  | if_ _ _ _ ih ih' => exact (ih.trans ih').cons _
  | ifElse _ _ _ ih ih' ih'' => exact ((ih.trans ih'.skip).trans ih'').cons _
  | while_ _ _ ih ih' => exact (ih.trans ih').cons _
  | struct _ ih => exact ((ih.cons _).cons _).cons _
  | returnNone => exact (Behind.refl _).cons _
  | returnSome _ ih => exact ih.cons _
  | statementsCons _ _ ih ih' => exact (ih.trans ih').lax

end RecordLang
