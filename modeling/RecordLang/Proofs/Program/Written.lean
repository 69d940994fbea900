import RecordLang.Proofs.Program.Complete
import RecordLang.Proofs.Program.Precedence

/-!
# The tokens of a tree

`kinds` writes a tree as the kinds of its tokens, with every bracket, word, operator and comma, but no
comma behind the last item of a list. These are the kinds that the tree was read from, once the commas
before closing symbols are left out of them (`Reads.kinds_eq`).
-/

namespace RecordLang

/-! ### Kinds of a tree -/

/-- Lists of kinds with commas between them. -/
def commas (parts : List (List Kind)) : List Kind := [.symbol .comma].intercalate parts

def Literal.kind : Literal → Kind
  | .int n => .int n
  | .float x => .float x
  | .string s => .string s
  | .bool true => .keyword .true_
  | .bool false => .keyword .false_
  | .null => .keyword .null

mutual

/-- The type of `null` is written with the reserved word. -/
def TypeExpr.kinds : TypeExpr → List Kind
  | .named name optional _ =>
    (if name = "null" then .keyword .null else .ident name) ::
      if optional then [.symbol .question] else []
  | .function params result _ =>
    .symbol .openParen :: (commas (kindsTypes params) ++
      .symbol .closeParen :: .symbol .arrow :: result.kinds)

def kindsTypes : List TypeExpr → List (List Kind)
  | [] => []
  | t :: ts => t.kinds :: kindsTypes ts

end

def TypedName.kinds (x : TypedName) : List Kind :=
  .ident x.name.name :: .symbol .colon :: x.type.kinds

mutual

def Expr.kinds : Expr → List Kind
  | .mk form _ _ => form.kinds

def Form.kinds : Form → List Kind
  | .literal l => [l.kind]
  | .variable x => [.ident x]
  | .group e => .symbol .openParen :: (e.kinds ++ [.symbol .closeParen])
  | .unary op e => .symbol op.symbol :: e.kinds
  | .binary l op r => l.kinds ++ (Operator.binary op).kind :: r.kinds
  | .logical l op r => l.kinds ++ (Operator.logical op).kind :: r.kinds
  | .function params result body =>
    .keyword .fn :: .symbol .openParen :: (commas (params.map TypedName.kinds) ++
      .symbol .closeParen :: .symbol .colon :: (result.kinds ++ .symbol .fatArrow :: body.kinds))
  | .call f args =>
    f.kinds ++ .symbol .openParen :: (commas (kindsArgs args) ++ [.symbol .closeParen])
  | .get e x => e.kinds ++ [.symbol .dot, .ident x.name]
  | .record x fields =>
    .ident x.name :: .symbol .openBrace :: (commas (kindsFields fields) ++ [.symbol .closeBrace])

def kindsArgs : List Expr → List (List Kind)
  | [] => []
  | e :: es => e.kinds :: kindsArgs es

def kindsFields : List (Ident × Expr) → List (List Kind)
  | [] => []
  | (x, e) :: fs => (.ident x.name :: .symbol .colon :: e.kinds) :: kindsFields fs

def Stmt.kinds : Stmt → List Kind
  | .expr e _ => e.kinds
  | .let_ x type none _ => .keyword .let_ :: .ident x.name :: .symbol .colon :: type.kinds
  | .let_ x type (some e) _ =>
    .keyword .let_ :: .ident x.name :: .symbol .colon :: (type.kinds ++ .symbol .eq :: e.kinds)
  | .block body _ => .symbol .openBrace :: (kindsAll body ++ [.symbol .closeBrace])
  | .if_ e s none _ => .keyword .if_ :: (e.kinds ++ s.kinds)
  | .if_ e s (some t) _ => .keyword .if_ :: (e.kinds ++ (s.kinds ++ .keyword .else_ :: t.kinds))
  | .while_ e s _ => .keyword .while_ :: (e.kinds ++ s.kinds)
  | .struct x fields _ =>
    .keyword .struct :: .ident x.name :: .symbol .openBrace ::
      (commas (fields.map TypedName.kinds) ++ [.symbol .closeBrace])
  | .return_ none _ => [.keyword .return_]
  | .return_ (some e) _ => .keyword .return_ :: e.kinds

def kindsAll : List Stmt → List Kind
  | [] => []
  | s :: ss => s.kinds ++ kindsAll ss

end

def Program.kinds (p : Program) : List Kind := kindsAll p.body

def Item.kinds : (i : Item) → i.Tree → List Kind
  | .type => TypeExpr.kinds
  | .typedName => TypedName.kinds
  | .field => fun f => .ident f.1.name :: .symbol .colon :: f.2.kinds
  | .expression => Expr.kinds

theorem kindsTypes_eq (ts : List TypeExpr) : kindsTypes ts = ts.map Item.type.kinds := by
  induction ts with
  | nil => rfl
  | cons t ts ih => rw [kindsTypes, ih]; rfl

theorem kindsArgs_eq (es : List Expr) : kindsArgs es = es.map Item.expression.kinds := by
  induction es with
  | nil => rfl
  | cons e es ih => rw [kindsArgs, ih]; rfl

theorem kindsFields_eq (fs : List (Ident × Expr)) : kindsFields fs = fs.map Item.field.kinds := by
  induction fs with
  | nil => rfl
  | cons f fs ih => rw [kindsFields, ih]; rfl

theorem Operator.kinds_form (op : Operator) (left right : Expr) (span : Span) :
    (Expr.new (op.form left right) span).kinds = left.kinds ++ op.kind :: right.kinds := by
  cases op <;> rfl

/-! ### Kinds back from what they stand for -/

theorem Literal.eq_kind {k : Kind} {l : Literal} (h : ofKind? k = some l) : k = l.kind := by
  unfold ofKind? at h
  split at h <;> cases h <;> rfl

theorem UnaryOp.eq_symbol {k : Kind} {op : UnaryOp} (h : ofKind? k = some op) :
    k = .symbol op.symbol := by
  unfold ofKind? at h
  split at h <;> cases h <;> rfl

theorem Operator.eq_kind {k : Kind} {op : Operator} (h : ofKind? k = some op) : k = op.kind := by
  unfold ofKind? at h
  split at h
  · next x =>
    obtain ⟨op, hx, rfl⟩ := Option.map_eq_some_iff.mp h
    unfold BinaryOp.ofSymbol? at hx
    split at hx <;> cases hx <;> rfl
  · cases h; rfl
  · cases h; rfl
  · cases h

/-! ### Commas before a closing symbol -/

/-- Neither a comma nor an opening brace. -/
structure Kind.Inert (k : Kind) : Prop where
  notComma : k ≠ .symbol .comma
  notBrace : k ≠ .symbol .openBrace

theorem Symbol.inert_of_closes {x : Symbol} (h : x.closes = true) : (Kind.symbol x).Inert := by
  unfold closes at h
  split at h
  · exact ⟨nofun, nofun⟩
  · exact ⟨nofun, nofun⟩
  · cases h

theorem Literal.inert_kind (l : Literal) : l.kind.Inert := by
  unfold kind
  split <;> exact ⟨nofun, nofun⟩

theorem UnaryOp.inert_symbol (op : UnaryOp) : (Kind.symbol op.symbol).Inert := by
  cases op <;> exact ⟨nofun, nofun⟩

theorem Operator.inert_kind (op : Operator) : op.kind.Inert := by
  cases op with | binary op | logical op => cases op <;> exact ⟨nofun, nofun⟩

/-- The kinds without the commas that stand before a closing symbol. -/
def pruned : List Kind → List Kind
  | [] => []
  | k :: ks =>
    if k = .symbol .comma ∧ (ks.head? = some (.symbol .closeParen) ∨
      ks.head? = some (.symbol .closeBrace)) then pruned ks
    else k :: pruned ks

theorem pruned_cons {k : Kind} {ks : List Kind} (h : k ≠ .symbol .comma) :
    pruned (k :: ks) = k :: pruned ks :=
  if_neg fun hc => h hc.1

theorem pruned_trailing {close : Symbol} {ks : List Kind} (h : close.closes = true) :
    pruned (.symbol .comma :: .symbol close :: ks) = .symbol close :: pruned ks := by
  unfold Symbol.closes at h
  split at h
  · exact (if_pos ⟨rfl, .inl rfl⟩).trans (pruned_cons nofun)
  · exact (if_pos ⟨rfl, .inr rfl⟩).trans (pruned_cons nofun)
  · cases h

theorem pruned_comma {k : Kind} {ks : List Kind} (h : k.startsPart = true) :
    pruned (.symbol .comma :: k :: ks) = .symbol .comma :: pruned (k :: ks) := by
  refine if_neg fun hc => ?_
  rcases hc.2 with hk | hk
  · exact Symbol.closes_ne rfl h (Option.some.inj hk)
  · exact Symbol.closes_ne rfl h (Option.some.inj hk)

/-- No identifier is spelled like the type of `null`. -/
def Plain (ks : List Kind) : Prop := ∀ k ∈ ks, k ≠ .ident "null"

theorem Plain.tail {k : Kind} {ks : List Kind} (h : Plain (k :: ks)) : Plain ks :=
  (List.forall_mem_cons.mp h).2

theorem Plain.behind {strict : Bool} {ks ks' : List Kind} (h : Plain ks) (hb : Behind strict ks ks') :
    Plain ks' :=
  fun k hk => h k (hb.suffix.subset hk)

/-! ### Kinds of what is read -/

/-- The kinds in front are those of the tree. A chain takes up the kinds of its first operand. -/
def Part.Written (ks ks' : List Kind) : (s : Part) → s.Tree → Prop
  | .item i, a => pruned ks = i.kinds a ++ pruned ks'
  | .items i close, as => close.closes = true →
    pruned ks = commas (as.map i.kinds) ++ .symbol close :: pruned ks'
  | .statement, s => pruned ks = s.kinds ++ pruned ks'
  | .statements _, ss => pruned ks = kindsAll ss ++ pruned ks'
  | .operand _, e | .unary, e | .primary, e => pruned ks = e.kinds ++ pruned ks'
  | .chain _ left, e => left.kinds ++ pruned ks = e.kinds ++ pruned ks'
  | .suffixes first, e => first.kinds ++ pruned ks = e.kinds ++ pruned ks'

theorem Marked.pruned_eq {ks ks' : List Kind} {b : Bool} (h : Marked (.symbol .question) ks b ks') :
    pruned ks = (if b then [.symbol .question] else []) ++ pruned ks' := by
  cases h with
  | there => exact pruned_cons nofun
  | missing => rfl

/-- Written once more, a tree gives the kinds that it was read from, but for commas before closing
symbols. -/
theorem Reads.kinds_eq {s : Part} {m : Nat} {ks ks' : List Kind} {a : s.Tree}
    (h : Reads s m ks a ks') (hp : Plain ks) : s.Written ks ks' a := by
  induction h with
  -- lists
  | itemsNil => exact fun hclose => pruned_cons (Symbol.inert_of_closes hclose).notComma
  | itemsLast _ ih =>
    intro hclose
    have h := ih hp
    simp only [Part.Written] at h
    rw [h, pruned_cons (Symbol.inert_of_closes hclose).notComma, List.map_singleton, commas,
      List.intercalate_singleton]
  | itemsNext item rest ih ih' =>
    intro hclose
    have h := ih hp
    have h' := ih' (hp.behind item.behind.skip) hclose
    simp only [Part.Written] at h h'
    rcases rest.begins with ⟨rfl, rfl⟩ | ⟨hne, k, ks₁, rfl, hk⟩
    · -- the comma is the last one of the list
      rw [h, pruned_trailing hclose, List.map_singleton, commas, List.intercalate_singleton]
    · obtain ⟨b, bs, rfl⟩ := List.exists_cons_of_ne_nil hne
      rw [h, pruned_comma hk, h']
      simp [commas, List.intercalate_cons_cons]
  -- types
  | named mark =>
    have hne : _ ≠ _ := (List.forall_mem_cons.mp hp).1
    simp only [ne_eq, Kind.ident.injEq] at hne
    simp only [Part.Written, Item.kinds, TypeExpr.kinds, if_neg hne, List.cons_append,
      ← mark.pruned_eq]
    exact pruned_cons (by simp)
  | null mark =>
    simp only [Part.Written, Item.kinds, TypeExpr.kinds, if_true, List.cons_append,
      ← mark.pruned_eq]
    exact pruned_cons (by simp)
  | functionType inParams _ ih ih' =>
    have h := ih hp.tail rfl
    have h' := ih' (hp.tail.behind inParams.behind.skip)
    simp only [Part.Written, Item.kinds] at h h' ⊢
    simp [pruned_cons, TypeExpr.kinds, kindsTypes_eq, Item.kinds, h, h']
  | typedName _ ih | field _ ih =>
    have h := ih hp.tail.tail
    simp only [Part.Written, Item.kinds] at h ⊢
    simp [pruned_cons, TypedName.kinds, h]
  -- expressions
  | expression _ ih | operandZero _ ih => exact ih hp
  | operandSucc first _ ih ih' => exact (ih hp).trans (ih' (hp.behind first.behind))
  | chainNil => exact rfl
  | chainCons h second _ ih ih' =>
    have hsecond := ih hp.tail
    have hrest := ih' (hp.tail.behind second.behind)
    obtain rfl := Operator.eq_kind (Operator.at?_eq_some h).1
    simp only [Part.Written, Operator.kinds_form] at hsecond hrest ⊢
    rw [pruned_cons (Operator.inert_kind _).notComma, hsecond, ← hrest]
    simp
  | unaryOp h _ ih =>
    have hoperand := ih hp.tail
    obtain rfl := UnaryOp.eq_symbol h
    simp only [Part.Written] at hoperand ⊢
    rw [pruned_cons (UnaryOp.inert_symbol _).notComma, hoperand]
    rfl
  | function inParams inResult _ ih ih' ih'' =>
    have hp₁ := hp.tail.tail.behind inParams.behind.skip
    have h := ih hp.tail.tail rfl
    have h' := ih' hp₁
    have h'' := ih'' (hp₁.behind inResult.behind.skip)
    simp only [Part.Written, Item.kinds] at h h' h'' ⊢
    simp [pruned_cons, Expr.new, Expr.kinds, Form.kinds, h, h', h'']
  | suffixed inFirst _ ih ih' => exact (ih hp).trans (ih' (hp.behind inFirst.behind))
  | literal h =>
    obtain rfl := Literal.eq_kind h
    exact pruned_cons (Literal.inert_kind _).notComma
  | group _ ih =>
    have h := ih hp.tail
    simp only [Part.Written, Item.kinds] at h ⊢
    simp [pruned_cons, Expr.new, Expr.kinds, Form.kinds, h]
  | record _ _ ih =>
    have h := ih hp.tail.tail rfl
    simp only [Part.Written] at h ⊢
    simp [pruned_cons, Expr.new, Expr.kinds, Form.kinds, kindsFields_eq, h]
  | variable_ => exact pruned_cons (by simp)
  | suffixesNil => exact rfl
  | get _ ih =>
    have h := ih hp.tail.tail
    simp only [Part.Written, Expr.new, Expr.kinds, Form.kinds] at h ⊢
    rw [← h]
    simp [pruned_cons]
  | call inArgs _ ih ih' =>
    have h := ih hp.tail rfl
    have h' := ih' (hp.tail.behind inArgs.behind)
    simp only [Part.Written, Expr.new, Expr.kinds, Form.kinds] at h h' ⊢
    rw [← h']
    simp [pruned_cons, kindsArgs_eq, h]
  -- statements
  | expr _ ih => exact ih hp
  | declared _ _ ih =>
    have h := ih hp.tail.tail.tail
    simp only [Part.Written, Item.kinds] at h ⊢
    simp [pruned_cons, Stmt.kinds, h]
  | initialized inType _ ih ih' =>
    have h := ih hp.tail.tail.tail
    have h' := ih' (hp.tail.tail.tail.behind inType.behind.skip)
    simp only [Part.Written, Item.kinds] at h h' ⊢
    simp [pruned_cons, Stmt.kinds, h, h']
  | block _ ih =>
    have h := ih hp.tail
    simp only [Part.Written] at h ⊢
    simp [pruned_cons, Stmt.kinds, h]
  | if_ condition _ _ ih ih' =>
    have h := ih hp.tail
    have h' := ih' (hp.tail.behind condition.behind)
    simp only [Part.Written, Item.kinds] at h h' ⊢
    simp [pruned_cons, Stmt.kinds, h, h']
  | ifElse condition whenTrue _ ih ih' ih'' =>
    have hp₁ := hp.tail.behind condition.behind
    have h := ih hp.tail
    have h' := ih' hp₁
    have h'' := ih'' (hp₁.behind whenTrue.behind.skip)
    simp only [Part.Written, Item.kinds] at h h' h'' ⊢
    simp [pruned_cons, Stmt.kinds, h, h', h'']
  | while_ condition _ ih ih' =>
    have h := ih hp.tail
    have h' := ih' (hp.tail.behind condition.behind)
    simp only [Part.Written, Item.kinds] at h h' ⊢
    simp [pruned_cons, Stmt.kinds, h, h']
  | struct _ ih =>
    have h := ih hp.tail.tail.tail rfl
    simp only [Part.Written, Item.kinds] at h ⊢
    simp [pruned_cons, Stmt.kinds, h]
  | returnNone => exact pruned_cons (by simp)
  | returnSome _ ih =>
    have h := ih hp.tail
    simp only [Part.Written, Item.kinds] at h ⊢
    simp [pruned_cons, Stmt.kinds, h]
  | statementsNil => exact rfl
  | statementsCons first _ ih ih' =>
    have h := ih hp
    have h' := ih' (hp.behind first.behind)
    simp only [Part.Written] at h h' ⊢
    rw [h, h', kindsAll, List.append_assoc]

end RecordLang
