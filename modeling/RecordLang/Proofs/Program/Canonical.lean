import RecordLang.Proofs.Program.Nesting
import RecordLang.Proofs.Program.Written
import RecordLang.Proofs.Typing.Bare

/-!
# Canonical expressions are read back

A canonical expression has no function literals, and its nodes keep the order of precedence; a record
literal without fields has a name with a capital. Its kinds, up to the end of the text, are read as
the expression itself, up to places, if it takes no more levels than there are (`parse_canonical`).

What is read behind an expression is arbitrary (`Expr.ReadsBack`): an operator of a level goes on with
the chain that the expression begins, and a call or a member access with its suffixes.
-/

namespace RecordLang

/-- The node may stand in a canonical tree. -/
def Form.Canonical : Form → Prop
  | .function .. => False
  | .record x fields => fields = [] → x.name.toList.head?.any Char.isUpper = true
  | f => f.Bound

def Expr.Canonical (e : Expr) : Prop := ∀ f ∈ e.forms, f.Canonical

instance : (f : Form) → Decidable f.Canonical
  | .literal _ | .variable _ | .group _ => inferInstanceAs (Decidable True)
  | .unary _ e => inferInstanceAs (Decidable (e.form.looseness = 0))
  | .binary l op r => inferInstanceAs (Decidable
      (l.form.looseness ≤ (Operator.binary op).level + 1 ∧
        r.form.looseness < (Operator.binary op).level + 1))
  | .logical l op r => inferInstanceAs (Decidable
      (l.form.looseness ≤ (Operator.logical op).level + 1 ∧
        r.form.looseness < (Operator.logical op).level + 1))
  | .function .. => inferInstanceAs (Decidable False)
  | .call f _ => inferInstanceAs (Decidable (f.form.isPostfix = true))
  | .get e _ => inferInstanceAs (Decidable (e.form.isPostfix = true))
  | .record x fields => inferInstanceAs (Decidable
      (fields = [] → x.name.toList.head?.any Char.isUpper = true))

instance (e : Expr) : Decidable e.Canonical := inferInstanceAs (Decidable (∀ f ∈ e.forms, f.Canonical))

/-! ### What may follow -/

/-- An operand of the operators of a level ends before these kinds, also if it is a name. -/
structure Stops (l : Nat) (ks : List Kind) : Prop where
  ends : EndsBefore l ks
  noBrace : ks.head? ≠ some (.symbol .openBrace)

theorem Stops.mono {l l' : Nat} {ks : List Kind} (h : Stops l ks) (hl : l' ≤ l) : Stops l' ks :=
  ⟨h.ends.mono hl, h.noBrace⟩

theorem Stops.operator (op : Operator) (ks : List Kind) : Stops op.level (op.kind :: ks) := by
  refine ⟨⟨_, _, rfl, op.ends_kind⟩, fun h => ?_⟩
  exact op.inert_kind.notBrace (Option.some.inj h)

theorem Stops.mark {x : Symbol} (h : x.closes = true ∨ x = .comma) (l : Nat) (ks : List Kind) :
    Stops l (.symbol x :: ks) := by
  have hcases : x = .closeParen ∨ x = .closeBrace ∨ x = .comma := by
    rcases h with h | h
    · unfold Symbol.closes at h
      split at h
      · exact .inl rfl
      · exact .inr (.inl rfl)
      · cases h
    · exact .inr (.inr h)
  rcases hcases with rfl | rfl | rfl
  all_goals exact ⟨⟨_, _, rfl, nofun, nofun, fun _ _ => rfl⟩, nofun⟩

theorem Stops.eof (l : Nat) : Stops l [.eof] := ⟨⟨_, _, rfl, Kind.ends_eof l⟩, nofun⟩

theorem opensRecord_of_head {name : String} {ks : List Kind}
    (h : ks.head? ≠ some (.symbol .openBrace)) : opensRecord name ks = false := by
  unfold opensRecord
  split
  · exact absurd rfl h
  · exact absurd rfl h
  · rfl

theorem Form.looseness_le_levels (f : Form) : f.looseness ≤ Operator.levels := by
  unfold looseness Operator.levels
  split
  · next op _ => cases op <;> decide
  · next op _ => cases op <;> decide
  · exact Nat.zero_le _

/-- An operand of some operators is an operand of looser ones. -/
theorem Reads.looser {i l m : Nat} {ks ks' : List Kind} {e : Expr} (h : Reads (.operand i) m ks e ks')
    (hi : i ≤ l) (hend : EndsBefore l ks') : Reads (.operand l) m ks e ks' := by
  induction hi with
  | refl => exact h
  | @step l hi ih =>
    have hfirst := ih (hend.mono (Nat.le_succ l))
    obtain ⟨k, ks', rfl, hk⟩ := hend
    have hall := hfirst.operandSucc (.chainNil (hk.noOperator l (Nat.lt_succ_self l)))
    rwa [Nat.max_zero] at hall

/-! ### Reading back, whatever follows -/

/-- The kinds of the expression are read as the expression, and as the beginning of what goes on
behind it. -/
structure Expr.ReadsBack (e : Expr) : Prop where
  operand : ∀ {l : Nat} {ks : List Kind}, e.form.looseness ≤ l → Stops l ks →
    Reads (.operand l) e.levels (e.kinds ++ ks) e.bare ks
  chain : ∀ {l m : Nat} {ks ks' : List Kind} {e' : Expr}, e.form.looseness ≤ l + 1 → Stops l ks →
    Reads (.chain l e.bare) m ks e' ks' →
    Reads (.operand (l + 1)) (max e.levels (e.spine l + m)) (e.kinds ++ ks) e' ks'
  unary : ∀ {ks : List Kind}, e.form.looseness = 0 → Stops 0 ks →
    Reads .unary e.levels (e.kinds ++ ks) e.bare ks
  suffixes : ∀ {m : Nat} {ks ks' : List Kind} {e' : Expr}, e.form.isPostfix = true →
    ks.head? ≠ some (.symbol .openBrace) → Reads (.suffixes e.bare) m ks e' ks' →
    Reads .unary (max e.levels (e.tail + m)) (e.kinds ++ ks) e' ks'

namespace Expr.ReadsBack

variable {e : Expr}

/-- What is tighter than a level is the first operand of its chain. -/
theorem chain_of_operand {l m : Nat} {ks ks' : List Kind} {e' : Expr}
    (h : Reads (.operand l) e.levels (e.kinds ++ ks) e.bare ks) (hl : e.form.looseness ≤ l)
    (hrest : Reads (.chain l e.bare) m ks e' ks') :
    Reads (.operand (l + 1)) (max e.levels (e.spine l + m)) (e.kinds ++ ks) e' ks' := by
  have hspine : e.spine l = 0 := Expr.spine_of_looseness hl
  rw [hspine, Nat.zero_add]
  exact h.operandSucc hrest

theorem of_unary (h0 : e.form.looseness = 0)
    (hunary : ∀ {ks : List Kind}, Stops 0 ks → Reads .unary e.levels (e.kinds ++ ks) e.bare ks)
    (hsuffixes : ∀ {m : Nat} {ks ks' : List Kind} {e' : Expr}, e.form.isPostfix = true →
      ks.head? ≠ some (.symbol .openBrace) → Reads (.suffixes e.bare) m ks e' ks' →
      Reads .unary (max e.levels (e.tail + m)) (e.kinds ++ ks) e' ks') : e.ReadsBack := by
  have hoperand : ∀ {l : Nat} {ks : List Kind}, Stops l ks →
      Reads (.operand l) e.levels (e.kinds ++ ks) e.bare ks := fun {l ks} hs =>
    (hunary (hs.mono (Nat.zero_le l))).operand l hs.ends
  refine ⟨fun _ hs => hoperand hs, fun {l m ks ks' e'} _ hs hrest => ?_, fun _ hs => hunary hs,
    hsuffixes⟩
  exact chain_of_operand (hoperand hs) (by omega) hrest

theorem of_postfix (hp : e.form.isPostfix = true)
    (hsuffixes : ∀ {m : Nat} {ks ks' : List Kind} {e' : Expr},
      ks.head? ≠ some (.symbol .openBrace) → Reads (.suffixes e.bare) m ks e' ks' →
      Reads .unary (max e.levels (e.tail + m)) (e.kinds ++ ks) e' ks') : e.ReadsBack := by
  refine of_unary (Form.looseness_of_isPostfix hp) (fun {ks} hs => ?_) fun _ => hsuffixes
  have hbrace := hs.noBrace
  obtain ⟨k, ks', rfl, hk⟩ := hs.ends
  have hall := hsuffixes hbrace (.suffixesNil hk.noCall hk.noGet)
  have htail := e.tail_le_levels
  have hm : max e.levels (e.tail + 0) = e.levels := by omega
  rwa [hm] at hall

theorem of_atom (ha : e.form.isAtom = true)
    (hprimary : ∀ {ks : List Kind}, ks.head? ≠ some (.symbol .openBrace) →
      Reads .primary e.levels (e.kinds ++ ks) e.bare ks) : e.ReadsBack := by
  refine of_postfix (Form.isPostfix_of_isAtom ha) fun {m ks ks' e'} hbrace hrest => ?_
  have htail : e.tail = 0 := Expr.tail_of_isAtom ha
  rw [htail, Nat.zero_add]
  exact (hprimary hbrace).suffixed hrest

/-- A call or a member access is read behind what it is applied to. -/
theorem of_suffix {first : Expr} {n : Nat} {more : List Kind} (hfirst : first.ReadsBack)
    (hp : first.form.isPostfix = true) (hpost : e.form.isPostfix = true)
    (hkinds : e.kinds = first.kinds ++ more) (hmore : more.head? ≠ some (.symbol .openBrace))
    (hne : more ≠ []) (hlevels : e.levels = max first.levels (first.tail + n + 1))
    (htail : e.tail = first.tail + 1)
    (hstep : ∀ {m : Nat} {ks ks' : List Kind} {e' : Expr}, Reads (.suffixes e.bare) m ks e' ks' →
      Reads (.suffixes first.bare) (max n m + 1) (more ++ ks) e' ks') : e.ReadsBack := by
  refine of_postfix hpost fun {m ks ks' e'} _ hrest => ?_
  have hhead : (more ++ ks).head? ≠ some (.symbol .openBrace) := by
    obtain ⟨k, more, rfl⟩ := List.exists_cons_of_ne_nil hne
    exact hmore
  have hall := hfirst.suffixes hp hhead (hstep hrest)
  rw [← List.append_assoc, ← hkinds] at hall
  have hm : max first.levels (first.tail + (max n m + 1)) = max e.levels (e.tail + m) := by
    omega
  rwa [hm] at hall

theorem of_operator {left right : Expr} {span : Span} (op : Operator) (hleft : left.ReadsBack)
    (hright : right.ReadsBack) (hl : left.form.looseness ≤ op.level + 1)
    (hr : right.form.looseness ≤ op.level) (hform : e.form = op.form left right)
    (hbare : e.bare = .new (op.form left.bare right.bare) span)
    (hkinds : e.kinds = left.kinds ++ op.kind :: right.kinds)
    (hlevels : e.levels = max left.levels (left.spine op.level + right.levels + 1))
    (hspine : e.spine op.level = left.spine op.level + 1) : e.ReadsBack := by
  have hloose : e.form.looseness = op.level + 1 := by rw [hform, op.looseness_form]
  have hat : Operator.at? op.level op.kind = some op := by rw [op.at?_kind, if_pos rfl]
  -- the right operand is read inside the operator, and the chain of the left operand goes on
  have hchain : ∀ {m : Nat} {ks ks' : List Kind} {e' : Expr}, Stops op.level ks →
      Reads (.chain op.level e.bare) m ks e' ks' →
      Reads (.operand (op.level + 1)) (max e.levels (e.spine op.level + m)) (e.kinds ++ ks) e' ks' := by
    intro m ks ks' e' hs hrest
    rw [hbare] at hrest
    have hnext := Reads.chainCons hat (hright.operand hr hs) hrest
    have hall := hleft.chain hl (Stops.operator op _) hnext
    have hks : e.kinds ++ ks = left.kinds ++ op.kind :: (right.kinds ++ ks) := by
      rw [hkinds, List.append_assoc, List.cons_append]
    have hm : max left.levels (left.spine op.level + (max right.levels m + 1)) =
        max e.levels (e.spine op.level + m) := by
      omega
    rwa [hm, ← hks] at hall
  have hoperand : ∀ {l : Nat} {ks : List Kind}, e.form.looseness ≤ l → Stops l ks →
      Reads (.operand l) e.levels (e.kinds ++ ks) e.bare ks := by
    intro l ks hle hs
    have hends := hs.ends
    have hs' : Stops op.level ks := hs.mono (by omega)
    obtain ⟨k, ks', rfl, hk⟩ := hends
    have hnil : Reads (.chain op.level e.bare) 0 (k :: ks') e.bare (k :: ks') :=
      .chainNil (hk.noOperator _ (by omega))
    have hown := hchain hs' hnil
    have hspine' := e.spine_le_levels op.level
    have hm : max e.levels (e.spine op.level + 0) = e.levels := by omega
    rw [hm] at hown
    exact hown.looser (by omega) hs.ends
  refine ⟨hoperand, fun {l m ks ks' e'} hle hs hrest => ?_, fun h0 => ?_, fun hp => ?_⟩
  · by_cases hown : op.level = l
    · subst hown
      exact hchain hs hrest
    · have htight : e.form.looseness ≤ l := by omega
      exact chain_of_operand (hoperand htight hs) htight hrest
  · omega
  · have h0 := Form.looseness_of_isPostfix hp
    omega

theorem expression (h : e.ReadsBack) {ks : List Kind} (hs : Stops Operator.levels ks) :
    Reads (.item .expression) (e.levels + 1) (e.kinds ++ ks) e.bare ks :=
  .expression (h.operand e.form.looseness_le_levels hs)

end Expr.ReadsBack

/-! ### Lists -/

def Item.bare : (i : Item) → i.Tree → i.Tree
  | .type, a => a
  | .typedName, a => a
  | .field, f => (f.1, f.2.bare)
  | .expression, e => e.bare

theorem bareArgs_eq (es : List Expr) : bareArgs es = es.map Item.expression.bare := by
  induction es with
  | nil => rfl
  | cons e es ih => rw [bareArgs, ih]; rfl

theorem bareFields_eq (fs : List (Ident × Expr)) : bareFields fs = fs.map Item.field.bare := by
  induction fs with
  | nil => rfl
  | cons f fs ih => rw [bareFields, ih]; rfl

/-- A list is read back if its items are, before a comma and before what closes the list. -/
theorem Reads.itemsWhere {i : Item} {P : List Kind → Prop}
    (hmark : ∀ x ks, x.closes = true ∨ x = .comma → P (.symbol x :: ks)) (close : Symbol)
    (hclose : close.closes = true) {as : List i.Tree}
    (h : ∀ a ∈ as, ∀ {ks : List Kind}, P ks →
      Reads (.item i) (i.levels a) (i.kinds a ++ ks) (i.bare a) ks) (ks : List Kind) :
    Reads (.items i close) (i.levelsOf as) (commas (as.map i.kinds) ++ .symbol close :: ks)
      (as.map i.bare) ks := by
  induction as with
  | nil => exact .itemsNil
  | cons a as ih =>
    obtain ⟨ha, has⟩ := List.forall_mem_cons.mp h
    cases as with
    | nil =>
      have hlast := Reads.itemsLast (ha (hmark close ks (.inl hclose)))
      rw [Item.levelsOf, Item.levelsOf, Nat.max_zero]
      simpa [commas] using hlast
    | cons b bs =>
      have hnext := Reads.itemsNext (ha (hmark .comma _ (.inr rfl))) (ih has)
      rw [Item.levelsOf]
      simpa [commas, List.intercalate_cons_cons] using hnext

theorem Reads.items {i : Item} (close : Symbol) (hclose : close.closes = true) {as : List i.Tree}
    (h : ∀ a ∈ as, ∀ {ks : List Kind}, Stops Operator.levels ks →
      Reads (.item i) (i.levels a) (i.kinds a ++ ks) (i.bare a) ks) (ks : List Kind) :
    Reads (.items i close) (i.levelsOf as) (commas (as.map i.kinds) ++ .symbol close :: ks)
      (as.map i.bare) ks :=
  .itemsWhere (fun _ ks hx => Stops.mark hx _ ks) close hclose h ks

/-! ### All canonical trees -/

theorem Literal.ofKind?_kind (l : Literal) : ofKind? l.kind = some l := by
  cases l with
  | bool b => cases b <;> rfl
  | int | float | string | null => rfl

theorem UnaryOp.ofKind?_symbol (op : UnaryOp) : ofKind? (.symbol op.symbol) = some op := by
  cases op <;> rfl

namespace Expr.ReadsBack

variable {e : Expr} {span : Span} {type : Option Ty}

theorem group (h : e.ReadsBack) : (Expr.mk (.group e) span type).ReadsBack := by
  refine of_atom rfl fun {ks} _ => ?_
  have hinner := h.expression (Stops.mark (x := .closeParen) (.inl rfl) _ ks)
  have hks : (Expr.mk (.group e) span type).kinds ++ ks =
      .symbol .openParen :: (e.kinds ++ .symbol .closeParen :: ks) := by
    simp [Expr.kinds, Form.kinds]
  rw [hks]
  exact .group hinner

theorem call {args : List Expr} (h : e.ReadsBack) (hp : e.form.isPostfix = true)
    (hargs : ∀ a ∈ args, a.ReadsBack) : (Expr.mk (.call e args) span type).ReadsBack := by
  refine of_suffix (n := levelsArgs args) h hp rfl rfl nofun nofun rfl rfl
    fun {m ks ks' e'} hrest => ?_
  have hlist := Reads.items (i := .expression) .closeParen rfl
    (fun a ha {_} hs => (hargs a ha).expression hs) ks
  rw [← bareArgs_eq, ← kindsArgs_eq, ← levelsArgs_eq] at hlist
  have hks : .symbol .openParen :: (commas (kindsArgs args) ++ [.symbol .closeParen]) ++ ks =
      .symbol .openParen :: (commas (kindsArgs args) ++ .symbol .closeParen :: ks) := by
    simp
  rw [hks]
  exact .call hlist hrest

theorem get {x : Ident} (h : e.ReadsBack) (hp : e.form.isPostfix = true) :
    (Expr.mk (.get e x) span type).ReadsBack := by
  refine of_suffix (n := 0) h hp rfl rfl nofun nofun rfl rfl fun {m ks ks' e'} hrest => ?_
  rw [Nat.zero_max]
  exact .get hrest

theorem record {x : Ident} {fields : List (Ident × Expr)} (hfields : ∀ f ∈ fields, f.2.ReadsBack)
    (hname : fields = [] → x.name.toList.head?.any Char.isUpper = true) :
    (Expr.mk (.record x fields) span type).ReadsBack := by
  refine of_atom rfl fun {ks} _ => ?_
  have hlist := Reads.items (i := .field) .closeBrace rfl
    (fun f hf {_} hs => .field ((hfields f hf).expression hs)) ks
  rw [← bareFields_eq, ← kindsFields_eq, ← levelsFields_eq] at hlist
  -- a field and its colon open the record, or else its name does
  have hopens : opensRecord x.name (.symbol .openBrace ::
      (commas (kindsFields fields) ++ .symbol .closeBrace :: ks)) = true := by
    cases fields with
    | nil => exact hname rfl
    | cons f fs => cases fs <;> rfl
  have hks : (Expr.mk (.record x fields) span type).kinds ++ ks = .ident x.name ::
      .symbol .openBrace :: (commas (kindsFields fields) ++ .symbol .closeBrace :: ks) := by
    simp [Expr.kinds, Form.kinds]
  rw [hks]
  exact .record hopens hlist

end Expr.ReadsBack

mutual

/-- A canonical expression is read back, by induction on the tree. -/
theorem Expr.readsBack : ∀ e : Expr, e.Canonical → e.ReadsBack
  | .mk (.literal l) span type, _ => .of_atom rfl fun _ => .literal l.ofKind?_kind
  | .mk (.variable x) span type, _ =>
    .of_atom rfl fun hbrace => .variable_ (opensRecord_of_head hbrace)
  | .mk (.group e) span type, h => by
    obtain ⟨-, hinner⟩ := List.forall_mem_cons.mp h
    exact (e.readsBack hinner).group
  | .mk (.unary op e) span type, h => by
    obtain ⟨hnode, hinner⟩ := List.forall_mem_cons.mp h
    have he := e.readsBack hinner
    refine .of_unary rfl (fun {ks} hs => ?_) fun hp => ?_
    · exact .unaryOp op.ofKind?_symbol (he.unary hnode hs)
    · cases hp
  | .mk (.binary l op r) span type, h => by
    obtain ⟨⟨hl, hr⟩, hinner⟩ := List.forall_mem_cons.mp h
    obtain ⟨hleft, hright⟩ := List.forall_mem_append.mp hinner
    exact .of_operator (.binary op) (l.readsBack hleft) (r.readsBack hright) hl
      (Nat.le_of_lt_succ hr) rfl rfl rfl rfl (if_pos rfl)
  | .mk (.logical l op r) span type, h => by
    obtain ⟨⟨hl, hr⟩, hinner⟩ := List.forall_mem_cons.mp h
    obtain ⟨hleft, hright⟩ := List.forall_mem_append.mp hinner
    exact .of_operator (.logical op) (l.readsBack hleft) (r.readsBack hright) hl
      (Nat.le_of_lt_succ hr) rfl rfl rfl rfl (if_pos rfl)
  | .mk (.function params result body) span type, h => by
    obtain ⟨hnode, -⟩ := List.forall_mem_cons.mp h
    exact hnode.elim
  | .mk (.call f args) span type, h => by
    obtain ⟨hnode, hinner⟩ := List.forall_mem_cons.mp h
    obtain ⟨hf, hargs⟩ := List.forall_mem_append.mp hinner
    exact (f.readsBack hf).call hnode (readsBack_args args hargs)
  | .mk (.get e x) span type, h => by
    obtain ⟨hnode, hinner⟩ := List.forall_mem_cons.mp h
    exact (e.readsBack hinner).get hnode
  | .mk (.record x fields) span type, h => by
    obtain ⟨hnode, hinner⟩ := List.forall_mem_cons.mp h
    exact .record (readsBack_fields fields hinner) hnode

theorem readsBack_args : ∀ es : List Expr, (∀ f ∈ formsArgs es, f.Canonical) →
    ∀ e ∈ es, e.ReadsBack
  | [], _ => nofun
  | e :: es, h => by
    obtain ⟨he, hes⟩ := List.forall_mem_append.mp h
    exact List.forall_mem_cons.mpr ⟨e.readsBack he, readsBack_args es hes⟩

theorem readsBack_fields : ∀ fs : List (Ident × Expr), (∀ f ∈ formsFields fs, f.Canonical) →
    ∀ f ∈ fs, f.2.ReadsBack
  | [], _ => nofun
  | (x, e) :: fs, h => by
    obtain ⟨he, hfs⟩ := List.forall_mem_append.mp h
    exact List.forall_mem_cons.mpr ⟨e.readsBack he, readsBack_fields fs hfs⟩

end

/-! ### Programs of one expression -/

theorem eq_expr_of_unplaced {ss : List Stmt} {e : Expr} {span : Span}
    (h : unplacedAll ss = unplacedAll [.expr e span]) :
    ∃ v place, ss = [.expr v place] ∧ v.unplaced = e.unplaced := by
  rcases ss with _ | ⟨s, _ | ⟨t, ss⟩⟩
  · cases h
  · have hs : s.unplaced = .expr e.unplaced default := (List.cons.inj h).1
    unfold Stmt.unplaced at hs
    split at hs
    · next v place =>
      obtain ⟨hv, -⟩ := Stmt.expr.inj hs
      exact ⟨v, place, rfl, hv⟩
    all_goals cases hs
  · cases (List.cons.inj h).2

/-- Tokens of the kinds of a canonical expression, with the end of the text behind them, are read
without a fault as one statement, which is the expression without types and up to places, if the
levels of the statement are no more than there are. -/
theorem parse_canonical {e : Expr} {span : Span} {tokens : List Token} (he : e.Canonical)
    (hlevels : (Stmt.expr e span).levels ≤ GrammarCause.maxNesting)
    (htokens : tokens.map Token.kind = e.kinds ++ [.eof]) :
    ∃ p v place, parse tokens = ⟨some p, .empty⟩ ∧ p.body = [.expr v place] ∧
      v.unplaced = e.bare.unplaced := by
  have hkinds : (Cursor.ofTokens tokens).kinds = e.kinds ++ [.eof] := by
    rw [Cursor.kinds_ofTokens, htokens, if_pos List.getLast?_concat]
  have hback := (e.readsBack he).operand e.form.looseness_le_levels (Stops.eof _)
  have hreads := hback.program
  rw [← hkinds] at hreads
  obtain ⟨p, hp, hbody⟩ := hreads.parsed.1 hlevels
  obtain ⟨v, place, hv, hsame⟩ := eq_expr_of_unplaced hbody
  exact ⟨p, v, place, hp, hv, hsame⟩

/-- The expression `-f(a, P {x: 1}).y * (b + 2) < 3 or Q {}`. -/
def Expr.mixed : Expr :=
  let node (f : Form) : Expr := .new f default
  let record := node (.record ⟨"P", default⟩ [(⟨"x", default⟩, node (.literal (.int 1)))])
  let called := node (.call (node (.variable "f")) [node (.variable "a"), record])
  let negated := node (.unary .neg (node (.get called ⟨"y", default⟩)))
  let sum := node (.group (node (.binary (node (.variable "b")) .add (node (.literal (.int 2))))))
  let product := node (.binary negated .mul sum)
  node (.logical (node (.binary product .less (node (.literal (.int 3))))) .or_
    (node (.record ⟨"Q", default⟩ [])))

theorem Expr.mixed_read_back : mixed.Canonical ∧ (Stmt.expr mixed default).levels = 6 ∧
    ∃ p v place, parse (tokensOf mixed.kinds) = ⟨some p, .empty⟩ ∧ p.body = [.expr v place] ∧
      v.unplaced = mixed.bare.unplaced := by
  have hcanonical : mixed.Canonical := by decide
  have hlevels : (Stmt.expr mixed default).levels = 6 := by decide
  have htokens : (tokensOf mixed.kinds).map Token.kind = mixed.kinds ++ [.eof] := by
    simp [tokensOf, Function.comp_def]
  exact ⟨hcanonical, hlevels, parse_canonical hcanonical (by rw [hlevels]; decide) htokens⟩

end RecordLang
