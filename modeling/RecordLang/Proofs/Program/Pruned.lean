import RecordLang.Proofs.Program.Levels
import RecordLang.Proofs.Program.Written

/-!
# Reading without the last commas

What the grammar reads, it also reads once the commas before closing symbols are left out, with the
same tree and the same levels (`Reads.pruned`). Whether a name is that of a record literal depends on
the kinds behind it, and a comma behind an opening brace would matter there; but there is none in what
is read (`Tidy`).
-/

namespace RecordLang

/-! ### First kinds -/

/-- Leaving commas out changes the first kind into a closing symbol, or not at all. -/
theorem pruned_head (k : Kind) (ks : List Kind) : ∃ k' ks', pruned (k :: ks) = k' :: ks' ∧
    (k' = k ∨ k' = .symbol .closeParen ∨ k' = .symbol .closeBrace) := by
  rw [pruned]
  split
  · next h =>
    rcases ks with _ | ⟨k₁, ks₁⟩
    · rcases h.2 with h | h <;> cases h
    · rcases h.2 with h | h
      · obtain rfl := Option.some.inj h
        exact ⟨_, _, pruned_cons nofun, .inr (.inl rfl)⟩
      · obtain rfl := Option.some.inj h
        exact ⟨_, _, pruned_cons nofun, .inr (.inr rfl)⟩
  · exact ⟨k, _, rfl, .inl rfl⟩

theorem pruned_head_ne {k x : Kind} (ks : List Kind) (h : k ≠ x) (hp : x ≠ .symbol .closeParen)
    (hb : x ≠ .symbol .closeBrace) : ∃ k' ks', pruned (k :: ks) = k' :: ks' ∧ k' ≠ x := by
  obtain ⟨k', ks', he, rfl | rfl | rfl⟩ := pruned_head k ks
  · exact ⟨k', ks', he, h⟩
  · exact ⟨_, ks', he, hp.symm⟩
  · exact ⟨_, ks', he, hb.symm⟩

theorem Marked.pruned {ks ks' : List Kind} {b : Bool} (h : Marked (.symbol .question) ks b ks') :
    Marked (.symbol .question) (pruned ks) b (RecordLang.pruned ks') := by
  cases h with
  | there =>
    rw [pruned_cons (k := .symbol .question) nofun]
    exact .there
  | missing h =>
    refine .missing ?_
    rcases ks with _ | ⟨k, ks⟩
    · exact nofun
    · have hk : k ≠ .symbol .question := fun he => h (congrArg some he)
      obtain ⟨k', ks', he, hk'⟩ := pruned_head_ne ks hk nofun nofun
      rw [he]
      exact fun hc => hk' (Option.some.inj hc)

/-! ### Braces -/

/-- No comma follows an opening brace. -/
def Tidy : List Kind → Prop
  | [] => True
  | k :: ks => (k = .symbol .openBrace → ks.head? ≠ some (.symbol .comma)) ∧ Tidy ks

theorem Tidy.cons {k : Kind} {ks : List Kind} (h : Tidy ks) (hk : k ≠ .symbol .openBrace := by nofun) :
    Tidy (k :: ks) :=
  ⟨fun he => absurd he hk, h⟩

theorem Tidy.brace {ks : List Kind} (h : Tidy ks) (hk : ks.head? ≠ some (.symbol .comma)) :
    Tidy (.symbol .openBrace :: ks) :=
  ⟨fun _ => hk, h⟩

theorem Marked.tidy {ks ks' : List Kind} {b : Bool} (h : Marked (.symbol .question) ks b ks')
    (ht : Tidy ks') : Tidy ks := by
  cases h with
  | there => exact ht.cons
  | missing => exact ht

theorem Reads.items_head {i : Item} {close : Symbol} {m : Nat} {ks ks' : List Kind}
    {as : List i.Tree} (h : Reads (.items i close) m ks as ks') (hclose : close.closes = true) :
    ks.head? ≠ some (.symbol .comma) := by
  intro hc
  rcases h.begins with ⟨rfl, rfl⟩ | ⟨-, k, ks₁, rfl, hk⟩
  · exact (Symbol.inert_of_closes hclose).notComma (Option.some.inj hc)
  · obtain rfl := Option.some.inj hc
    cases hk

theorem Reads.statements_head {last : Kind} {m : Nat} {ks ks' : List Kind} {ss : List Stmt}
    (h : Reads (.statements last) m ks ss ks') (hlast : last ≠ .symbol .comma) :
    ks.head? ≠ some (.symbol .comma) := by
  intro hc
  obtain ⟨k, ks₁, rfl, rfl | hk⟩ := h.begins
  · exact hlast (Option.some.inj hc)
  · obtain rfl := Option.some.inj hc
    cases hk

theorem opensRecord_eq_false {name : String} {k : Kind} {ks : List Kind}
    (h : k ≠ .symbol .openBrace) : opensRecord name (k :: ks) = false := by
  unfold opensRecord
  split
  · next he => exact absurd (List.cons.inj he).1 h
  · next he => exact absurd (List.cons.inj he).1 h
  · rfl

theorem opensRecord_pruned {name : String} {ks : List Kind} (h : Tidy ks) :
    opensRecord name (pruned ks) = opensRecord name ks := by
  rcases ks with _ | ⟨k, ks⟩
  · rfl
  by_cases hk : k = .symbol .openBrace
  · subst hk
    rw [pruned_cons (k := .symbol .openBrace) (by simp)]
    rcases ks with _ | ⟨k₁, ks₁⟩
    · rfl
    rw [pruned_cons fun he => h.1 rfl (congrArg some he)]
    cases k₁ with
    | ident x =>
      -- only a colon matters, and that stays
      rcases ks₁ with _ | ⟨k₂, ks₂⟩
      · rfl
      by_cases hk₂ : k₂ = .symbol .colon
      · subst hk₂
        rw [pruned_cons (k := .symbol .colon) (by simp)]
        rfl
      · obtain ⟨k', ks', he, hk'⟩ := pruned_head_ne ks₂ hk₂ (by simp) (by simp)
        rw [he]
        simp [opensRecord, hk₂, hk']
    | symbol x => cases x <;> rfl
    | int | float | string | keyword | eof => rfl
  · obtain ⟨k', ks', he, hk'⟩ := pruned_head_ne ks hk (by simp) (by simp)
    rw [he, opensRecord_eq_false hk, opensRecord_eq_false hk']

/-! ### All parts -/

/-- The part is read without the commas as well, if what is behind it is tidy. -/
def Part.Prunes (m : Nat) (ks ks' : List Kind) : (s : Part) → s.Tree → Prop
  | .items i close, as => close.closes = true → Tidy ks' →
    Tidy ks ∧ Reads (.items i close) m (pruned ks) as (pruned ks')
  | .statements last, ss => last ≠ .symbol .comma → Tidy ks' →
    Tidy ks ∧ Reads (.statements last) m (pruned ks) ss (pruned ks')
  | s, a => Tidy ks' → Tidy ks ∧ Reads s m (pruned ks) a (pruned ks')

theorem Reads.pruned {s : Part} {m : Nat} {ks ks' : List Kind} {a : s.Tree}
    (h : Reads s m ks a ks') : s.Prunes m ks ks' a := by
  induction h with
  -- lists
  | itemsNil =>
    intro hclose ht
    rw [pruned_cons (Symbol.inert_of_closes hclose).notComma]
    exact ⟨ht.cons (Symbol.inert_of_closes hclose).notBrace, .itemsNil⟩
  | itemsLast _ ih =>
    intro hclose ht
    obtain ⟨ht₁, hitem⟩ := ih (ht.cons (Symbol.inert_of_closes hclose).notBrace)
    rw [pruned_cons (Symbol.inert_of_closes hclose).notComma] at hitem
    exact ⟨ht₁, .itemsLast hitem⟩
  | itemsNext item rest ih ih' =>
    intro hclose ht
    obtain ⟨ht₁, hrest⟩ := ih' hclose ht
    obtain ⟨ht₂, hitem⟩ := ih ht₁.cons
    refine ⟨ht₂, ?_⟩
    rcases rest.begins with ⟨rfl, rfl⟩ | ⟨-, k, ks₁, rfl, hk⟩
    · -- the comma is the last one of the list
      obtain rfl := rest.levels_eq
      rw [pruned_trailing hclose] at hitem
      rw [Item.levelsOf, Nat.max_zero]
      exact .itemsLast hitem
    · rw [pruned_comma hk] at hitem
      exact .itemsNext hitem hrest
  -- types
  | named mark => exact fun ht => ⟨(mark.tidy ht).cons, .named mark.pruned⟩
  | null mark => exact fun ht => ⟨(mark.tidy ht).cons, .null mark.pruned⟩
  | functionType _ _ ih ih' =>
    intro ht
    obtain ⟨ht₁, hresult⟩ := ih' ht
    obtain ⟨ht₂, hparams⟩ := ih rfl ht₁.cons
    exact ⟨ht₂.cons, .functionType hparams hresult⟩
  | typedName _ ih =>
    intro ht
    obtain ⟨ht₁, htype⟩ := ih ht
    exact ⟨ht₁.cons.cons, .typedName htype⟩
  -- expressions
  | field _ ih =>
    intro ht
    obtain ⟨ht₁, hvalue⟩ := ih ht
    exact ⟨ht₁.cons.cons, .field hvalue⟩
  | expression _ ih => exact fun ht => ⟨(ih ht).1, .expression (ih ht).2⟩
  | operandZero _ ih => exact fun ht => ⟨(ih ht).1, .operandZero (ih ht).2⟩
  | operandSucc _ _ ih ih' =>
    intro ht
    obtain ⟨ht₁, hrest⟩ := ih' ht
    obtain ⟨ht₂, hfirst⟩ := ih ht₁
    exact ⟨ht₂, .operandSucc hfirst hrest⟩
  | @chainNil l k ks left h =>
    refine fun ht => ⟨ht, ?_⟩
    obtain ⟨k', ks', he, rfl | rfl | rfl⟩ := pruned_head k ks
    · rw [he]
      exact .chainNil h
    · rw [he]
      exact .chainNil rfl
    · rw [he]
      exact .chainNil rfl
  | @chainCons l _ _ _ op _ _ _ _ _ _ _ h _ _ ih ih' =>
    intro ht
    obtain ⟨ht₁, hrest⟩ := ih' ht
    obtain ⟨ht₂, hsecond⟩ := ih ht₁
    obtain rfl := Operator.eq_kind (Operator.at?_eq_some h).1
    rw [pruned_cons (Operator.inert_kind _).notComma]
    exact ⟨ht₂.cons (Operator.inert_kind _).notBrace, .chainCons h hsecond hrest⟩
  | unaryOp h _ ih =>
    intro ht
    obtain ⟨ht₁, hoperand⟩ := ih ht
    obtain rfl := UnaryOp.eq_symbol h
    rw [pruned_cons (UnaryOp.inert_symbol _).notComma]
    exact ⟨ht₁.cons (UnaryOp.inert_symbol _).notBrace, .unaryOp h hoperand⟩
  | function _ _ _ ih ih' ih'' =>
    intro ht
    obtain ⟨ht₁, hbody⟩ := ih'' ht
    obtain ⟨ht₂, hresult⟩ := ih' ht₁.cons
    obtain ⟨ht₃, hparams⟩ := ih rfl ht₂.cons
    exact ⟨ht₃.cons.cons, .function hparams hresult hbody⟩
  | suffixed _ _ ih ih' =>
    intro ht
    obtain ⟨ht₁, hrest⟩ := ih' ht
    obtain ⟨ht₂, hfirst⟩ := ih ht₁
    exact ⟨ht₂, .suffixed hfirst hrest⟩
  | literal h =>
    obtain rfl := Literal.eq_kind h
    refine fun ht => ⟨ht.cons (Literal.inert_kind _).notBrace, ?_⟩
    rw [pruned_cons (Literal.inert_kind _).notComma]
    exact .literal h
  | group _ ih =>
    intro ht
    obtain ⟨ht₁, hinner⟩ := ih ht.cons
    exact ⟨ht₁.cons, .group hinner⟩
  | record h inFields ih =>
    intro ht
    obtain ⟨ht₁, hfields⟩ := ih rfl ht
    have ht₂ := ht₁.brace (inFields.items_head rfl)
    refine ⟨ht₂.cons, .record ?_ hfields⟩
    rw [← h]
    exact opensRecord_pruned ht₂
  | variable_ h =>
    refine fun ht => ⟨ht.cons, .variable_ ?_⟩
    rw [opensRecord_pruned ht, h]
  | @suffixesNil k ks _ hc hd =>
    refine fun ht => ⟨ht, ?_⟩
    obtain ⟨k', ks', he, rfl | rfl | rfl⟩ := pruned_head k ks
    · rw [he]
      exact .suffixesNil hc hd
    · rw [he]
      exact .suffixesNil nofun nofun
    · rw [he]
      exact .suffixesNil nofun nofun
  | get _ ih =>
    intro ht
    obtain ⟨ht₁, hrest⟩ := ih ht
    exact ⟨ht₁.cons.cons, .get hrest⟩
  | call _ _ ih ih' =>
    intro ht
    obtain ⟨ht₁, hrest⟩ := ih' ht
    obtain ⟨ht₂, hargs⟩ := ih rfl ht₁
    exact ⟨ht₂.cons, .call hargs hrest⟩
  -- statements
  | expr _ ih => exact fun ht => ⟨(ih ht).1, .expr (ih ht).2⟩
  | @declared _ k _ ks' _ _ _ h ih =>
    intro ht
    obtain ⟨ht₁, htype⟩ := ih ht
    obtain ⟨k', ks'', he, hk⟩ := pruned_head_ne ks' h nofun nofun
    rw [he] at htype ⊢
    exact ⟨ht₁.cons.cons.cons, .declared htype hk⟩
  | initialized _ _ ih ih' =>
    intro ht
    obtain ⟨ht₁, hvalue⟩ := ih' ht
    obtain ⟨ht₂, htype⟩ := ih ht₁.cons
    exact ⟨ht₂.cons.cons.cons, .initialized htype hvalue⟩
  | block inBody ih =>
    intro ht
    obtain ⟨ht₁, hbody⟩ := ih nofun ht.cons
    exact ⟨ht₁.brace (inBody.statements_head nofun), .block hbody⟩
  | @if_ _ _ k _ _ ks' _ _ _ _ _ h ih ih' =>
    intro ht
    obtain ⟨ht₁, htrue⟩ := ih' ht
    obtain ⟨ht₂, hcond⟩ := ih ht₁
    obtain ⟨k', ks'', he, hk⟩ := pruned_head_ne ks' h nofun nofun
    rw [he] at htrue ⊢
    exact ⟨ht₂.cons, .if_ hcond htrue hk⟩
  | ifElse _ _ _ ih ih' ih'' =>
    intro ht
    obtain ⟨ht₁, hfalse⟩ := ih'' ht
    obtain ⟨ht₂, htrue⟩ := ih' ht₁.cons
    obtain ⟨ht₃, hcond⟩ := ih ht₂
    exact ⟨ht₃.cons, .ifElse hcond htrue hfalse⟩
  | while_ _ _ ih ih' =>
    intro ht
    obtain ⟨ht₁, hbody⟩ := ih' ht
    obtain ⟨ht₂, hcond⟩ := ih ht₁
    exact ⟨ht₂.cons, .while_ hcond hbody⟩
  | struct inFields ih =>
    intro ht
    obtain ⟨ht₁, hfields⟩ := ih rfl ht
    exact ⟨(ht₁.brace (inFields.items_head rfl)).cons.cons, .struct hfields⟩
  | @returnNone k _ _ h =>
    have hk : k ≠ .symbol .comma := fun he => by rw [he] at h; cases h
    intro ht
    rw [pruned_cons (k := .keyword .return_) nofun, pruned_cons hk]
    exact ⟨ht.cons, .returnNone h⟩
  | returnSome _ ih => exact fun ht => ⟨(ih ht).1.cons, .returnSome (ih ht).2⟩
  | statementsNil =>
    intro hlast ht
    rw [pruned_cons hlast]
    exact ⟨ht, .statementsNil⟩
  | statementsCons _ _ ih ih' =>
    intro hlast ht
    obtain ⟨ht₁, hrest⟩ := ih' hlast ht
    obtain ⟨ht₂, hfirst⟩ := ih ht₁
    exact ⟨ht₂, .statementsCons hfirst hrest⟩

end RecordLang
