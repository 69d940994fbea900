import RecordLang.Proofs.Typing.Soundness

/-!
# The check and the judgement agree

A bare tree that has types passes its check (`Expr.check_complete`, `Stmt.check_complete`). Together
with soundness this says that the check decides the judgement (`Program.check_eq_ok_iff_typed`).
Completeness needs that types are unique: the check of a function body reads the types of the
returned values off the slots, and these are the types of the derivation as there are no others.
-/

namespace RecordLang

/-! ### Uniqueness -/

section Unique

variable {R R' : SlotRule}

theorem Context.HasFields.unique {Γ : Context} {t : Ty} {fs gs : List (String × Ty)}
    (h : Γ.HasFields t fs) (h' : Γ.HasFields t gs) : fs = gs := by
  rcases h with rfl | ⟨name, rfl, h⟩ <;> rcases h' with h' | ⟨name', hn, h'⟩
  · exact Ty.record.inj h'
  · cases hn
  · cases h'
  · cases hn
    rw [h] at h'
    exact Ty.record.inj (Option.some.inj h')

theorem ArgsTyped.length_eq {Γ : Context} : ∀ {ts : List Ty} {args : List Expr},
    ArgsTyped R Γ ts args → ts.length = args.length
  | _, _, .nil => rfl
  | _, _, .cons _ _ h => congrArg Nat.succ h.length_eq

mutual

/-- An expression has one type. -/
theorem HasType.unique : ∀ {e : Expr} {Γ : Context} {t u : Ty},
    HasType R Γ e t → HasType R' Γ e u → t = u
  | .mk .., _, _, _, .mk h _, .mk h' _ => h.unique h'
termination_by structural e => e

theorem FormTyped.unique : ∀ {form : Form} {Γ : Context} {t u : Ty},
    FormTyped R Γ form t → FormTyped R' Γ form u → t = u
  | .literal _, _, _, _, .literal _, .literal _ => rfl
  | .variable _, _, _, _, .name h, .name h' => Option.some.inj (h.symm.trans h')
  | .group _, _, _, _, .group h, .group h' => h.unique h'
  | .unary .., _, _, _, .unary h _, .unary h' _ => h.unique h'
  | .binary .., _, _, _, .comparison .., .comparison .. => rfl
  | .binary .., _, _, _, .arithmetic h .., .arithmetic h' .. => h.unique h'
  | .binary .., _, _, _, .comparison _ _ _ _ hc, .arithmetic _ _ _ _ hc' => by
    rw [hc] at hc'; cases hc'
  | .binary .., _, _, _, .arithmetic _ _ _ _ hc, .comparison _ _ _ _ hc' => by
    rw [hc] at hc'; cases hc'
  | .logical .., _, _, _, .logical .., .logical .. => rfl
  | .function .., _, _, _, .function .., .function .. => rfl
  | .call .., _, _, _, .call h _, .call h' _ => (Ty.function.inj (h.unique h')).2
  | .get .., _, _, _, .get h hf hx, .get h' hf' hx' => by
    obtain rfl := h.unique h'
    obtain rfl := hf.unique hf'
    exact Option.some.inj (hx.symm.trans hx')
  | .record .., _, _, _, .record h _, .record h' _ => congrArg Ty.ofFields (h.unique h')
termination_by structural form => form

theorem FieldsTyped.unique : ∀ {fields : List (Ident × Expr)} {Γ : Context}
    {ts us : List (String × Ty)}, FieldsTyped R Γ fields ts → FieldsTyped R' Γ fields us → ts = us
  | [], _, _, _, .nil, .nil => rfl
  | (_, _) :: _, _, _, _, .cons h hs, .cons h' hs' => by rw [h.unique h', hs.unique hs']
termination_by structural fields => fields

end

mutual

/-- A statement returns values of one list of types. -/
theorem StmtTyped.unique : ∀ {s : Stmt} {Γ : Context} {ts us : List Ty},
    StmtTyped R Γ s ts → StmtTyped R' Γ s us → ts = us
  | .expr .., _, _, _, .expr _, .expr _ => rfl
  | .let_ .., _, _, _, .declared _, .declared _ => rfl
  | .let_ .., _, _, _, .initialized .., .initialized .. => rfl
  | .block .., _, _, _, .block h, .block h' => h.unique h'
  | .if_ .., _, _, _, .if_ _ h, .if_ _ h' => h.unique h'
  | .if_ .., _, _, _, .ifElse _ h hs, .ifElse _ h' hs' => by rw [h.unique h', hs.unique hs']
  | .while_ .., _, _, _, .while_ _ h, .while_ _ h' => h.unique h'
  | .struct .., _, _, _, .struct .., .struct .. => rfl
  | .return_ .., _, _, _, .return_ h, .return_ h' => by rw [h.unique h']
termination_by structural s => s

theorem BlockTyped.unique : ∀ {ss : List Stmt} {Γ : Context} {ts us : List Ty},
    BlockTyped R Γ ss ts → BlockTyped R' Γ ss us → ts = us
  | [], _, _, _, .nil, .nil => rfl
  | _ :: _, _, _, _, .cons h hs, .cons h' hs' => by rw [h.unique h', hs.unique hs']
termination_by structural ss => ss

end

end Unique

/-! ### Completeness -/

mutual

/-- A bare expression that has a type passes, with this type. -/
theorem Expr.check_complete : ∀ (e : Expr) (c : Checker) {Γ : Context} {t : Ty}, c.context = Γ →
    e.bare = e → HasType .any Γ e t → (e.check c).result = .ok t
  | .mk form span slot, c, Γ, t, hc, hb, .mk h _ => by
    obtain ⟨hb, -, hs⟩ := Expr.mk.inj hb
    exact Visit.record_eq_ok.mpr ⟨form.check_complete span c hc hb h, hs.symm⟩
termination_by structural e => e

theorem Form.check_complete : ∀ (form : Form) (span : Span) (c : Checker) {Γ : Context} {t : Ty},
    c.context = Γ → form.bare = form → FormTyped .any Γ form t →
      (form.check span c).result = .ok t
  | .literal l, span, c, Γ, _, hc, hb, .literal _ => rfl
  | .variable x, span, c, Γ, t, hc, hb, .name h => by
    exact Visit.mapError_eq_ok.mpr (Context.typeOfVariable_eq_ok.mpr (hc ▸ h))
  | .group e, span, c, Γ, t, hc, hb, .group h => e.check_complete c hc (Form.group.inj hb) h
  | .unary op e, span, c, Γ, t, hc, hb, .unary h hop => by
    have he := e.check_complete c hc (Form.unary.inj hb).2 h
    exact Visit.judge_eq_ok.mpr ⟨t, he, Context.typeOfUnary_eq_ok.mpr ⟨hop, rfl⟩⟩
  | .binary l op r, span, c, Γ, _, hc, hb, .comparison hl hr hfit hop hcmp => by
    obtain ⟨hbl, -, hbr⟩ := Form.binary.inj hb
    have hc' : (l.check c).state.context = Γ := by rw [l.check_context, hc]
    refine Visit.andThen_eq_ok.mpr ⟨_, l.check_complete c hc hbl hl, ?_⟩
    refine Visit.judgeIn_eq_ok.mpr ⟨_, r.check_complete _ hc' hbr hr, ?_⟩
    rw [r.check_context, hc', Context.typeOfBinary_eq_ok]
    exact ⟨hfit, hop, by rw [hcmp]; rfl⟩
  | .binary l op r, span, c, Γ, _, hc, hb, .arithmetic hl hr hfit hop hcmp => by
    obtain ⟨hbl, -, hbr⟩ := Form.binary.inj hb
    have hc' : (l.check c).state.context = Γ := by rw [l.check_context, hc]
    refine Visit.andThen_eq_ok.mpr ⟨_, l.check_complete c hc hbl hl, ?_⟩
    refine Visit.judgeIn_eq_ok.mpr ⟨_, r.check_complete _ hc' hbr hr, ?_⟩
    rw [r.check_context, hc', Context.typeOfBinary_eq_ok]
    exact ⟨hfit, hop, by rw [hcmp]; rfl⟩
  | .logical l op r, span, c, Γ, _, hc, hb, .logical hl hr => by
    obtain ⟨hbl, -, hbr⟩ := Form.logical.inj hb
    have h₁ : ((l.check c).judge (Context.checkOperand op l.span)).result = .ok () :=
      Visit.judge_eq_ok.mpr
        ⟨_, l.check_complete c hc hbl hl, Context.checkOperand_eq_ok.mpr rfl⟩
    refine Visit.andThen_eq_ok.mpr ⟨(), h₁, Visit.judge_eq_ok.mpr ⟨.bool, ?_, ?_⟩⟩
    · refine r.check_complete _ ?_ hbr hr
      rw [Visit.judge_state, l.check_context, hc]
    · exact map_eq_ok.mpr ⟨(), Context.checkOperand_eq_ok.mpr rfl, rfl⟩
  | .function params result body, span, c, Γ, _, hc, hb, .function hk hkr hd h => by
    subst hc
    have hp := Context.readParams_eq_ok.mpr ⟨hk, rfl⟩
    have hr := Context.readType_eq_ok.mpr ⟨hkr, rfl⟩
    -- a scope that was just entered has no variables, so the parameters are new in it
    have hps := (Checker.declareParams_eq_ok (c := c.enter)).mpr ⟨hd, fun _ _ => rfl, rfl⟩
    obtain ⟨hok, hret⟩ := body.checkBody_complete
      { c.enter with context := c.context.enter.extend (params.map TypedName.entry) } rfl
      (Form.function.inj hb).2.2 h
    rw [Form.check, hp, hr]
    simp only [Visit.map_result, Visit.inScope_result, hps]
    exact Visit.judgeIn_eq_ok.mpr ⟨(), hok, map_eq_ok.mpr ⟨(), hret, rfl⟩⟩
  | .call f args, span, c, Γ, t, hc, hb, .call hf hargs => by
    obtain ⟨hbf, hba⟩ := Form.call.inj hb
    have h₁ : ((f.check c).judge (Context.signature f.span span args.length)).result = .ok _ :=
      Visit.judge_eq_ok.mpr ⟨_, f.check_complete c hc hbf hf,
        Context.signature_eq_ok.mpr ⟨rfl, hargs.length_eq⟩⟩
    refine Visit.andThen_eq_ok.mpr ⟨_, h₁, Visit.judge_eq_ok.mpr ⟨(), ?_, rfl⟩⟩
    refine checkArgs_complete args ?_ hba hargs
    rw [Visit.judge_state, f.check_context, hc]
  | .get e x, span, c, Γ, t, hc, hb, .get h hf hx => by
    have he := e.check_complete c hc (Form.get.inj hb).1 h
    refine Visit.judgeIn_eq_ok.mpr ⟨_, he, ?_⟩
    rw [Visit.map_state, e.check_context, hc]
    exact Context.typeOfMember_eq_ok.mpr ⟨_, hf, hx⟩
  | .record name fields, span, c, Γ, _, hc, hb, .record h hd => by
    have hf := checkFields_complete fields hc (Form.record.inj hb).2 h (fun _ _ => List.not_mem_nil)
      hd
    exact Visit.judge_eq_ok.mpr ⟨_, hf, rfl⟩
termination_by structural form => form

theorem checkArgs_complete : ∀ (args : List Expr) {place : Nat} {ts : List Ty} {c : Checker}
    {Γ : Context}, c.context = Γ → bareArgs args = args → ArgsTyped .any Γ ts args →
      (checkArgs place ts args c).result = .ok ()
  | [], place, _, c, Γ, hc, hb, .nil => rfl
  | e :: es, place, t :: ts, c, Γ, hc, hb, .cons h hfit hs => by
    obtain ⟨hbe, hbs⟩ := List.cons.inj hb
    have h₁ : ((e.check c).judgeIn fun Γ actual =>
        Γ.checkArgument place e.span t actual).result = .ok () := by
      refine Visit.judgeIn_eq_ok.mpr ⟨_, e.check_complete c hc hbe h, ?_⟩
      rw [e.check_context, hc, Context.checkArgument_eq_ok]; exact hfit
    refine Visit.andThen_eq_ok.mpr ⟨(), h₁, checkArgs_complete es ?_ hbs hs⟩
    rw [Visit.judgeIn_state, e.check_context, hc]
termination_by structural args => args

theorem checkFields_complete : ∀ (fields : List (Ident × Expr)) {seen : List String} {c : Checker}
    {Γ : Context} {types : List (String × Ty)}, c.context = Γ → bareFields fields = fields →
      FieldsTyped .any Γ fields types → (∀ f ∈ fields, f.1.name ∉ seen) →
      (fields.map fun f => f.1.name).Nodup → (checkFields seen fields c).result = .ok types
  | [], seen, c, Γ, _, hc, hb, .nil, hn, hd => rfl
  | (x, e) :: fs, seen, c, Γ, _, hc, hb, .cons h hs, hn, hd => by
    obtain ⟨hbe, hbs⟩ := List.cons.inj hb
    obtain ⟨hx, hn⟩ := List.forall_mem_cons.mp hn
    obtain ⟨hd₁, hd⟩ := List.nodup_cons.mp hd
    rw [checkFields, if_neg (by simpa using hx)]
    have he := e.check_complete c hc (Prod.mk.inj hbe).2 h
    refine Visit.andThen_eq_ok.mpr ⟨_, he, Visit.judge_eq_ok.mpr ⟨_, ?_, rfl⟩⟩
    refine checkFields_complete fs ?_ hbs hs (fun f hf => ?_) hd
    · rw [e.check_context, hc]
    · -- no later field has the name of this one, nor one of those before
      exact List.not_mem_cons_of_ne_of_not_mem
        (fun he => hd₁ (List.mem_map.mpr ⟨f, hf, he⟩)) (hn f hf)
termination_by structural fields => fields

/-- A bare statement that is well typed passes. -/
theorem Stmt.check_complete : ∀ (s : Stmt) (c : Checker) {Γ : Context} {ts : List Ty},
    c.context = Γ → s.bare = s → StmtTyped .any Γ s ts → (s.check c).result = .ok ()
  | .expr e span, c, Γ, _, hc, hb, .expr h => by
    have he := e.check_complete (c.note (.statement span.line "expr")) hc (Stmt.expr.inj hb).1 h
    exact Visit.judge_eq_ok.mpr ⟨_, he, rfl⟩
  | .let_ x type none span, c, Γ, _, hc, hb, .declared hx => by
    subst hc
    rw [Stmt.check_let_none hx]; rfl
  | .let_ x type (some e) span, c, Γ, _, hc, hb, .initialized hx h hfit => by
    subst hc
    have hbe := Option.some.inj (Stmt.let_.inj hb).2.2.1
    rw [Stmt.check_let_some hx, Visit.map_result]
    refine Visit.judgeIn_eq_ok.mpr ⟨_, e.check_complete _ rfl hbe h, ?_⟩
    rw [e.check_context, Context.checkInitial_eq_ok]; exact hfit
  | .block body span, c, Γ, _, hc, hb, .block h =>
    checkAll_complete body (c.note (.statement span.line "block")).enter (hc ▸ rfl)
      (Stmt.block.inj hb).1 h
  | .if_ e s none span, c, Γ, _, hc, hb, .if_ he h => by
    obtain ⟨hbe, hbs, -⟩ := Stmt.if_.inj hb
    have h₁ : ((e.check (c.note (.statement span.line "if"))).judge
        (Context.checkCondition .if_ e.span)).result = .ok () :=
      Visit.condition_eq_ok.mpr (e.check_complete _ hc hbe he)
    refine Visit.andThen_eq_ok.mpr ⟨(), h₁, s.check_complete _ ?_ hbs h⟩
    rw [Visit.judge_state, e.check_context]; exact hc
  | .if_ e s (some s') span, c, Γ, _, hc, hb, .ifElse he h h' => by
    obtain ⟨hbe, hbs, hbs', -⟩ := Stmt.if_.inj hb
    have h₁ : ((e.check (c.note (.statement span.line "if"))).judge
        (Context.checkCondition .if_ e.span)).result = .ok () :=
      Visit.condition_eq_ok.mpr (e.check_complete _ hc hbe he)
    have hc₁ : ((e.check (c.note (.statement span.line "if"))).judge
        (Context.checkCondition .if_ e.span)).state.context = Γ := by
      rw [Visit.judge_state, e.check_context]; exact hc
    have h₂ := s.check_complete _ hc₁ hbs h
    refine Visit.andThen_eq_ok.mpr ⟨(), h₁, Visit.andThen_eq_ok.mpr ⟨(), h₂, ?_⟩⟩
    -- the second branch sees what the first one declares
    refine s'.check_complete _ ?_ (Option.some.inj hbs') h'
    rw [((s.check_declares _).ok h₂).2, s.declaredAll_parts, hc₁]
  | .while_ e s span, c, Γ, _, hc, hb, .while_ he h => by
    obtain ⟨hbe, hbs, -⟩ := Stmt.while_.inj hb
    have h₁ : ((e.check (c.note (.statement span.line "while"))).judge
        (Context.checkCondition .while_ e.span)).result = .ok () :=
      Visit.condition_eq_ok.mpr (e.check_complete _ hc hbe he)
    refine Visit.andThen_eq_ok.mpr ⟨(), h₁, s.check_complete _ ?_ hbs h⟩
    rw [Visit.judge_state, e.check_context]; exact hc
  | .struct x fields span, c, Γ, _, hc, hb, .struct hx hd hk => by
    subst hc
    have h := (Checker.declareRecord_eq_ok (c := c.note (.statement span.line "struct"))).mpr
      ⟨hx, hd, hk, rfl⟩
    simp only [Stmt.check, h]; rfl
  | .return_ (some e) span, c, Γ, _, hc, hb, .return_ h => by
    have hbe := Option.some.inj (Stmt.return_.inj hb).1
    have he := e.check_complete (c.note (.statement span.line "return")) hc hbe h
    exact Visit.judge_eq_ok.mpr ⟨_, he, rfl⟩
termination_by structural s => s

theorem Stmt.checkBody_complete : ∀ (s : Stmt) (c : Checker) {Γ : Context} {result : Ty},
    c.context = Γ → s.bare = s → BodyTyped .any Γ result s → (s.check c).result = .ok () ∧
      (s.check c).state.context.checkBody result (s.check c).nodes = .ok ()
  | .expr e span, c, Γ, result, hc, hb, .expr h hfit => by
    have he := e.check_complete (c.note (.statement span.line "expr")) hc (Stmt.expr.inj hb).1 h
    refine ⟨Visit.judge_eq_ok.mpr ⟨_, he, rfl⟩, ?_⟩
    rw [Stmt.check, Visit.judge_nodes, Visit.map_nodes, Visit.judge_state, Visit.map_state,
      e.check_context, Context.checkBody_eq_ok]
    refine ⟨trivial, List.forall_mem_singleton.mpr ?_⟩
    exact ⟨_, (e.check_sound _ he).2.type_eq, hc ▸ hfit⟩
  | .return_ (some e) span, c, Γ, result, hc, hb, .return_ h hfit => by
    have hbe := Option.some.inj (Stmt.return_.inj hb).1
    have he := e.check_complete (c.note (.statement span.line "return")) hc hbe h
    refine ⟨Visit.judge_eq_ok.mpr ⟨_, he, rfl⟩, ?_⟩
    rw [Stmt.check, Visit.judge_nodes, Visit.map_nodes, Visit.judge_state, Visit.map_state,
      e.check_context, Context.checkBody_eq_ok]
    refine ⟨trivial, List.forall_mem_singleton.mpr ?_⟩
    exact ⟨_, (e.check_sound _ he).2.type_eq, hc ▸ hfit⟩
  | .block body span, c, Γ, result, hc, hb, .block h hends hfit => by
    subst hc
    have hok := checkAll_complete body (c.note (.statement span.line "block")).enter rfl
      (Stmt.block.inj hb).1 h
    refine ⟨hok, ?_⟩
    -- the types on the nodes are those of the derivation, as there are no others
    obtain ⟨ts', ha, hw⟩ := checkAll_sound body _ hok
    obtain rfl := h.unique ha
    rw [((Stmt.block body span).check_declares c |>.ok hok).2, Context.checkBody_eq_ok]
    exact ⟨(Stmt.check_closes _ c).mpr hends, (Stmt.forall_returnsAll hw).mpr hfit⟩
termination_by structural s => s

theorem checkAll_complete : ∀ (ss : List Stmt) (c : Checker) {Γ : Context} {ts : List Ty},
    c.context = Γ → bareAll ss = ss → BlockTyped .any Γ ss ts → (checkAll ss c).result = .ok ()
  | [], c, Γ, _, hc, hb, .nil => rfl
  | s :: ss, c, Γ, _, hc, hb, .cons h hs => by
    obtain ⟨hbs, hbss⟩ := List.cons.inj hb
    have h₁ := s.check_complete c hc hbs h
    refine Visit.andThen_eq_ok.mpr ⟨(), h₁, checkAll_complete ss _ ?_ hbss hs⟩
    rw [((s.check_declares _).ok h₁).2, s.declaredAll_parts, hc]
termination_by structural ss => ss

end

/-- Statements without written slots pass exactly if they have types in the context. -/
theorem checkAll_eq_ok_iff {ss : List Stmt} {c : Checker} (hb : bareAll ss = ss) :
    (checkAll ss c).result = .ok () ↔ ∃ ts, BlockTyped .any c.context ss ts := by
  refine ⟨fun h => ?_, fun ⟨ts, h⟩ => checkAll_complete ss c rfl hb h⟩
  obtain ⟨ts, ha, -⟩ := checkAll_sound ss c h
  exact ⟨ts, ha⟩

/-! ### Programs -/

theorem Program.check_result (p : Program) (c : Checker) :
    (p.check c).result = (checkAll p.body c).result := by
  rw [Program.check]
  split <;> rfl

theorem Program.check_nodes (p : Program) (c : Checker) :
    (p.check c).nodes = { p with body := (checkAll p.body c).nodes } := by
  rw [Program.check]
  split <;> rfl

/-- A program without written slots passes a fresh check exactly if it has types, and then it is
left as it was, but with the type of every expression in its slot. -/
theorem Program.check_eq_ok_iff_typed (p : Program) (fresh : p.bare = p) :
    ((p.check .new).result = .ok () ↔ p.Typed .any) ∧
      ((p.check .new).result = .ok () →
        (p.check .new).nodes.Typed .written ∧ (p.check .new).nodes.bare = p) := by
  rw [p.check_result, p.check_nodes]
  have hb : bareAll p.body = p.body := congrArg Program.body fresh
  refine ⟨checkAll_eq_ok_iff hb, fun h => ⟨?_, ?_⟩⟩
  · obtain ⟨ts, -, hw⟩ := checkAll_sound p.body .new h
    exact ⟨ts, hw⟩
  · rw [Program.bare, checkAll_bare, hb]

/-- A record, and a function that calls itself on one of its fields:
`struct P { n: int } let f: (P) -> int = fn(p: P): int => { return f(p) + p.n }`. -/
def Program.recursive : Program :=
  let at_ : Span := default
  let name (x : String) : Ident := ⟨x, at_⟩
  let use (x : String) : Expr := .new (.variable x) at_
  let type (x : String) : TypeExpr := .named x false at_
  let call : Expr := .new (.call (use "f") [use "p"]) at_
  let get : Expr := .new (.get (use "p") (name "n")) at_
  let body := Stmt.block [.return_ (some (.new (.binary call .add get) at_)) at_] at_
  ⟨[.struct (name "P") [⟨name "n", type "int", at_⟩] at_,
    .let_ (name "f") (.function [type "P"] (type "int") at_)
      (some (.new (.function [⟨name "p", type "P", at_⟩] (type "int") body) at_)) at_], at_⟩

theorem Program.recursive_typed : Program.recursive.bare = .recursive ∧
    Program.recursive.Typed .any ∧ (Program.recursive.check .new).nodes.Typed .written :=
  have h := Program.check_eq_ok_iff_typed .recursive rfl
  have hok : (Program.recursive.check .new).result = .ok () := rfl
  ⟨rfl, h.1.mp hok, (h.2 hok).1⟩

end RecordLang
