import RecordLang.Proofs.Typing.Node

/-!
# What passes has types

A check that ends well finds what the judgement gives, for the tree that was checked and for the
nodes that it leaves, in which every slot holds the type of its expression (`Expr.check_sound`,
`Stmt.check_sound`). The context that the check carries along is the one that the rules name:
expressions leave it as it was, and a statement that ends well adds what it declares.
-/

namespace RecordLang

mutual

/-- What a check finds is what the judgement gives, for the tree that is checked and for the nodes
that are left, whose slots are written. -/
theorem Expr.check_sound : ∀ (e : Expr) (c : Checker) {t : Ty}, (e.check c).result = .ok t →
    HasType .any c.context e t ∧ HasType .written c.context (e.check c).nodes t
  | .mk form span slot, c, t, h => by
    obtain ⟨hf, rfl⟩ := Visit.record_eq_ok.mp h
    obtain ⟨ha, hw⟩ := form.check_sound span c hf
    rw [Expr.check, Visit.record_nodes_of_ok hf]
    exact ⟨.mk ha trivial, .mk hw rfl⟩

theorem Form.check_sound : ∀ (form : Form) (span : Span) (c : Checker) {t : Ty},
    (form.check span c).result = .ok t →
      FormTyped .any c.context form t ∧ FormTyped .written c.context (form.check span c).nodes t
  | .literal l, span, c, t, h => by
    cases h
    exact ⟨.literal l, .literal l⟩
  | .variable x, span, c, t, h => by
    have hx := Context.typeOfVariable_eq_ok.mp (Visit.mapError_eq_ok.mp h)
    exact ⟨.name hx, .name hx⟩
  | .group e, span, c, t, h => by
    obtain ⟨ha, hw⟩ := e.check_sound c h
    exact ⟨.group ha, .group hw⟩
  | .unary op e, span, c, t, h => by
    obtain ⟨u, hu, hop⟩ := Visit.judge_eq_ok.mp h
    obtain ⟨hop, rfl⟩ := Context.typeOfUnary_eq_ok.mp hop
    obtain ⟨ha, hw⟩ := e.check_sound c hu
    rw [Form.check, Visit.judge_nodes, Visit.map_nodes]
    exact ⟨.unary ha hop, .unary hw hop⟩
  | .binary l op r, span, c, t, h => by
    obtain ⟨u, hl, h⟩ := Visit.andThen_eq_ok.mp h
    obtain ⟨w, hr, h⟩ := Visit.judgeIn_eq_ok.mp h
    rw [r.check_context, l.check_context, Context.typeOfBinary_eq_ok] at h
    obtain ⟨hfit, hop, rfl⟩ := h
    obtain ⟨hla, hlw⟩ := l.check_sound c hl
    obtain ⟨hra, hrw⟩ := r.check_sound _ hr
    rw [l.check_context] at hra hrw
    rw [Form.check, Visit.map_nodes, Visit.andThen_of_ok hl]
    simp only [Visit.judgeIn_nodes]
    cases hc : op.isComparison with
    | true => exact ⟨.comparison hla hra hfit hop hc, .comparison hlw hrw hfit hop hc⟩
    | false => exact ⟨.arithmetic hla hra hfit hop hc, .arithmetic hlw hrw hfit hop hc⟩
  | .logical l op r, span, c, t, h => by
    obtain ⟨u, h₁, h⟩ := Visit.andThen_eq_ok.mp h
    obtain ⟨w, hr, h⟩ := Visit.judge_eq_ok.mp h
    obtain ⟨u, hl, hb⟩ := Visit.judge_eq_ok.mp h₁
    obtain ⟨⟨⟩, hb', rfl⟩ := map_eq_ok.mp h
    rw [Context.checkOperand_eq_ok] at hb hb'
    subst hb hb'
    obtain ⟨hla, hlw⟩ := l.check_sound c hl
    obtain ⟨hra, hrw⟩ := r.check_sound _ hr
    rw [Visit.judge_state, l.check_context] at hra hrw
    rw [Form.check, Visit.map_nodes, Visit.andThen_of_ok h₁]
    simp only [Visit.judge_nodes, Visit.judge_state] at hrw ⊢
    exact ⟨.logical hla hra, .logical hlw hrw⟩
  | .function params result body, span, c, t, h => by
    rw [Form.check] at h ⊢
    split at h
    · cases h
    · cases h
    next types type hp hr =>
      obtain ⟨hk, rfl⟩ := Context.readParams_eq_ok.mp hp
      obtain ⟨hkr, rfl⟩ := Context.readType_eq_ok.mp hr
      rw [Visit.map_result, Visit.inScope_result] at h
      rw [Visit.map_nodes, Visit.inScope_nodes]
      split at h
      · cases h
      next c₁ hd =>
        rw [Visit.judgeIn_nodes]
        -- from here the body is what is checked, in the scope of the parameters
        obtain ⟨hnd, hn, rfl⟩ := Checker.declareParams_eq_ok.mp hd
        obtain ⟨⟨⟩, hb, h⟩ := Visit.judgeIn_eq_ok.mp h
        obtain ⟨⟨⟩, hret, rfl⟩ := map_eq_ok.mp h
        obtain ⟨ha, hw⟩ := body.checkBody_sound _ hb hret
        exact ⟨.function hk hkr hnd ha, .function hk hkr hnd hw⟩
  | .call f args, span, c, t, h => by
    obtain ⟨⟨params, result⟩, h₁, h⟩ := Visit.andThen_eq_ok.mp h
    obtain ⟨⟨⟩, hargs, h⟩ := Visit.judge_eq_ok.mp h
    obtain ⟨u, hf, hs⟩ := Visit.judge_eq_ok.mp h₁
    obtain ⟨rfl, hlen⟩ := Context.signature_eq_ok.mp hs
    obtain ⟨hfa, hfw⟩ := f.check_sound c hf
    obtain ⟨haa, haw⟩ := checkArgs_sound args hlen hargs
    rw [Visit.judge_state, f.check_context] at haa haw
    rw [Form.check, Visit.map_nodes, Visit.andThen_of_ok h₁]
    simp only [Visit.judge_nodes, Visit.judge_state] at haw ⊢
    cases h
    exact ⟨.call hfa haa, .call hfw haw⟩
  | .get e x, span, c, t, h => by
    obtain ⟨u, hu, h⟩ := Visit.judgeIn_eq_ok.mp h
    rw [Visit.map_state, e.check_context] at h
    obtain ⟨fields, hf, hx⟩ := Context.typeOfMember_eq_ok.mp h
    obtain ⟨ha, hw⟩ := e.check_sound c hu
    rw [Form.check, Visit.judgeIn_nodes, Visit.map_nodes]
    exact ⟨.get ha hf hx, .get hw hf hx⟩
  | .record name fields, span, c, t, h => by
    obtain ⟨types, ht, h⟩ := Visit.judge_eq_ok.mp h
    obtain ⟨ha, hw, -, hd⟩ := checkFields_sound fields ht
    rw [Form.check, Visit.judge_nodes, Visit.map_nodes]
    cases h
    -- the types carry the names of the fields, on the nodes as in the tree
    refine ⟨.record ha hd, .record hw ?_⟩
    rwa [hw.map_name, ← ha.map_name]

theorem checkArgs_sound : ∀ (args : List Expr) {place : Nat} {ts : List Ty} {c : Checker},
    ts.length = args.length → (checkArgs place ts args c).result = .ok () →
      ArgsTyped .any c.context ts args ∧
        ArgsTyped .written c.context ts (checkArgs place ts args c).nodes
  | [], place, [], c, _, _ => ⟨.nil, .nil⟩
  | e :: es, place, t :: ts, c, hlen, h => by
    obtain ⟨⟨⟩, h₁, h⟩ := Visit.andThen_eq_ok.mp h
    obtain ⟨u, hu, hfit⟩ := Visit.judgeIn_eq_ok.mp h₁
    rw [e.check_context, Context.checkArgument_eq_ok] at hfit
    obtain ⟨hea, hew⟩ := e.check_sound c hu
    obtain ⟨hsa, hsw⟩ := checkArgs_sound es (Nat.succ.inj hlen) h
    rw [Visit.judgeIn_state, e.check_context] at hsa hsw
    rw [checkArgs, Visit.map_nodes, Visit.andThen_of_ok h₁]
    simp only [Visit.judgeIn_nodes, Visit.judgeIn_state] at hsw ⊢
    exact ⟨.cons hea hfit hsa, .cons hew hfit hsw⟩

theorem checkFields_sound : ∀ (fields : List (Ident × Expr)) {seen : List String} {c : Checker}
    {types : List (String × Ty)}, (checkFields seen fields c).result = .ok types →
      FieldsTyped .any c.context fields types ∧
        FieldsTyped .written c.context (checkFields seen fields c).nodes types ∧
        (∀ f ∈ fields, f.1.name ∉ seen) ∧ (fields.map fun f => f.1.name).Nodup
  | [], seen, c, types, h => by
    cases h
    exact ⟨.nil, .nil, nofun, List.nodup_nil⟩
  | (x, e) :: fs, seen, c, types, h => by
    rw [checkFields] at h ⊢
    split_ifs at h ⊢ with hs
    · cases h
    obtain ⟨t, ht, h⟩ := Visit.andThen_eq_ok.mp h
    obtain ⟨ts, hts, h⟩ := Visit.judge_eq_ok.mp h
    obtain ⟨hea, hew⟩ := e.check_sound c ht
    obtain ⟨hsa, hsw, hn, hd⟩ := checkFields_sound fs hts
    rw [e.check_context] at hsa hsw
    rw [Visit.map_nodes, Visit.andThen_of_ok ht]
    simp only [Visit.judge_nodes]
    cases h
    refine ⟨.cons hea hsa, .cons hew hsw, ?_, ?_⟩
    · exact List.forall_mem_cons.mpr
        ⟨by simpa using hs, fun f hf => List.not_mem_of_not_mem_cons (hn f hf)⟩
    · rw [List.map_cons, List.nodup_cons]
      refine ⟨fun hm => ?_, hd⟩
      obtain ⟨f, hf, he⟩ := List.mem_map.mp hm
      exact List.ne_of_not_mem_cons (hn f hf) he

/-- A statement that passes is well typed. -/
theorem Stmt.check_sound : ∀ (s : Stmt) (c : Checker), (s.check c).result = .ok () →
    ∃ ts, StmtTyped .any c.context s ts ∧ StmtTyped .written c.context (s.check c).nodes ts
  | .expr e span, c, h => by
    obtain ⟨t, ht, -⟩ := Visit.judge_eq_ok.mp h
    obtain ⟨ha, hw⟩ := e.check_sound _ ht
    rw [Stmt.check, Visit.judge_nodes, Visit.map_nodes]
    exact ⟨[], .expr ha, .expr hw⟩
  | .let_ x type none span, c, h => by
    by_cases hx : c.context.Allows (.variable x.name type.ty)
    · rw [Stmt.check_let_none hx]
      exact ⟨[], .declared hx, .declared hx⟩
    · obtain ⟨f, hf⟩ := Stmt.check_let_of_refused hx none span
      rw [hf] at h; cases h
  | .let_ x type (some e) span, c, h => by
    by_cases hx : c.context.Allows (.variable x.name type.ty)
    · -- the variable is declared before its initial value is checked
      rw [Stmt.check_let_some hx, Visit.map_result] at h
      rw [Stmt.check_let_some hx, Visit.map_nodes, Visit.judgeIn_nodes]
      obtain ⟨t, ht, hfit⟩ := Visit.judgeIn_eq_ok.mp h
      rw [e.check_context, Context.checkInitial_eq_ok] at hfit
      obtain ⟨ha, hw⟩ := e.check_sound _ ht
      exact ⟨[], .initialized hx ha hfit, .initialized hx hw hfit⟩
    · obtain ⟨f, hf⟩ := Stmt.check_let_of_refused hx (some e) span
      rw [hf] at h; cases h
  | .block body span, c, h => by
    obtain ⟨ts, ha, hw⟩ := checkAll_sound body _ h
    exact ⟨ts, .block ha, .block hw⟩
  | .if_ e s none span, c, h => by
    obtain ⟨⟨⟩, h₁, h⟩ := Visit.andThen_eq_ok.mp h
    obtain ⟨hea, hew⟩ := e.check_sound _ (Visit.condition_eq_ok.mp h₁)
    obtain ⟨ts, hsa, hsw⟩ := s.check_sound _ h
    rw [Visit.judge_state, e.check_context] at hsa hsw
    rw [Stmt.check, Visit.map_nodes, Visit.andThen_of_ok h₁]
    simp only [Visit.judge_nodes, Visit.judge_state] at hsw ⊢
    exact ⟨ts, .if_ hea hsa, .if_ hew hsw⟩
  | .if_ e s (some s') span, c, h => by
    obtain ⟨⟨⟩, h₁, h⟩ := Visit.andThen_eq_ok.mp h
    obtain ⟨⟨⟩, h₂, h⟩ := Visit.andThen_eq_ok.mp h
    obtain ⟨hea, hew⟩ := e.check_sound _ (Visit.condition_eq_ok.mp h₁)
    obtain ⟨ts, hsa, hsw⟩ := s.check_sound _ h₂
    obtain ⟨ts', hsa', hsw'⟩ := s'.check_sound _ h
    rw [((s.check_declares _).ok h₂).2, s.declaredAll_parts, Visit.judge_state,
      e.check_context] at hsa' hsw'
    rw [Visit.judge_state, e.check_context] at hsa hsw
    rw [Stmt.check, Visit.map_nodes, Visit.andThen_of_ok h₁, Visit.andThen_of_ok h₂]
    simp only [Visit.judge_nodes, Visit.judge_state] at hsw hsw' ⊢
    refine ⟨ts ++ ts', .ifElse hea hsa hsa', .ifElse hew hsw ?_⟩
    rwa [Stmt.check_declarations]
  | .while_ e s span, c, h => by
    obtain ⟨⟨⟩, h₁, h⟩ := Visit.andThen_eq_ok.mp h
    obtain ⟨hea, hew⟩ := e.check_sound _ (Visit.condition_eq_ok.mp h₁)
    obtain ⟨ts, hsa, hsw⟩ := s.check_sound _ h
    rw [Visit.judge_state, e.check_context] at hsa hsw
    rw [Stmt.check, Visit.map_nodes, Visit.andThen_of_ok h₁]
    simp only [Visit.judge_nodes, Visit.judge_state] at hsw ⊢
    exact ⟨ts, .while_ hea hsa, .while_ hew hsw⟩
  | .struct x fields span, c, h => by
    rw [Stmt.check] at h ⊢
    split at h
    · cases h
    next c' hd =>
      obtain ⟨hx, hn, hk, rfl⟩ := Checker.declareRecord_eq_ok.mp hd
      exact ⟨[], .struct hx hn hk, .struct hx hn hk⟩
  | .return_ (some e) span, c, h => by
    obtain ⟨t, ht, -⟩ := Visit.judge_eq_ok.mp h
    obtain ⟨ha, hw⟩ := e.check_sound _ ht
    rw [Stmt.check, Visit.judge_nodes, Visit.map_nodes]
    exact ⟨[t], .return_ ha, .return_ hw⟩

/-- A function body that passes and whose returns pass is well typed as a body. -/
theorem Stmt.checkBody_sound : ∀ (s : Stmt) (c : Checker) {result : Ty},
    (s.check c).result = .ok () →
    (s.check c).state.context.checkBody result (s.check c).nodes = .ok () →
      BodyTyped .any c.context result s ∧ BodyTyped .written c.context result (s.check c).nodes
  | .expr e span, c, result, h, hb => by
    obtain ⟨t, ht, -⟩ := Visit.judge_eq_ok.mp h
    obtain ⟨ha, hw⟩ := e.check_sound _ ht
    rw [Stmt.check, Visit.judge_nodes, Visit.map_nodes] at hb ⊢
    rw [Visit.judge_state, Visit.map_state, e.check_context, Context.checkBody_eq_ok] at hb
    obtain ⟨u, hu, hfit⟩ := hb.2 _ (List.mem_singleton.mpr rfl)
    obtain rfl : t = u := Option.some.inj (hw.type_eq.symm.trans hu)
    exact ⟨.expr ha hfit, .expr hw hfit⟩
  | .return_ (some e) span, c, result, h, hb => by
    obtain ⟨t, ht, -⟩ := Visit.judge_eq_ok.mp h
    obtain ⟨ha, hw⟩ := e.check_sound _ ht
    rw [Stmt.check, Visit.judge_nodes, Visit.map_nodes] at hb ⊢
    rw [Visit.judge_state, Visit.map_state, e.check_context, Context.checkBody_eq_ok] at hb
    obtain ⟨u, hu, hfit⟩ := hb.2 _ (List.mem_singleton.mpr rfl)
    obtain rfl : t = u := Option.some.inj (hw.type_eq.symm.trans hu)
    exact ⟨.return_ ha hfit, .return_ hw hfit⟩
  | .block body span, c, result, h, hb => by
    obtain ⟨ts, ha, hw⟩ := checkAll_sound body _ h
    rw [((Stmt.block body span).check_declares c |>.ok h).2, Context.checkBody_eq_ok] at hb
    have hfit := (Stmt.forall_returnsAll hw).mp hb.2
    exact ⟨.block ha ((Stmt.check_closes _ c).mp hb.1) hfit, .block hw hb.1 hfit⟩
  | .let_ .., c, result, h, hb | .if_ .., c, result, h, hb | .while_ .., c, result, h, hb
  | .struct .., c, result, h, hb =>
    ((Stmt.check_closes _ c).mp (Context.checkBody_eq_ok.mp hb).1).elim

theorem checkAll_sound : ∀ (ss : List Stmt) (c : Checker), (checkAll ss c).result = .ok () →
    ∃ ts, BlockTyped .any c.context ss ts ∧ BlockTyped .written c.context (checkAll ss c).nodes ts
  | [], c, h => ⟨[], .nil, .nil⟩
  | s :: ss, c, h => by
    obtain ⟨⟨⟩, h₁, h⟩ := Visit.andThen_eq_ok.mp h
    obtain ⟨ts, hsa, hsw⟩ := s.check_sound _ h₁
    obtain ⟨ts', hsa', hsw'⟩ := checkAll_sound ss _ h
    rw [((s.check_declares _).ok h₁).2, s.declaredAll_parts] at hsa' hsw'
    rw [checkAll, Visit.map_nodes, Visit.andThen_of_ok h₁]
    refine ⟨ts ++ ts', .cons hsa hsa', .cons hsw ?_⟩
    rwa [Stmt.check_declarations]

end

end RecordLang
