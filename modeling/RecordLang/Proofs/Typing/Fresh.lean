import RecordLang.Proofs.Typing.Node

/-!
# What passes was bare

A check that ends well has written every slot of the tree, so all of them were empty before.
-/

namespace RecordLang

mutual

theorem Expr.bare_of_check : ∀ (e : Expr) (c : Checker) {t : Ty}, (e.check c).result = .ok t →
    e.bare = e
  | .mk form span slot, c, t, h => by
    obtain ⟨hf, rfl⟩ := Visit.record_eq_ok.mp h
    rw [Expr.bare, form.bare_of_check span c hf]

theorem Form.bare_of_check : ∀ (form : Form) (span : Span) (c : Checker) {t : Ty},
    (form.check span c).result = .ok t → form.bare = form
  | .literal l, span, c, t, h => rfl
  | .variable x, span, c, t, h => rfl
  | .group e, span, c, t, h => by rw [Form.bare, e.bare_of_check c h]
  | .unary op e, span, c, t, h => by
    obtain ⟨u, hu, -⟩ := Visit.judge_eq_ok.mp h
    rw [Form.bare, e.bare_of_check c hu]
  | .binary l op r, span, c, t, h => by
    obtain ⟨u, hl, h⟩ := Visit.andThen_eq_ok.mp h
    obtain ⟨w, hr, -⟩ := Visit.judgeIn_eq_ok.mp h
    rw [Form.bare, l.bare_of_check c hl, r.bare_of_check _ hr]
  | .logical l op r, span, c, t, h => by
    obtain ⟨u, h₁, h⟩ := Visit.andThen_eq_ok.mp h
    obtain ⟨w, hr, -⟩ := Visit.judge_eq_ok.mp h
    obtain ⟨u, hl, -⟩ := Visit.judge_eq_ok.mp h₁
    rw [Form.bare, l.bare_of_check c hl, r.bare_of_check _ hr]
  | .function params result body, span, c, t, h => by
    rw [Form.check] at h
    split at h
    · cases h
    · cases h
    · rw [Visit.map_result, Visit.inScope_result] at h
      split at h
      · cases h
      · obtain ⟨⟨⟩, hb, -⟩ := Visit.judgeIn_eq_ok.mp h
        rw [Form.bare, body.bare_of_check _ hb]
  | .call f args, span, c, t, h => by
    obtain ⟨⟨params, result⟩, h₁, h⟩ := Visit.andThen_eq_ok.mp h
    obtain ⟨⟨⟩, hargs, -⟩ := Visit.judge_eq_ok.mp h
    obtain ⟨u, hf, hs⟩ := Visit.judge_eq_ok.mp h₁
    obtain ⟨rfl, hlen⟩ := Context.signature_eq_ok.mp hs
    rw [Form.bare, f.bare_of_check c hf, bareArgs_of_check args hlen hargs]
  | .get e x, span, c, t, h => by
    obtain ⟨u, hu, -⟩ := Visit.judgeIn_eq_ok.mp h
    rw [Form.bare, e.bare_of_check c hu]
  | .record name fields, span, c, t, h => by
    obtain ⟨types, ht, -⟩ := Visit.judge_eq_ok.mp h
    rw [Form.bare, bareFields_of_check fields ht]

theorem bareArgs_of_check : ∀ (args : List Expr) {place : Nat} {ts : List Ty} {c : Checker},
    ts.length = args.length → (checkArgs place ts args c).result = .ok () → bareArgs args = args
  | [], _, _, _, _, _ => rfl
  | e :: es, place, t :: ts, c, hlen, h => by
    obtain ⟨⟨⟩, h₁, h⟩ := Visit.andThen_eq_ok.mp h
    obtain ⟨u, hu, -⟩ := Visit.judgeIn_eq_ok.mp h₁
    rw [bareArgs, e.bare_of_check c hu, bareArgs_of_check es (Nat.succ.inj hlen) h]

theorem bareFields_of_check : ∀ (fields : List (Ident × Expr)) {seen : List String} {c : Checker}
    {types : List (String × Ty)}, (checkFields seen fields c).result = .ok types →
      bareFields fields = fields
  | [], _, _, _, _ => rfl
  | (x, e) :: fs, seen, c, types, h => by
    rw [checkFields] at h
    split_ifs at h with hs
    · cases h
    obtain ⟨t, ht, h⟩ := Visit.andThen_eq_ok.mp h
    obtain ⟨ts, hts, -⟩ := Visit.judge_eq_ok.mp h
    rw [bareFields, e.bare_of_check c ht, bareFields_of_check fs hts]

theorem Stmt.bare_of_check : ∀ (s : Stmt) (c : Checker), (s.check c).result = .ok () → s.bare = s
  | .expr e span, c, h => by
    obtain ⟨t, ht, -⟩ := Visit.judge_eq_ok.mp h
    rw [Stmt.bare, e.bare_of_check _ ht]
  | .let_ x type none span, c, h => rfl
  | .let_ x type (some e) span, c, h => by
    by_cases hx : c.context.Allows (.variable x.name type.ty)
    · rw [Stmt.check_let_some hx, Visit.map_result] at h
      obtain ⟨t, ht, -⟩ := Visit.judgeIn_eq_ok.mp h
      rw [Stmt.bare, e.bare_of_check _ ht]
    · obtain ⟨f, hf⟩ := Stmt.check_let_of_refused hx (some e) span
      rw [hf] at h; cases h
  | .block body span, c, h => by rw [Stmt.bare, bareAll_of_check body _ h]
  | .if_ e s none span, c, h => by
    obtain ⟨⟨⟩, h₁, h⟩ := Visit.andThen_eq_ok.mp h
    rw [Stmt.bare, e.bare_of_check _ (Visit.condition_eq_ok.mp h₁), s.bare_of_check _ h]
  | .if_ e s (some t) span, c, h => by
    obtain ⟨⟨⟩, h₁, h⟩ := Visit.andThen_eq_ok.mp h
    obtain ⟨⟨⟩, h₂, h⟩ := Visit.andThen_eq_ok.mp h
    rw [Stmt.bare, e.bare_of_check _ (Visit.condition_eq_ok.mp h₁), s.bare_of_check _ h₂,
      t.bare_of_check _ h]
  | .while_ e s span, c, h => by
    obtain ⟨⟨⟩, h₁, h⟩ := Visit.andThen_eq_ok.mp h
    rw [Stmt.bare, e.bare_of_check _ (Visit.condition_eq_ok.mp h₁), s.bare_of_check _ h]
  | .struct x fields span, c, h => rfl
  | .return_ none span, c, h => rfl
  | .return_ (some e) span, c, h => by
    obtain ⟨t, ht, -⟩ := Visit.judge_eq_ok.mp h
    rw [Stmt.bare, e.bare_of_check _ ht]

theorem bareAll_of_check : ∀ (ss : List Stmt) (c : Checker), (checkAll ss c).result = .ok () →
    bareAll ss = ss
  | [], _, _ => rfl
  | s :: ss, c, h => by
    obtain ⟨⟨⟩, h₁, h⟩ := Visit.andThen_eq_ok.mp h
    rw [bareAll, s.bare_of_check _ h₁, bareAll_of_check ss _ h]

end

end RecordLang
