import RecordLang.Proofs.Typing.Agreement

/-!
# Written trees

A tree whose slots hold the types of its expressions is determined by its context and by the tree
without slots (`BlockTyped.eq_of_bare`).
-/

namespace RecordLang

theorem FormTyped.operands {R : SlotRule} {Γ : Context} {l r : Expr} {op : BinaryOp} {t : Ty}
    (h : FormTyped R Γ (.binary l op r) t) : ∃ u w, HasType R Γ l u ∧ HasType R Γ r w := by
  cases h with
  | comparison hl hr => exact ⟨_, _, hl, hr⟩
  | arithmetic hl hr => exact ⟨_, _, hl, hr⟩

mutual

theorem HasType.eq_of_bare : ∀ {e e' : Expr} {Γ : Context} {t u : Ty}, HasType .written Γ e t →
    HasType .written Γ e' u → e.bare = e'.bare → e = e'
  | .mk .., .mk .., _, _, _, .mk h hs, .mk h' hs', hb => by
    obtain ⟨hform, hspan, -⟩ := Expr.mk.inj hb
    obtain rfl := h.eq_of_bare h' hform
    obtain rfl := h.unique h'
    rw [hspan, hs.trans hs'.symm]
termination_by structural e => e

theorem FormTyped.eq_of_bare : ∀ {form form' : Form} {Γ : Context} {t u : Ty},
    FormTyped .written Γ form t → FormTyped .written Γ form' u → form.bare = form'.bare →
      form = form'
  | .literal _, form', _, _, _, _, _, hb => by
    cases form' with
    | literal _ => exact hb
    | _ => cases hb
  | .variable _, form', _, _, _, _, _, hb => by
    cases form' with
    | «variable» _ => exact hb
    | _ => cases hb
  | .group _, form', _, _, _, .group h, h', hb => by
    cases h' with
    | group h' => rw [h.eq_of_bare h' (Form.group.inj hb)]
    | _ => cases hb
  | .unary .., form', _, _, _, .unary h _, h', hb => by
    cases h' with
    | unary h' _ =>
      obtain ⟨hop, he⟩ := Form.unary.inj hb
      rw [hop, h.eq_of_bare h' he]
    | _ => cases hb
  | .binary .., form', _, _, _, .comparison hl hr _ _ _, h', hb => by
    cases form' with
    | binary _ _ _ =>
      obtain ⟨_, _, hl', hr'⟩ := h'.operands
      obtain ⟨hbl, hop, hbr⟩ := Form.binary.inj hb
      rw [hl.eq_of_bare hl' hbl, hop, hr.eq_of_bare hr' hbr]
    | _ => cases hb
  | .binary .., form', _, _, _, .arithmetic hl hr _ _ _, h', hb => by
    cases form' with
    | binary _ _ _ =>
      obtain ⟨_, _, hl', hr'⟩ := h'.operands
      obtain ⟨hbl, hop, hbr⟩ := Form.binary.inj hb
      rw [hl.eq_of_bare hl' hbl, hop, hr.eq_of_bare hr' hbr]
    | _ => cases hb
  | .logical .., form', _, _, _, .logical hl hr, h', hb => by
    cases h' with
    | logical hl' hr' =>
      obtain ⟨hbl, hop, hbr⟩ := Form.logical.inj hb
      rw [hl.eq_of_bare hl' hbl, hop, hr.eq_of_bare hr' hbr]
    | _ => cases hb
  | .function .., form', _, _, _, .function _ _ _ h, h', hb => by
    cases h' with
    | function _ _ _ h' =>
      obtain ⟨rfl, rfl, hbody⟩ := Form.function.inj hb
      rw [h.eq_of_bare h' hbody]
    | _ => cases hb
  | .call .., form', _, _, _, .call h hargs, h', hb => by
    cases h' with
    | call h' hargs' =>
      obtain ⟨hf, hbs⟩ := Form.call.inj hb
      rw [h.eq_of_bare h' hf, hargs.eq_of_bare hargs' hbs]
    | _ => cases hb
  | .get .., form', _, _, _, .get h _ _, h', hb => by
    cases h' with
    | get h' _ _ =>
      obtain ⟨he, rfl⟩ := Form.get.inj hb
      rw [h.eq_of_bare h' he]
    | _ => cases hb
  | .record .., form', _, _, _, .record h _, h', hb => by
    cases h' with
    | record h' _ =>
      obtain ⟨rfl, hfs⟩ := Form.record.inj hb
      rw [h.eq_of_bare h' hfs]
    | _ => cases hb
termination_by structural form => form

theorem ArgsTyped.eq_of_bare : ∀ {args args' : List Expr} {Γ : Context} {ts ts' : List Ty},
    ArgsTyped .written Γ ts args → ArgsTyped .written Γ ts' args' → bareArgs args = bareArgs args' →
      args = args'
  | [], _, _, _, _, .nil, .nil, _ => rfl
  | [], _, _, _, _, .nil, .cons .., hb => by cases hb
  | _ :: _, _, _, _, _, .cons .., .nil, hb => by cases hb
  | _ :: _, _, _, _, _, .cons h _ hs, .cons h' _ hs', hb => by
    obtain ⟨he, hes⟩ := List.cons.inj hb
    rw [h.eq_of_bare h' he, hs.eq_of_bare hs' hes]
termination_by structural args => args

theorem FieldsTyped.eq_of_bare : ∀ {fields fields' : List (Ident × Expr)} {Γ : Context}
    {ts ts' : List (String × Ty)}, FieldsTyped .written Γ fields ts →
      FieldsTyped .written Γ fields' ts' → bareFields fields = bareFields fields' → fields = fields'
  | [], _, _, _, _, .nil, .nil, _ => rfl
  | [], _, _, _, _, .nil, .cons .., hb => by cases hb
  | (_, _) :: _, _, _, _, _, .cons .., .nil, hb => by cases hb
  | (_, _) :: _, _, _, _, _, .cons h hs, .cons h' hs', hb => by
    obtain ⟨hf, hfs⟩ := List.cons.inj hb
    obtain ⟨rfl, he⟩ := Prod.mk.inj hf
    rw [h.eq_of_bare h' he, hs.eq_of_bare hs' hfs]
termination_by structural fields => fields

theorem BodyTyped.eq_of_bare : ∀ {s s' : Stmt} {Γ : Context} {result result' : Ty},
    BodyTyped .written Γ result s → BodyTyped .written Γ result' s' → s.bare = s'.bare → s = s'
  | .expr .., _, _, _, _, .expr h _, .expr h' _, hb => by
    obtain ⟨he, rfl⟩ := Stmt.expr.inj hb
    rw [h.eq_of_bare h' he]
  | .return_ .., _, _, _, _, .return_ h _, .return_ h' _, hb => by
    obtain ⟨he, rfl⟩ := Stmt.return_.inj hb
    rw [h.eq_of_bare h' (Option.some.inj he)]
  | .block .., _, _, _, _, .block h _ _, .block h' _ _, hb => by
    obtain ⟨hss, rfl⟩ := Stmt.block.inj hb
    rw [h.eq_of_bare h' hss]
  | .expr .., _, _, _, _, .expr .., .return_ .., hb => by cases hb
  | .expr .., _, _, _, _, .expr .., .block .., hb => by cases hb
  | .return_ .., _, _, _, _, .return_ .., .expr .., hb => by cases hb
  | .return_ .., _, _, _, _, .return_ .., .block .., hb => by cases hb
  | .block .., _, _, _, _, .block .., .expr .., hb => by cases hb
  | .block .., _, _, _, _, .block .., .return_ .., hb => by cases hb
termination_by structural s => s

theorem StmtTyped.eq_of_bare : ∀ {s s' : Stmt} {Γ : Context} {ts ts' : List Ty},
    StmtTyped .written Γ s ts → StmtTyped .written Γ s' ts' → s.bare = s'.bare → s = s'
  | .expr .., _, _, _, _, .expr h, h', hb => by
    cases h' with
    | expr h' =>
      obtain ⟨he, rfl⟩ := Stmt.expr.inj hb
      rw [h.eq_of_bare h' he]
    | _ => cases hb
  | .let_ _ _ none _, _, _, _, _, .declared _, h', hb => by
    cases h' with
    | declared _ => exact hb
    | _ => cases hb
  | .let_ _ _ (some _) _, _, _, _, _, .initialized _ h _, h', hb => by
    cases h' with
    | initialized _ h' _ =>
      obtain ⟨rfl, rfl, he, rfl⟩ := Stmt.let_.inj hb
      rw [h.eq_of_bare h' (Option.some.inj he)]
    | _ => cases hb
  | .block .., _, _, _, _, .block h, h', hb => by
    cases h' with
    | block h' =>
      obtain ⟨hss, rfl⟩ := Stmt.block.inj hb
      rw [h.eq_of_bare h' hss]
    | _ => cases hb
  | .if_ _ _ none _, _, _, _, _, .if_ he h, h', hb => by
    cases h' with
    | if_ he' h' =>
      obtain ⟨hbe, hbs, -, rfl⟩ := Stmt.if_.inj hb
      rw [he.eq_of_bare he' hbe, h.eq_of_bare h' hbs]
    | ifElse _ _ _ => cases (Stmt.if_.inj hb).2.2.1
    | _ => cases hb
  | .if_ _ s (some _) _, _, _, _, _, .ifElse he h h₂, h', hb => by
    cases h' with
    | ifElse he' h' h₂' =>
      obtain ⟨hbe, hbs, hbt, rfl⟩ := Stmt.if_.inj hb
      obtain rfl := h.eq_of_bare h' hbs
      rw [he.eq_of_bare he' hbe, h₂.eq_of_bare h₂' (Option.some.inj hbt)]
    | if_ _ _ => cases (Stmt.if_.inj hb).2.2.1
    | _ => cases hb
  | .while_ .., _, _, _, _, .while_ he h, h', hb => by
    cases h' with
    | while_ he' h' =>
      obtain ⟨hbe, hbs, rfl⟩ := Stmt.while_.inj hb
      rw [he.eq_of_bare he' hbe, h.eq_of_bare h' hbs]
    | _ => cases hb
  | .struct .., _, _, _, _, .struct .., h', hb => by
    cases h' with
    | struct _ _ _ => exact hb
    | _ => cases hb
  | .return_ .., _, _, _, _, .return_ h, h', hb => by
    cases h' with
    | return_ h' =>
      obtain ⟨he, rfl⟩ := Stmt.return_.inj hb
      rw [h.eq_of_bare h' (Option.some.inj he)]
    | _ => cases hb
termination_by structural s => s

theorem BlockTyped.eq_of_bare : ∀ {ss ss' : List Stmt} {Γ : Context} {ts ts' : List Ty},
    BlockTyped .written Γ ss ts → BlockTyped .written Γ ss' ts' → bareAll ss = bareAll ss' →
      ss = ss'
  | [], _, _, _, _, .nil, .nil, _ => rfl
  | [], _, _, _, _, .nil, .cons .., hb => by cases hb
  | _ :: _, _, _, _, _, .cons .., .nil, hb => by cases hb
  | _ :: _, _, _, _, _, .cons h hs, .cons h' hs', hb => by
    obtain ⟨hbs, hbss⟩ := List.cons.inj hb
    obtain rfl := h.eq_of_bare h' hbs
    rw [hs.eq_of_bare hs' hbss]
termination_by structural ss => ss

end

end RecordLang
