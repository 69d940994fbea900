import RecordLang.Proofs.Typing.Agreement
import RecordLang.Proofs.Typing.Fresh
import RecordLang.Proofs.Typing.ReturnSite
import RecordLang.Proofs.Typing.Unused

/-!
# The scope in which a return is judged

A return may stand in blocks that declare records, and the type of its value may speak of them. The
check of the function judges it when these blocks are closed. What is then accepted is also accepted
where the return stands, and the two agree if all records that the type speaks of are visible in the
scope of the function. A record that is declared in the body itself means nothing there, so that a
value of it is refused although it fits (`Program.localRecord_refused`).

`Stmt.Through` compares two ways to return a value: at once, or through a variable that has the
result type and gets the value first. The second way is judged where the return stands.
-/

namespace RecordLang

/-! ### Returning through a variable -/

namespace Stmt

/-- Gives a value to a new variable of the type, and returns the variable. -/
def returnThrough (q : Ident) (type : TypeExpr) (e : Expr) (place use exit : Span) : List Stmt :=
  [.let_ q type (some e) place, .return_ (some (.new (.variable q.name) use)) exit]

section Through

variable (q : Ident) (type : TypeExpr)

mutual

/-- One return in the first statement, outside inner functions, goes through the variable in the
second. -/
inductive Through : Stmt → Stmt → Prop
  | block {body body' : List Stmt} {span : Span} (inside : ThroughAll body body') :
      Through (.block body span) (.block body' span)
  | ifTrue {e : Expr} {s s' : Stmt} {other : Option Stmt} {span : Span}
      (inside : ThroughBranch s s') : Through (.if_ e s other span) (.if_ e s' other span)
  | ifFalse {e : Expr} {s t t' : Stmt} {span : Span} (inside : ThroughBranch t t') :
      Through (.if_ e s (some t) span) (.if_ e s (some t') span)
  | while_ {e : Expr} {s s' : Stmt} {span : Span} (inside : ThroughBranch s s') :
      Through (.while_ e s span) (.while_ e s' span)

/-- A branch that is itself the return becomes a block. -/
inductive ThroughBranch : Stmt → Stmt → Prop
  | return_ {e : Expr} {span block place use exit : Span} :
      ThroughBranch (.return_ (some e) span)
        (.block (returnThrough q type e place use exit) block)
  | inside {s s' : Stmt} (h : Through s s') : ThroughBranch s s'

inductive ThroughAll : List Stmt → List Stmt → Prop
  | return_ {e : Expr} {ss : List Stmt} {span place use exit : Span} :
      ThroughAll (.return_ (some e) span :: ss) (returnThrough q type e place use exit ++ ss)
  | head {s s' : Stmt} {ss : List Stmt} (h : Through s s') : ThroughAll (s :: ss) (s' :: ss)
  | tail {s : Stmt} {ss ss' : List Stmt} (h : ThroughAll ss ss') : ThroughAll (s :: ss) (s :: ss')

end

end Through

variable {q : Ident} {type : TypeExpr}

mutual

theorem Through.declarations_eq : ∀ {s s' : Stmt}, Through q type s s' →
    s'.declarations = s.declarations
  | .block .., _, .block _ => rfl
  | .if_ _ _ none _, _, .ifTrue h => h.declarations_eq
  | .if_ _ _ (some t) _, _, .ifTrue h => congrArg (· ++ t.declarations) h.declarations_eq
  | .if_ _ s (some _) _, _, .ifFalse h => congrArg (s.declarations ++ ·) h.declarations_eq
  | .while_ .., _, .while_ h => h.declarations_eq

theorem ThroughBranch.declarations_eq : ∀ {s s' : Stmt}, ThroughBranch q type s s' →
    s'.declarations = s.declarations
  | .return_ .., _, .return_ => rfl
  | _, _, .inside h => h.declarations_eq

end

mutual

theorem Through.bare : ∀ {s s' : Stmt}, Through q type s s' → s.bare = s → s'.bare = s'
  | .block .., _, .block h, hb => by rw [Stmt.bare, h.bare (Stmt.block.inj hb).1]
  | .if_ _ _ none _, _, .ifTrue h, hb => by
    obtain ⟨he, hs, -⟩ := Stmt.if_.inj hb
    rw [Stmt.bare, he, h.bare hs]
  | .if_ _ _ (some _) _, _, .ifTrue h, hb => by
    obtain ⟨he, hs, ht, -⟩ := Stmt.if_.inj hb
    rw [Stmt.bare, he, h.bare hs, Option.some.inj ht]
  | .if_ _ _ (some _) _, _, .ifFalse h, hb => by
    obtain ⟨he, hs, ht, -⟩ := Stmt.if_.inj hb
    rw [Stmt.bare, he, hs, h.bare (Option.some.inj ht)]
  | .while_ .., _, .while_ h, hb => by
    obtain ⟨he, hs, -⟩ := Stmt.while_.inj hb
    rw [Stmt.bare, he, h.bare hs]

theorem ThroughBranch.bare : ∀ {s s' : Stmt}, ThroughBranch q type s s' → s.bare = s → s'.bare = s'
  | .return_ .., _, .return_, hb => by
    have he := Option.some.inj (Stmt.return_.inj hb).1
    simp [returnThrough, Stmt.bare, bareAll, Expr.new, Expr.bare, Form.bare, he]
  | _, _, .inside h, hb => h.bare hb

theorem ThroughAll.bare : ∀ {ss ss' : List Stmt}, ThroughAll q type ss ss' → bareAll ss = ss →
    bareAll ss' = ss'
  | _ :: _, _, .return_, hb => by
    obtain ⟨hr, hss⟩ := List.cons.inj hb
    have he := Option.some.inj (Stmt.return_.inj hr).1
    simp [returnThrough, Stmt.bare, bareAll, Expr.new, Expr.bare, Form.bare, he, hss]
  | _ :: _, _, .head h, hb => by
    obtain ⟨hs, hss⟩ := List.cons.inj hb
    rw [bareAll, h.bare hs, hss]
  | _ :: _, _, .tail h, hb => by
    obtain ⟨hs, hss⟩ := List.cons.inj hb
    rw [bareAll, hs, h.bare hss]

end

theorem ThroughAll.ne_nil {ss ss' : List Stmt} (h : ThroughAll q type ss ss') : ss' ≠ [] := by
  cases h <;> exact nofun

/-- A block that ends with a return still does. -/
theorem ThroughAll.endsWithReturn {ss ss' : List Stmt} (h : ThroughAll q type ss ss')
    (ends : EndsWithReturn ss) : EndsWithReturn ss' := by
  obtain ⟨last, hl, hr⟩ := ends
  induction ss generalizing ss' with
  | nil => cases h
  | cons s ss ih =>
    cases h with
    | return_ =>
      cases ss with
      | nil => exact ⟨_, rfl, rfl⟩
      | cons t ts => exact ⟨last, by simpa [returnThrough] using hl, hr⟩
    | @head _ s' _ h =>
      cases ss with
      | nil =>
        -- the last statement is a return, and in these nothing goes through the variable
        cases hl
        cases h <;> cases hr
      | cons t ts => exact ⟨last, by simpa using hl, hr⟩
    | @tail _ _ ss' h =>
      have hss : ss ≠ [] := by rintro rfl; cases h
      obtain ⟨last', hl', hr'⟩ := ih h (by rwa [List.getLast?_cons_of_ne_nil hss] at hl)
      exact ⟨last', by rw [List.getLast?_cons_of_ne_nil h.ne_nil, hl'], hr'⟩

end Stmt

/-! ### Types of returned values -/

/-- One of the types `ts` is that of a value which stands in `Γ` or further inside, and what
`typed` says of it holds exactly with `result` in its place, if `result` accepts it there. -/
def OneReplaced (Γ : Context) (result : Ty) (ts : List Ty) (typed : List Ty → Prop) : Prop :=
  ∃ (before : List Ty) (t : Ty) (after : List Ty) (Δ : Context), ts = before ++ t :: after ∧
    Δ.WellFormed ∧ Γ.entries <:+ Δ.entries ∧
    ∀ us, typed us ↔ Δ.accepts result t = true ∧ us = before ++ result :: after

namespace OneReplaced

variable {Γ Δ : Context} {result : Ty} {ts us : List Ty} {typed typed' : List Ty → Prop}

theorem outer (h : OneReplaced Δ result ts typed) (hs : Γ.entries <:+ Δ.entries) :
    OneReplaced Γ result ts typed := by
  obtain ⟨before, t, after, Θ, he, hw, hs', hiff⟩ := h
  exact ⟨before, t, after, Θ, he, hw, hs.trans hs', hiff⟩

theorem congr (h : OneReplaced Γ result ts typed) (hiff : ∀ us, typed' us ↔ typed us) :
    OneReplaced Γ result ts typed' := by
  obtain ⟨before, t, after, Θ, he, hw, hs, hiff'⟩ := h
  exact ⟨before, t, after, Θ, he, hw, hs, fun us => (hiff us).trans (hiff' us)⟩

theorem append_right (h : OneReplaced Γ result ts typed)
    (hiff : ∀ ws, typed' ws ↔ ∃ vs, typed vs ∧ ws = vs ++ us) :
    OneReplaced Γ result (ts ++ us) typed' := by
  obtain ⟨before, t, after, Θ, rfl, hw, hs, hiff'⟩ := h
  refine ⟨before, t, after ++ us, Θ, by simp, hw, hs, fun ws => ?_⟩
  rw [hiff]
  constructor
  · rintro ⟨vs, hv, rfl⟩
    obtain ⟨ha, rfl⟩ := (hiff' vs).mp hv
    exact ⟨ha, by simp⟩
  · rintro ⟨ha, rfl⟩
    exact ⟨before ++ result :: after, (hiff' _).mpr ⟨ha, rfl⟩, by simp⟩

theorem append_left (h : OneReplaced Γ result ts typed)
    (hiff : ∀ ws, typed' ws ↔ ∃ vs, typed vs ∧ ws = us ++ vs) :
    OneReplaced Γ result (us ++ ts) typed' := by
  obtain ⟨before, t, after, Θ, rfl, hw, hs, hiff'⟩ := h
  refine ⟨us ++ before, t, after, Θ, by simp, hw, hs, fun ws => ?_⟩
  rw [hiff]
  constructor
  · rintro ⟨vs, hv, rfl⟩
    obtain ⟨ha, rfl⟩ := (hiff' vs).mp hv
    exact ⟨ha, by simp⟩
  · rintro ⟨ha, rfl⟩
    exact ⟨before ++ result :: after, (hiff' _).mpr ⟨ha, rfl⟩, by simp⟩

end OneReplaced

section Replace

variable {q : Ident} {type : TypeExpr} {R : SlotRule}

theorem BlockTyped.returnThrough_iff {Γ : Context} {e : Expr} {t : Ty} {ss : List Stmt}
    {ts us : List Ty} {place use exit : Span} (he : HasType .any Γ e t)
    (hss : BlockTyped .any Γ ss ts) (ha : Γ.Allows (.variable q.name type.ty))
    (hq : q.name ∉ e.names) (hqs : q.name ∉ bodyNames ss) :
    BlockTyped .any Γ (Stmt.returnThrough q type e place use exit ++ ss) us ↔
      Γ.accepts type.ty t = true ∧ us = type.ty :: ts := by
  have hΔ := Context.AgreeBut.declare Γ q.name type.ty
  have hself : (Γ.extend [.variable q.name type.ty]).findVariable q.name = some type.ty := by
    simp [Context.findVariable, Context.extend, Entry.variableOf]
  constructor
  · rintro (_ | ⟨h₁, h⟩)
    obtain _ | ⟨h₂, h⟩ := h
    obtain _ | _ | ⟨-, hv, hfit⟩ := h₁
    -- the value and the statements that follow do not speak of the variable
    obtain rfl := (hv.congr_unused hΔ.toSeeAlike.symm hq).unique he
    obtain rfl := (BlockTyped.congr_unused h hΔ.symm hqs).unique hss
    obtain ⟨⟩ | ⟨⟩ | ⟨⟩ | ⟨⟩ | ⟨⟩ | ⟨⟩ | ⟨⟩ | ⟨⟩ | ⟨⟨_ | hfound, -⟩⟩ := h₂
    obtain rfl := Option.some.inj (hself.symm.trans hfound)
    rw [← hΔ.accepts] at hfit
    exact ⟨hfit, rfl⟩
  · rintro ⟨hfit, rfl⟩
    rw [hΔ.accepts] at hfit
    refine .cons (.initialized ha (he.congr_unused hΔ.toSeeAlike hq) hfit) ?_
    exact .cons (.return_ (.mk (.name hself) trivial)) (hss.congr_unused hΔ hqs)

mutual

theorem Stmt.Through.oneReplaced : ∀ {s s' : Stmt} {Γ : Context} {ts : List Ty},
    Through q type s s' → StmtTyped .any Γ s ts → Γ.WellFormed → Γ.Knows type.ty →
      q.name ∉ s.names → OneReplaced Γ type.ty ts (StmtTyped .any Γ s')
  | .block .., _, Γ, _, .block h, .block hs, hΓ, hk, hq => by
    have hone := h.oneReplaced hs hΓ.enter hk rfl hq
    refine (hone.outer (List.suffix_cons _ _)).congr fun us => ⟨?_, .block⟩
    intro ht
    cases ht with
    | block ht => exact ht
  | .if_ _ _ none _, _, Γ, _, .ifTrue h, .if_ hc hs, hΓ, hk, hq => by
    rw [Stmt.names, List.mem_append, not_or] at hq
    refine (h.oneReplaced hs hΓ hk hq.2).congr fun us => ⟨?_, .if_ hc⟩
    intro ht
    cases ht with
    | if_ _ ht => exact ht
  | .if_ _ _ (some _) _, _, Γ, _, .ifTrue h, .ifElse hc hs hs', hΓ, hk, hq => by
    rw [Stmt.names, List.mem_append, List.mem_append, not_or, not_or] at hq
    refine (h.oneReplaced hs hΓ hk hq.2.1).append_right fun ws => ⟨?_, ?_⟩
    · intro ht
      cases ht with
      | ifElse _ ht ht' =>
        rw [h.declarations_eq] at ht'
        obtain rfl := ht'.unique hs'
        exact ⟨_, ht, rfl⟩
    · rintro ⟨vs, hv, rfl⟩
      exact .ifElse hc hv (h.declarations_eq ▸ hs')
  | .if_ _ _ (some _) _, _, Γ, _, .ifFalse h, .ifElse hc hs hs', hΓ, hk, hq => by
    rw [Stmt.names, List.mem_append, List.mem_append, not_or, not_or] at hq
    have hone := h.oneReplaced hs' (hΓ.extend hs.admits) (hs.admits.knows hk) hq.2.2
    refine (hone.outer (Γ.suffix_extend _)).append_left fun ws => ⟨?_, ?_⟩
    · intro ht
      cases ht with
      | ifElse _ ht ht' =>
        obtain rfl := ht.unique hs
        exact ⟨_, ht', rfl⟩
    · rintro ⟨vs, hv, rfl⟩
      exact .ifElse hc hs hv
  | .while_ .., _, Γ, _, .while_ h, .while_ hc hs, hΓ, hk, hq => by
    rw [Stmt.names, List.mem_append, not_or] at hq
    refine (h.oneReplaced hs hΓ hk hq.2).congr fun us => ⟨?_, .while_ hc⟩
    intro ht
    cases ht with
    | while_ _ ht => exact ht

theorem Stmt.ThroughBranch.oneReplaced : ∀ {s s' : Stmt} {Γ : Context} {ts : List Ty},
    ThroughBranch q type s s' → StmtTyped .any Γ s ts → Γ.WellFormed → Γ.Knows type.ty →
      q.name ∉ s.names → OneReplaced Γ type.ty ts (StmtTyped .any Γ s')
  | .return_ .., _, Γ, _, .return_, .return_ (t := t) he, hΓ, hk, hq => by
    -- the block that the branch becomes has a scope of its own
    have hself := Context.SeeAlike.enter_self Γ q.name
    refine ⟨[], t, [], Γ, rfl, hΓ, List.suffix_rfl, fun us => ?_⟩
    have ha : Γ.enter.Allows (.variable q.name type.ty) := ⟨hk, rfl⟩
    have he' := he.congr_unused hself hq
    rw [hself.accepts]
    refine ⟨fun ht => ?_, fun h => ?_⟩
    · cases ht with
      | block ht => exact (BlockTyped.returnThrough_iff he' .nil ha hq nofun).mp ht
    · exact .block ((BlockTyped.returnThrough_iff he' .nil ha hq nofun).mpr h)
  | _, _, _, _, .inside h, hs, hΓ, hk, hq => h.oneReplaced hs hΓ hk hq

theorem Stmt.ThroughAll.oneReplaced : ∀ {ss ss' : List Stmt} {Γ : Context} {ts : List Ty},
    ThroughAll q type ss ss' → BlockTyped .any Γ ss ts → Γ.WellFormed → Γ.Knows type.ty →
      Γ.current.findSome? (Entry.variableOf q.name) = none → q.name ∉ bodyNames ss →
      OneReplaced Γ type.ty ts (BlockTyped .any Γ ss')
  | .return_ .. :: _, _, Γ, _, .return_, .cons (.return_ (t := t) he) hss, hΓ, hk, hcur, hq => by
    rw [bodyNames, List.mem_append, not_or] at hq
    refine ⟨[], t, _, Γ, rfl, hΓ, List.suffix_rfl, fun us => ?_⟩
    exact BlockTyped.returnThrough_iff he hss ⟨hk, hcur⟩ hq.1 hq.2
  | _ :: _, _, Γ, _, .head h, .cons hs hss, hΓ, hk, hcur, hq => by
    rw [bodyNames, List.mem_append, not_or] at hq
    refine (h.oneReplaced hs hΓ hk hq.1).append_right fun ws => ⟨?_, ?_⟩
    · rintro (_ | ⟨ht, hts⟩)
      rw [h.declarations_eq] at hts
      obtain rfl := hts.unique hss
      exact ⟨_, ht, rfl⟩
    · rintro ⟨vs, hv, rfl⟩
      exact .cons hv (h.declarations_eq ▸ hss)
  | s :: _, _, Γ, _, .tail h, .cons hs hss, hΓ, hk, hcur, hq => by
    rw [bodyNames, List.mem_append, not_or] at hq
    -- what the first statement declares has another name
    have hcur' : (Γ.extend s.declarations).current.findSome? (Entry.variableOf q.name) = none := by
      rw [hs.admits.current, List.findSome?_append, hcur, Option.or_none, List.findSome?_eq_none_iff]
      intro d hd
      rcases d with _ | ⟨x, u⟩ | _
      · rfl
      · have hx := Stmt.variable_mem_declarations (List.mem_reverse.mp hd)
        have hne : q.name ≠ x := fun he => hq.1 (he ▸ hx)
        simp [Entry.variableOf, hne]
      · rfl
    have hone := h.oneReplaced hss (hΓ.extend hs.admits) (hs.admits.knows hk) hcur' hq.2
    refine (hone.outer (Γ.suffix_extend _)).append_left fun ws => ⟨?_, ?_⟩
    · rintro (_ | ⟨ht, hts⟩)
      obtain rfl := ht.unique hs
      exact ⟨_, hts, rfl⟩
    · rintro ⟨vs, hv, rfl⟩
      exact .cons hs hv

end

end Replace

/-! ### Functions -/

/-- What it takes for a function to pass whose parameters and result are fine and whose body is a
block: the block has types, ends with a return, and all that it returns is accepted in the scope of
the function. -/
theorem Expr.check_function_iff {c c₁ : Checker} {params : List TypedName} {types : List Ty}
    {result : TypeExpr} {R : Ty} {body : List Stmt} (hp : c.context.readParams params = .ok types)
    (hr : c.context.readType result = .ok R) (hd : c.enter.declareParams params types = .ok c₁)
    (hb : bareAll body = body) (span place : Span) :
    (∃ t, ((Expr.new (.function params result (.block body span)) place).check c).result = .ok t) ↔
      ∃ ts, BlockTyped .any c₁.context.enter body ts ∧ EndsWithReturn body ∧
        ∀ t ∈ ts, c₁.context.accepts R t = true := by
  obtain ⟨hk, rfl⟩ := Context.readParams_eq_ok.mp hp
  obtain ⟨hkr, rfl⟩ := Context.readType_eq_ok.mp hr
  obtain ⟨hnd, -, rfl⟩ := Checker.declareParams_eq_ok.mp hd
  constructor
  · rintro ⟨t, h⟩
    obtain ⟨⟨hf, -⟩, -⟩ := Expr.check_sound _ c h
    cases FormTyped.body hf with
    | block typed ends fits => exact ⟨_, typed, ends, fits⟩
  · rintro ⟨ts, typed, ends, fits⟩
    have hf : FormTyped .any c.context (.function params result (.block body span)) _ :=
      .function hk hkr hnd (.block typed ends fits)
    refine ⟨_, Expr.check_complete _ c rfl ?_ (.mk hf trivial)⟩
    rw [Expr.new, Expr.bare, Form.bare, Stmt.bare, hb]

/-- A function whose body is a block that ends with a return and passes as a statement. Its returns
are judged in the scope of the function, and the first that is refused there is reported. What is
accepted there is accepted where the return stands, and the other way round if the type of the value
refers to records only that are visible in the scope of the function. If this is so for all returns,
the first that is refused where it stands is reported. To return a value through a variable of the
result type is accepted whenever it is accepted to return it at once, and under the same condition
the other way round. -/
theorem Checker.Reachable.returns_judged {c c₁ : Checker} (h : c.Reachable)
    {params : List TypedName} {types : List Ty} {result : TypeExpr} {R : Ty} {body : List Stmt}
    (hp : c.context.readParams params = .ok types) (hr : c.context.readType result = .ok R)
    (hd : c.enter.declareParams params types = .ok c₁) (ends : EndsWithReturn body) (span : Span)
    (hok : ((Stmt.block body span).check c₁).result = .ok ()) :
    let v := (Stmt.block body span).check c₁
    let rs := v.nodes.sites c₁.context
    v.nodes.returns = rs.map (fun r => (some r.type, r.span)) ∧
    v.state.context.checkBody R v.nodes =
      ReturnSite.verdict R (fun r => c₁.context.accepts R r.type) rs ∧
    (∀ r ∈ rs, r.Inside c₁.context ∧
      (∃ e, HasType .written r.context e r.type ∧
        Stmt.Within (.return_ (some e) r.span) v.nodes) ∧
      (c₁.context.accepts R r.type = true → r.context.accepts R r.type = true) ∧
      (c₁.context.Sees r.type → r.context.accepts R r.type = c₁.context.accepts R r.type)) ∧
    ((∀ r ∈ rs, c₁.context.Sees r.type) → v.state.context.checkBody R v.nodes =
      ReturnSite.verdict R (fun r => r.context.accepts R r.type) rs) ∧
    ∀ q body' place, Stmt.ThroughAll q result body body' → q.name ∉ bodyNames body →
      ((∃ t, ((Expr.new (.function params result (.block body span)) place).check c).result =
          .ok t) →
        ∃ t, ((Expr.new (.function params result (.block body' span)) place).check c).result =
          .ok t) ∧
      ((∀ r ∈ rs, c₁.context.Sees r.type) →
        (∃ t, ((Expr.new (.function params result (.block body' span)) place).check c).result =
          .ok t) →
        ∃ t, ((Expr.new (.function params result (.block body span)) place).check c).result =
          .ok t) := by
  intro v rs
  have hΓ := (h.params hp hd).wellFormed
  obtain ⟨hkr, rfl⟩ := Context.readType_eq_ok.mp hr
  have hkR : c₁.context.Knows result.ty := by
    obtain ⟨hk, rfl⟩ := Context.readParams_eq_ok.mp hp
    obtain ⟨hnd, hn, rfl⟩ := Checker.declareParams_eq_ok.mp hd
    have had : c.context.enter.Admits (params.map TypedName.entry) :=
      Context.admits_params hk hnd hn
    exact had.knows hkr
  obtain ⟨ts, hany, hw⟩ := Stmt.check_sound _ c₁ hok
  have hin := hw.inside hΓ
  have hinner : ∀ r ∈ rs, c₁.context.accepts result.ty r.type = true →
      r.context.accepts result.ty r.type = true := fun r hr =>
    (hin r hr).1.wellFormed.accepts_inner hΓ (hin r hr).1.suffix hkR.sees
  have hsame : ∀ r ∈ rs, c₁.context.Sees r.type →
      r.context.accepts result.ty r.type = c₁.context.accepts result.ty r.type := fun r hr =>
    (hin r hr).1.wellFormed.accepts_of_sees hΓ (hin r hr).1.suffix hkR.sees
  have hverdict : v.state.context.checkBody result.ty v.nodes =
      ReturnSite.verdict result.ty (fun r => c₁.context.accepts result.ty r.type) rs := by
    rw [((Stmt.block body span).check_declares c₁ |>.ok hok).2]
    have ends' : (Stmt.block body span).Closes := ends
    exact Stmt.checkBody_eq_verdict hw ((Stmt.check_closes _ c₁).mpr ends') result.ty
  refine ⟨hw.returns_eq, hverdict, fun r hr => ⟨(hin r hr).1, (hin r hr).2, hinner r hr, hsame r hr⟩,
    fun hs => ?_, fun q body' place hq hfresh => ?_⟩
  · rw [hverdict]
    exact ReturnSite.verdict_congr fun r hr => (hsame r hr (hs r hr)).symm
  · have hb : bareAll body = body := (Stmt.block.inj (Stmt.bare_of_check _ c₁ hok)).1
    have typed : BlockTyped .any c₁.context.enter body ts := by
      cases hany with
      | block typed => exact typed
    obtain ⟨before, t, after, Δ, rfl, hΔ, hsuffix, hiff⟩ :=
      hq.oneReplaced typed hΓ.enter hkR rfl hfresh
    have hsuffix : c₁.context.entries <:+ Δ.entries := (List.suffix_cons _ _).trans hsuffix
    rw [Expr.check_function_iff hp hr hd hb, Expr.check_function_iff hp hr hd (hq.bare hb)]
    constructor
    · rintro ⟨us, hus, -, hfit⟩
      obtain rfl := hus.unique typed
      rw [List.forall_mem_append, List.forall_mem_cons] at hfit
      obtain ⟨hbefore, ht, hafter⟩ := hfit
      have hself := (h.params hp hd).ordered.accepts_self result.ordered_ty
      refine ⟨_, (hiff _).mpr ⟨hΔ.accepts_inner hΓ hsuffix hkR.sees ht, rfl⟩,
        hq.endsWithReturn ends, ?_⟩
      rw [List.forall_mem_append, List.forall_mem_cons]
      exact ⟨hbefore, hself, hafter⟩
    · rintro hs ⟨us, hus, -, hfit⟩
      obtain ⟨ht, rfl⟩ := (hiff us).mp hus
      rw [List.forall_mem_append, List.forall_mem_cons] at hfit
      -- the value that goes through the variable is among those that are returned
      have hmem : t ∈ rs.map ReturnSite.type := hw.types_eq ▸ List.mem_append_cons_self
      obtain ⟨r, hr, rfl⟩ := List.mem_map.mp hmem
      rw [hΔ.accepts_of_sees hΓ hsuffix hkR.sees (hs r hr)] at ht
      refine ⟨_, typed, ends, ?_⟩
      rw [List.forall_mem_append, List.forall_mem_cons]
      exact ⟨hfit.1, ht, hfit.2.2⟩

/-- A body that declares a record of its own and a variable of it:
`{ struct L { x: int } let l: L … }`, where the rest is given. -/
def Stmt.localRecord (rest : List Stmt) : List Stmt :=
  let name (x : String) : Ident := ⟨x, default⟩
  [.struct (name "L") [⟨name "x", .named "int" false default, default⟩] default,
    .let_ (name "l") (.named "L" false default) none default] ++ rest

/-- The field of the record is returned in a branch: `if true return l.x return 0`. -/
def Stmt.localField : List Stmt :=
  let return_ (form : Form) : Stmt := .return_ (some (.new form default)) default
  Stmt.localRecord
    [.if_ (.new (.literal (.bool true)) default)
      (return_ (.get (.new (.variable "l") default) ⟨"x", default⟩)) none default,
    return_ (.literal (.int 0))]

theorem Stmt.localField_judged :
    let c₁ := Checker.new.enter
    let v := (Stmt.block Stmt.localField default).check c₁
    let rs := v.nodes.sites c₁.context
    EndsWithReturn Stmt.localField ∧ v.result = .ok () ∧ rs.map ReturnSite.type = [.int, .int] ∧
      (∀ r ∈ rs, c₁.context.Sees r.type) ∧
      v.state.context.checkBody .int v.nodes =
        ReturnSite.verdict .int (fun r => r.context.accepts .int r.type) rs := by
  have ends : EndsWithReturn Stmt.localField := ⟨_, rfl, rfl⟩
  have h := @Checker.Reachable.returns_judged .new Checker.new.enter .new [] []
    (.named "int" false default) .int Stmt.localField rfl rfl rfl ends default rfl
  have hsees : ∀ r ∈ ((Stmt.block Stmt.localField default).check Checker.new.enter).nodes.sites
      Checker.new.enter.context, Checker.new.enter.context.Sees r.type := by
    intro r hr
    have hmem : r.type ∈ [Ty.int, Ty.int] := List.mem_map_of_mem (f := ReturnSite.type) hr
    have hint : r.type = .int := by simpa using hmem
    rw [hint]
    exact (Context.knows_builtin rfl).sees
  exact ⟨ends, rfl, rfl, hsees, h.2.2.2.1 hsees⟩

/-- A function whose result type is a record with the fields of the one that it declares itself:
`struct P { x: int } let f: () -> P = fn(): P => { struct L { x: int } let l: L … }`. -/
def Program.localRecord (rest : List Stmt) : Program :=
  let name (x : String) : Ident := ⟨x, default⟩
  let type (x : String) : TypeExpr := .named x false default
  let function : Expr :=
    .new (.function [] (type "P") (.block (Stmt.localRecord rest) default)) default
  ⟨[.struct (name "P") [⟨name "x", type "int", default⟩] default,
    .let_ (name "f") (.function [] (type "P") default) (some function) default], default⟩

/-- Returns are not judged where they stand: there the value is accepted as one of the result type,
and yet the return of it is refused. It may be returned through a variable. -/
theorem Program.localRecord_refused :
    let value : Expr := .new (.variable "l") default
    let type (x : String) : TypeExpr := .named x false default
    let Γ : Context := .enter (.extend .empty
      [.record "P" (.record [("x", .int)]), .variable "f" (.function [] (type "P").ty)])
    let v := (Stmt.block (Stmt.localRecord [.return_ (some value) default]) default).check ⟨Γ, []⟩
    v.result = .ok () ∧
      (v.nodes.sites Γ).map (fun r => (r.type, r.context.accepts (type "P").ty r.type,
        Γ.accepts (type "P").ty r.type)) = [((type "L").ty, true, false)] ∧
      ((Program.localRecord [.return_ (some value) default]).check .new).result =
        .error (.fault ⟨.returnMismatch (type "P").ty (type "L").ty, default⟩) ∧
      ((Program.localRecord (Stmt.returnThrough ⟨"q", default⟩ (type "P") value default default
        default)).check .new).result = .ok () :=
  ⟨rfl, rfl, rfl, rfl⟩

end RecordLang
