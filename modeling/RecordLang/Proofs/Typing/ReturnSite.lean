import RecordLang.Proofs.Typing.Meaning
import RecordLang.Proofs.Typing.ReturnPath

/-!
# Where returns stand

The returns of a statement with the contexts in which they stand, all scopes around them open
(`Stmt.sites`). The check of a function body comes after these scopes are closed, and it judges each
return in the scope of the function (`Stmt.checkBody_eq_verdict`).
-/

namespace RecordLang

/-- A return: the context in which it stands, the type of its value, and its span. -/
structure ReturnSite where
  context : Context
  type : Ty
  span : Span

namespace Stmt

mutual

/-- The returns of a statement in source order, outside inner functions, if it stands in the context
and its expressions have their types. -/
def sites (Γ : Context) : Stmt → List ReturnSite
  | return_ value span => ((value.bind Expr.type).map fun t => ⟨Γ, t, span⟩).toList
  | block body _ => sitesAll Γ.enter body
  | if_ _ whenTrue none _ => whenTrue.sites Γ
  | if_ _ whenTrue (some whenFalse) _ =>
    whenTrue.sites Γ ++ whenFalse.sites (Γ.extend whenTrue.declarations)
  | while_ _ body _ => body.sites Γ
  | expr .. | let_ .. | struct .. => []

def sitesAll (Γ : Context) : List Stmt → List ReturnSite
  | [] => []
  | s :: ss => s.sites Γ ++ sitesAll (Γ.extend s.declarations) ss

end

end Stmt

/-! ### Contexts of returns -/

theorem Context.suffix_extend (Γ : Context) (ds : List Entry) :
    Γ.entries <:+ (Γ.extend ds).entries :=
  List.suffix_append _ _

theorem StmtTyped.admits {R : SlotRule} : ∀ {s : Stmt} {Γ : Context} {ts : List Ty},
    StmtTyped R Γ s ts → Γ.Admits s.declarations
  | .expr .., _, _, .expr _ => trivial
  | .let_ .., _, _, .declared ha => ⟨ha, trivial⟩
  | .let_ .., _, _, .initialized ha _ _ => ⟨ha, trivial⟩
  | .block .., _, _, .block _ => trivial
  | .if_ _ _ none _, _, _, .if_ _ h => h.admits
  | .if_ _ _ (some _) _, _, _, .ifElse _ h h' => Context.admits_append.mpr ⟨h.admits, h'.admits⟩
  | .while_ .., _, _, .while_ _ h => h.admits
  | .struct .., _, _, .struct hx _ hk =>
    ⟨⟨⟨_, rfl⟩, Context.knows_ofFields (List.forall_mem_map.mpr hk), hx⟩, trivial⟩
  | .return_ .., _, _, .return_ _ => trivial
termination_by structural s => s

mutual

/-- The returns that are listed with contexts are those that the check of a body goes through. -/
theorem StmtTyped.returns_eq : ∀ {s : Stmt} {Γ : Context} {ts : List Ty},
    StmtTyped .written Γ s ts → s.returns = (s.sites Γ).map fun r => (some r.type, r.span)
  | .expr .., _, _, .expr _ => rfl
  | .let_ .., _, _, .declared _ => rfl
  | .let_ .., _, _, .initialized .. => rfl
  | .struct .., _, _, .struct .. => rfl
  | .block .., _, _, .block h => h.returns_eq
  | .if_ _ _ none _, _, _, .if_ _ h => h.returns_eq
  | .if_ _ _ (some _) _, _, _, .ifElse _ h h' => by
    rw [Stmt.returns, Stmt.sites, List.map_append, h.returns_eq, h'.returns_eq]
  | .while_ .., _, _, .while_ _ h => h.returns_eq
  | .return_ .., _, _, .return_ h => by
    rw [Stmt.returns, Stmt.sites, Option.bind_some, h.type_eq]; rfl
termination_by structural s => s

theorem BlockTyped.returns_eq : ∀ {ss : List Stmt} {Γ : Context} {ts : List Ty},
    BlockTyped .written Γ ss ts →
      Stmt.returnsAll ss = (Stmt.sitesAll Γ ss).map fun r => (some r.type, r.span)
  | [], _, _, .nil => rfl
  | _ :: _, _, _, .cons h hs => by
    rw [Stmt.returnsAll, Stmt.sitesAll, List.map_append, h.returns_eq, hs.returns_eq]
termination_by structural ss => ss

end

/-- The types of the returned values are those at the returns. -/
theorem StmtTyped.types_eq {s : Stmt} {Γ : Context} {ts : List Ty} (h : StmtTyped .written Γ s ts) :
    ts = (s.sites Γ).map ReturnSite.type := by
  have ht := Stmt.returns_types h
  rw [h.returns_eq, List.map_map] at ht
  have hsome : ts.map some = ((s.sites Γ).map ReturnSite.type).map some := by
    rw [← ht, List.map_map]
    rfl
  exact (List.map_inj_right fun _ _ => Option.some.inj).mp hsome

/-- The return stands in `Γ` or further inside. -/
structure ReturnSite.Inside (Γ : Context) (r : ReturnSite) : Prop where
  wellFormed : r.context.WellFormed
  suffix : Γ.entries <:+ r.context.entries

theorem ReturnSite.Inside.outer {Γ Δ : Context} {r : ReturnSite} (h : r.Inside Δ)
    (hs : Γ.entries <:+ Δ.entries) : r.Inside Γ :=
  ⟨h.wellFormed, hs.trans h.suffix⟩

mutual

theorem StmtTyped.inside : ∀ {s : Stmt} {Γ : Context} {ts : List Ty}, StmtTyped .written Γ s ts →
    Γ.WellFormed → ∀ r ∈ s.sites Γ, r.Inside Γ ∧
      ∃ e, HasType .written r.context e r.type ∧ Stmt.Within (.return_ (some e) r.span) s
  | .expr .., _, _, .expr _, _ => nofun
  | .let_ .., _, _, .declared _, _ => nofun
  | .let_ .., _, _, .initialized .., _ => nofun
  | .struct .., _, _, .struct .., _ => nofun
  | .block _ span, Γ, _, .block h, hΓ => by
    intro r hr
    obtain ⟨hin, e, he, s, hs, hw⟩ := h.inside hΓ.enter r hr
    exact ⟨hin.outer (List.suffix_cons _ _), e, he, .block span hs hw⟩
  | .if_ c _ none span, _, _, .if_ _ h, hΓ => by
    intro r hr
    obtain ⟨hin, e, he, hw⟩ := h.inside hΓ r hr
    exact ⟨hin, e, he, .ifTrue c none span hw⟩
  | .if_ c s (some s') span, Γ, _, .ifElse _ h h', hΓ => by
    intro r hr
    rcases List.mem_append.mp hr with hr | hr
    · obtain ⟨hin, e, he, hw⟩ := h.inside hΓ r hr
      exact ⟨hin, e, he, .ifTrue c (some s') span hw⟩
    · obtain ⟨hin, e, he, hw⟩ := h'.inside (hΓ.extend h.admits) r hr
      exact ⟨hin.outer (Γ.suffix_extend _), e, he, .ifFalse c s span hw⟩
  | .while_ c _ span, _, _, .while_ _ h, hΓ => by
    intro r hr
    obtain ⟨hin, e, he, hw⟩ := h.inside hΓ r hr
    exact ⟨hin, e, he, .while_ c span hw⟩
  | .return_ (some e) span, Γ, _, .return_ h, hΓ => by
    intro r hr
    rw [Stmt.sites, Option.bind_some, h.type_eq] at hr
    obtain rfl := List.mem_singleton.mp hr
    exact ⟨⟨hΓ, List.suffix_rfl⟩, e, h, .self⟩
termination_by structural s => s

theorem BlockTyped.inside : ∀ {ss : List Stmt} {Γ : Context} {ts : List Ty},
    BlockTyped .written Γ ss ts → Γ.WellFormed → ∀ r ∈ Stmt.sitesAll Γ ss, r.Inside Γ ∧
      ∃ e, HasType .written r.context e r.type ∧
        ∃ s ∈ ss, Stmt.Within (.return_ (some e) r.span) s
  | [], _, _, .nil, _ => nofun
  | s :: _, Γ, _, .cons h hs, hΓ => by
    intro r hr
    rcases List.mem_append.mp hr with hr | hr
    · obtain ⟨hin, e, he, hw⟩ := h.inside hΓ r hr
      exact ⟨hin, e, he, s, List.mem_cons_self, hw⟩
    · obtain ⟨hin, e, he, s', hs', hw⟩ := hs.inside (hΓ.extend h.admits) r hr
      exact ⟨hin.outer (Γ.suffix_extend _), e, he, s', List.mem_cons_of_mem _ hs', hw⟩
termination_by structural ss => ss

end

/-! ### The first return that is refused -/

/-- The outcome for a function with these returns: a fault at the first one that is refused. -/
def ReturnSite.verdict (result : Ty) (accepted : ReturnSite → Bool) (rs : List ReturnSite) :
    Except TypeFault Unit :=
  match rs.find? fun r => !accepted r with
  | none => .ok ()
  | some r => .error ⟨.returnMismatch result r.type, r.span⟩

namespace ReturnSite

variable {result : Ty} {rs : List ReturnSite} {accepted accepted' : ReturnSite → Bool}

theorem verdict_congr (h : ∀ r ∈ rs, accepted r = accepted' r) :
    verdict result accepted rs = verdict result accepted' rs := by
  have hf : rs.find? (fun r => !accepted r) = rs.find? fun r => !accepted' r := by
    induction rs with
    | nil => rfl
    | cons r rs ih =>
      obtain ⟨hr, hrs⟩ := List.forall_mem_cons.mp h
      rw [List.find?_cons, List.find?_cons, hr, ih hrs]
  rw [verdict, verdict, hf]

theorem forM_checkReturned (Γ : Context) (result : Ty) (rs : List ReturnSite) :
    ((rs.map fun r => (some r.type, r.span)).forM fun (actual, span) =>
      Γ.checkReturned result actual span) =
      verdict result (fun r => Γ.accepts result r.type) rs := by
  induction rs with
  | nil => rfl
  | cons r rs ih =>
    have hstep : (((r :: rs).map fun r => (some r.type, r.span)).forM fun (actual, span) =>
        Γ.checkReturned result actual span) = (do
          Γ.checkReturned result (some r.type) r.span
          verdict result (fun r => Γ.accepts result r.type) rs) := by rw [← ih]; rfl
    rw [hstep]
    cases ha : Γ.accepts result r.type with
    | true => simp [Context.checkReturned, verdict, ha, bind, Except.bind]
    | false => simp [Context.checkReturned, verdict, ha, bind, Except.bind]

end ReturnSite

/-- The body of a function that ends with a return, and that has its types, is refused at the first
return whose value is not accepted in the scope of the function. -/
theorem Stmt.checkBody_eq_verdict {Γ : Context} {body : List Stmt} {span : Span} {ts : List Ty}
    (h : StmtTyped .written Γ (.block body span) ts) (ends : EndsWithReturn body) (result : Ty) :
    Γ.checkBody result (.block body span) =
      ReturnSite.verdict result (fun r => Γ.accepts result r.type)
        ((Stmt.block body span).sites Γ) := by
  have hc : (Stmt.block body span).Closes := ends
  have hr : (Stmt.block body span).results = (Stmt.block body span).returns := rfl
  rw [Context.checkBody_of_closes hc, hr, h.returns_eq, ReturnSite.forM_checkReturned]

end RecordLang
