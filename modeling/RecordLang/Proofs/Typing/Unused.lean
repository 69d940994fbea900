import RecordLang.Proofs.Typing.Absent

/-!
# Variables that do not occur

Two contexts that differ in one variable only give the same types to every tree in which its name
does not occur, neither as a use nor as a declaration (`HasType.congr_unused`,
`BlockTyped.congr_unused`).
-/

namespace RecordLang

/-! ### Contexts that differ in one variable -/

/-- The same records are visible, and the same variables but for the name `q`. -/
structure Context.SeeAlike (q : String) (Γ Δ : Context) : Prop where
  records : Γ.findRecord = Δ.findRecord
  recordCount : Γ.recordCount = Δ.recordCount
  visible : ∀ x, x ≠ q → Γ.findVariable x = Δ.findVariable x

/-- The current scopes, too, have the same variables but for the name `q`. -/
structure Context.AgreeBut (q : String) (Γ Δ : Context) : Prop extends SeeAlike q Γ Δ where
  current : ∀ x, x ≠ q → Γ.current.findSome? (Entry.variableOf x) =
    Δ.current.findSome? (Entry.variableOf x)

namespace Context

variable {q : String} {Γ Δ : Context} {t u : Ty}

namespace SeeAlike

theorem symm (h : SeeAlike q Γ Δ) : SeeAlike q Δ Γ :=
  ⟨h.records.symm, h.recordCount.symm, fun x hx => (h.visible x hx).symm⟩

theorem toSeeExcept (h : SeeAlike q Γ Δ) : SeeExcept (· = q) (fun _ => False) Γ Δ :=
  ⟨h.visible, fun x _ => congrFun h.records x, .none (fun _ => id) h.recordCount⟩

theorem accepts (h : SeeAlike q Γ Δ) : Γ.accepts t u = Δ.accepts t u :=
  h.toSeeExcept.accepts (fun _ _ => id) fun _ _ => id

theorem enter_self (Γ : Context) (q : String) : SeeAlike q Γ Γ.enter :=
  ⟨rfl, rfl, fun _ _ => rfl⟩

end SeeAlike

namespace AgreeBut

theorem symm (h : AgreeBut q Γ Δ) : AgreeBut q Δ Γ :=
  ⟨h.toSeeAlike.symm, fun x hx => (h.current x hx).symm⟩

theorem toAgreeExcept (h : AgreeBut q Γ Δ) : AgreeExcept (· = q) (fun _ => False) Γ Δ :=
  ⟨h.toSeeExcept, h.current⟩

/-- One more variable in the current scope. -/
theorem declare (Γ : Context) (q : String) (t : Ty) : AgreeBut q Γ (Γ.extend [.variable q t]) := by
  refine ⟨⟨rfl, rfl, fun x hx => ?_⟩, fun x hx => ?_⟩
  · simp [findVariable, Context.extend, Entry.variableOf, hx]
  · have hc : (Γ.extend [.variable q t]).current = .variable q t :: Γ.current := rfl
    rw [hc, List.findSome?_cons]
    simp [Entry.variableOf, hx]

end AgreeBut

end Context

/-! ### Types -/

section Typing

variable {R : SlotRule} {q : String} {Γ Δ : Context}

theorem HasType.congr_unused {e : Expr} {t : Ty} (h : HasType R Γ e t) (hΔ : Γ.SeeAlike q Δ)
    (hq : q ∉ e.names) : HasType R Δ e t :=
  h.congr_absent hΔ.toSeeExcept (fun _ hx he => hq (he ▸ hx)) fun _ _ => id

theorem BlockTyped.congr_unused {ss : List Stmt} {ts : List Ty} (h : BlockTyped R Γ ss ts)
    (hΔ : Γ.AgreeBut q Δ) (hq : q ∉ bodyNames ss) : BlockTyped R Δ ss ts :=
  h.congr_absent hΔ.toAgreeExcept (fun _ hx he => hq (he ▸ hx)) fun _ _ => id

end Typing

end RecordLang
