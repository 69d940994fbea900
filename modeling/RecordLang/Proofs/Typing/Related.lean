import RecordLang.Proofs.Typing.Visit

/-!
# Two visits side by side

Two runs of the check are compared stage by stage: what they have found, the nodes they leave and
the contexts they come to are related, or both have ended with related faults. The combinators of
visits keep this (`Visit.Related.map`, `Visit.Related.judge`, `Visit.Related.andThen`,
`Visit.Related.inScope`, `Visit.Related.record`), so a comparison of two checks is put together like
the check.
-/

namespace RecordLang

/-! ### How two stages end -/

/-- Both end well with related values, or both with related errors. -/
inductive Ends {ε ε' α α' : Type} (E : ε → ε' → Prop) (A : α → α' → Prop) :
    Except ε α → Except ε' α' → Prop
  | ok {a : α} {b : α'} (h : A a b) : Ends E A (.ok a) (.ok b)
  | error {e : ε} {f : ε'} (h : E e f) : Ends E A (.error e) (.error f)

namespace Ends

variable {ε ε' α α' β β' : Type} {E : ε → ε' → Prop} {A : α → α' → Prop} {B : β → β' → Prop}
  {x : Except ε α} {y : Except ε' α'}

theorem bind {f : α → Except ε β} {g : α' → Except ε' β'} (h : Ends E A x y)
    (hf : ∀ a b, A a b → Ends E B (f a) (g b)) : Ends E B (x >>= f) (y >>= g) := by
  cases h with
  | ok h => exact hf _ _ h
  | error h => exact .error h

theorem map {f : α → β} {g : α' → β'} (h : Ends E A x y) (hf : ∀ a b, A a b → B (f a) (g b)) :
    Ends E B (x.map f) (y.map g) := by
  cases h with
  | ok h => exact .ok (hf _ _ h)
  | error h => exact .error h

end Ends

/-- Both checks end with related faults, or both at a node that was visited before. -/
inductive Halt.Rel (F : TypeFault → TypeFault → Prop) : Halt → Halt → Prop
  | fault {f g : TypeFault} (h : F f g) : Rel F (.fault f) (.fault g)
  | revisited : Rel F .revisited .revisited

theorem Ends.mapError_fault {α α' : Type} {F : TypeFault → TypeFault → Prop} {A : α → α' → Prop}
    {x : Except TypeFault α} {y : Except TypeFault α'} (h : Ends F A x y) :
    Ends (Halt.Rel F) A (x.mapError .fault) (y.mapError .fault) := by
  cases h with
  | ok h => exact .ok h
  | error h => exact .error (.fault h)

/-! ### Visits -/

/-- Two visits that have come to related contexts and left related nodes, and have ended alike. -/
structure Visit.Related {ν ν' α α' : Type} (C : Context → Context → Prop)
    (F : TypeFault → TypeFault → Prop) (N : ν → ν' → Prop) (A : α → α' → Prop) (v : Visit ν α)
    (w : Visit ν' α') : Prop where
  nodes : N v.nodes w.nodes
  result : Ends (Halt.Rel F) A v.result w.result
  context : C v.state.context w.state.context

namespace Visit.Related

variable {ν ν' μ μ' α α' β β' : Type} {C : Context → Context → Prop}
  {F : TypeFault → TypeFault → Prop} {N : ν → ν' → Prop} {M : μ → μ' → Prop} {A : α → α' → Prop}
  {B : β → β' → Prop} {v : Visit ν α} {w : Visit ν' α'}

theorem map {f : ν → μ} {g : ν' → μ'} (h : Related C F N A v w)
    (hf : ∀ n n', N n n' → M (f n) (g n')) : Related C F M A (v.map f) (w.map g) :=
  ⟨hf _ _ h.nodes, h.result, h.context⟩

theorem judge {f : α → Except TypeFault β} {g : α' → Except TypeFault β'} (h : Related C F N A v w)
    (hf : ∀ a a', A a a' → Ends F B (f a) (g a')) : Related C F N B (v.judge f) (w.judge g) := by
  refine ⟨?_, ?_, ?_⟩
  · rw [judge_nodes, judge_nodes]
    exact h.nodes
  · have hresult := h.result
    rw [Visit.judge, Visit.judge]
    generalize v.result = x, w.result = y at hresult
    cases hresult with
    | ok ha => exact (hf _ _ ha).mapError_fault
    | error he => exact .error he
  · rw [judge_state, judge_state]
    exact h.context

theorem judgeIn {f : Context → α → Except TypeFault β} {g : Context → α' → Except TypeFault β'}
    (h : Related C F N A v w) (hf : ∀ Γ Δ a a', C Γ Δ → A a a' → Ends F B (f Γ a) (g Δ a')) :
    Related C F N B (v.judgeIn f) (w.judgeIn g) :=
  h.judge fun a a' ha => hf _ _ a a' h.context ha

theorem andThen {others : μ} {others' : μ'} {next : α → Checker → Visit μ β}
    {next' : α' → Checker → Visit μ' β'} (h : Related C F N A v w) (hothers : M others others')
    (hnext : ∀ a a' c d, A a a' → C c.context d.context → Related C F M B (next a c) (next' a' d)) :
    Related C F (fun p q => N p.1 q.1 ∧ M p.2 q.2) B (v.andThen others next)
      (w.andThen others' next') := by
  have hresult := h.result
  rw [Visit.andThen, Visit.andThen]
  generalize v.result = x, w.result = y at hresult
  cases hresult with
  | error he => exact ⟨⟨h.nodes, hothers⟩, .error he, h.context⟩
  | ok ha =>
    have hrest := hnext _ _ v.state w.state ha h.context
    exact ⟨⟨h.nodes, hrest.nodes⟩, hrest.result, hrest.context⟩

theorem inScope {c d : Checker} {f : Checker → Visit ν α} {g : Checker → Visit ν' α'}
    (h : Related C F N A (f c.enter) (g d.enter))
    (hexit : ∀ Γ Δ, C Γ Δ → C Γ.exit Δ.exit) :
    Related C F N A (Visit.inScope c f) (Visit.inScope d g) := by
  refine ⟨h.nodes, h.result, ?_⟩
  rw [inScope_state, inScope_state, Checker.exit_context, Checker.exit_context]
  exact hexit _ _ h.context

theorem record {T : Ty → Ty → Prop} {N : Form → Form → Prop} {M : Expr → Expr → Prop}
    {v w : Visit Form Ty} {span span' : Span} {slot slot' : Option Ty} (h : Related C F N T v w)
    (hslot : Option.Rel T slot slot') (hM : ∀ n n' s s', N n n' → Option.Rel T s s' →
      M (.mk n span s) (.mk n' span' s')) :
    Related C F M T (v.record span slot) (w.record span' slot') := by
  have hresult := h.result
  rw [Visit.record.eq_def, Visit.record.eq_def]
  generalize v.result = x, w.result = y at hresult
  cases hresult with
  | error he => exact ⟨hM _ _ _ _ h.nodes hslot, .error he, h.context⟩
  | ok ha =>
    cases hslot with
    | none => exact ⟨hM _ _ _ _ h.nodes (.some ha), .ok ha, h.context⟩
    | some hs => exact ⟨hM _ _ _ _ h.nodes (.some hs), .error .revisited, h.context⟩

end Visit.Related

end RecordLang
