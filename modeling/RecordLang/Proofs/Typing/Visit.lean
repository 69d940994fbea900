import RecordLang.Proofs.Typing.Context

/-!
# How visits end

The outcome, the nodes and the state of a visit that is put together from others. A visit ends well
exactly if each of its stages does (`Visit.andThen_eq_ok`, `Visit.judge_eq_ok`), so an accepted tree
is taken apart by rewriting with these lemmas, and nothing below unfolds the combinators.
-/

namespace RecordLang

namespace Visit

variable {ν μ α β : Type} {v : Visit ν α}

@[simp] theorem map_nodes (f : ν → μ) (v : Visit ν α) : (v.map f).nodes = f v.nodes := rfl
@[simp] theorem map_result (f : ν → μ) (v : Visit ν α) : (v.map f).result = v.result := rfl
@[simp] theorem map_state (f : ν → μ) (v : Visit ν α) : (v.map f).state = v.state := rfl

@[simp] theorem judge_nodes (v : Visit ν α) (f : α → Except TypeFault β) :
    (v.judge f).nodes = v.nodes := by
  rw [judge]; split <;> rfl

@[simp] theorem judge_state (v : Visit ν α) (f : α → Except TypeFault β) :
    (v.judge f).state = v.state := by
  rw [judge]; split <;> rfl

theorem mapError_eq_ok {ε ε' : Type} {x : Except ε α} {f : ε → ε'} {a : α} :
    x.mapError f = .ok a ↔ x = .ok a := by
  cases x <;> simp [Except.mapError]

theorem judge_eq_ok {f : α → Except TypeFault β} {b : β} :
    (v.judge f).result = .ok b ↔ ∃ a, v.result = .ok a ∧ f a = .ok b := by
  rw [judge]
  split
  next h hv => simp [hv]
  next a hv => simp [hv, mapError_eq_ok]

@[simp] theorem judgeIn_nodes (v : Visit ν α) (f : Context → α → Except TypeFault β) :
    (v.judgeIn f).nodes = v.nodes := judge_nodes ..
@[simp] theorem judgeIn_state (v : Visit ν α) (f : Context → α → Except TypeFault β) :
    (v.judgeIn f).state = v.state := judge_state ..

theorem judgeIn_eq_ok {f : Context → α → Except TypeFault β} {b : β} :
    (v.judgeIn f).result = .ok b ↔ ∃ a, v.result = .ok a ∧ f v.state.context a = .ok b :=
  judge_eq_ok

/-! ### Two visits -/

variable {others : μ} {next : α → Checker → Visit μ β}

theorem andThen_of_ok {a : α} (h : v.result = .ok a) : v.andThen others next =
    ⟨(v.nodes, (next a v.state).nodes), (next a v.state).result, (next a v.state).state⟩ := by
  rw [andThen, h]

theorem andThen_of_error {e : Halt} (h : v.result = .error e) :
    v.andThen others next = ⟨(v.nodes, others), .error e, v.state⟩ := by
  rw [andThen, h]

theorem andThen_eq_ok {b : β} : (v.andThen others next).result = .ok b ↔
    ∃ a, v.result = .ok a ∧ (next a v.state).result = .ok b := by
  cases h : v.result with
  | error e => simp [andThen_of_error h]
  | ok a => simp [andThen_of_ok h]

/-- A context that neither visit changes. -/
theorem andThen_context {Γ : Context} (hv : v.state.context = Γ)
    (hn : ∀ a c, c.context = Γ → (next a c).state.context = Γ) :
    (v.andThen others next).state.context = Γ := by
  cases h : v.result with
  | error e => rw [andThen_of_error h]; exact hv
  | ok a => rw [andThen_of_ok h]; exact hn a _ hv

/-! ### Scopes and slots -/

@[simp] theorem inScope_nodes (c : Checker) (f : Checker → Visit ν α) :
    (inScope c f).nodes = (f c.enter).nodes := rfl
@[simp] theorem inScope_result (c : Checker) (f : Checker → Visit ν α) :
    (inScope c f).result = (f c.enter).result := rfl
@[simp] theorem inScope_state (c : Checker) (f : Checker → Visit ν α) :
    (inScope c f).state = (f c.enter).state.exit := rfl

@[simp] theorem record_state (v : Visit Form Ty) (span : Span) (slot : Option Ty) :
    (v.record span slot).state = v.state := by
  unfold record; split <;> rfl

/-- A type is written only into an empty slot. -/
theorem record_eq_ok {v : Visit Form Ty} {span : Span} {slot : Option Ty} {t : Ty} :
    (v.record span slot).result = .ok t ↔ v.result = .ok t ∧ slot = none := by
  cases h : v.result with
  | error e => simp [record, h]
  | ok u => cases slot <;> simp [record, h]

theorem record_nodes_of_ok {v : Visit Form Ty} {t : Ty} (h : v.result = .ok t) (span : Span) :
    (v.record span none).nodes = .mk v.nodes span (some t) := by
  simp [record, h]

end Visit

/-- A parameter as a declaration. -/
def TypedName.entry (p : TypedName) : Entry := .variable p.name.name p.type.ty

/-- Parameters of known types may be declared if their names are distinct and new. -/
theorem Context.admits_params {Γ : Context} {params : List TypedName}
    (hk : ∀ p ∈ params, Γ.Knows p.type.ty) (hd : (params.map fun p => p.name.name).Nodup)
    (hn : ∀ p ∈ params, Γ.current.findSome? (Entry.variableOf p.name.name) = none) :
    Γ.Admits (params.map TypedName.entry) := by
  induction params generalizing Γ with
  | nil => trivial
  | cons p ps ih =>
    simp only [List.forall_mem_cons, List.map_cons, List.nodup_cons] at hk hd hn
    have hp : Γ.Allows p.entry := ⟨hk.1, hn.1⟩
    have h₁ : Γ.Admits [p.entry] := ⟨hp, trivial⟩
    refine ⟨hp, ih (fun q hq => h₁.knows (hk.2 q hq)) hd.2 fun q hq => ?_⟩
    have hne : q.name.name ≠ p.name.name := fun he => hd.1 (List.mem_map.mpr ⟨q, hq, he⟩)
    rw [hp.current]
    simp [TypedName.entry, Entry.variableOf, hne, hn.2 q hq]

/-- The schema that a record with these fields declares. -/
def TypedName.schema (fields : List TypedName) : Ty :=
  .ofFields (fields.map fun f => (f.name.name, f.type.ty))

namespace Checker

variable {c c' : Checker}

@[simp] theorem note_context (c : Checker) (e : Event) : (c.note e).context = c.context := rfl

@[simp] theorem enter_context (c : Checker) : c.enter.context = c.context.enter := rfl

@[simp] theorem exit_context (c : Checker) : c.exit.context = c.context.exit := by
  rw [exit]
  split
  next h =>
    -- no scope was entered, so there is none to leave
    have hz : ∀ e ∈ c.context.entries, e.isScope = false := fun e he => by
      simpa using List.countP_eq_zero.mp h e he
    have hn : Context.outer? c.context.entries = none := by
      simpa [Context.outer?] using Context.outer?_append [] hz
    rw [Context.exit, hn]
  next => rfl

/-! ### Declarations -/

theorem declare_eq_ok {x : String} {t : Ty} {fault : TypeFault} :
    c.declare x t fault = .ok c' ↔ c.context.current.findSome? (Entry.variableOf x) = none ∧
      c' = { c with context := c.context.extend [.variable x t] } := by
  cases h : c.context.current.findSome? (Entry.variableOf x) with
  | some u => simp [declare, Context.declare, h]
  | none => simp [declare, Context.declare, h, Context.extend, eq_comm]

/-- Parameters are declared if their names are distinct and new in the scope. -/
theorem declareParams_eq_ok {params : List TypedName} :
    c.declareParams params (params.map fun p => p.type.ty) = .ok c' ↔
      (params.map fun p => p.name.name).Nodup ∧
      (∀ p ∈ params, c.context.current.findSome? (Entry.variableOf p.name.name) = none) ∧
      c' = { c with context := c.context.extend (params.map TypedName.entry) } := by
  induction params generalizing c with
  | nil => simp [declareParams, eq_comm]
  | cons p ps ih =>
    -- a later parameter is new once the first is declared
    have later : ∀ q, (c.context.extend [p.entry]).current.findSome? (Entry.variableOf q) = none ↔
        q ≠ p.name.name ∧ c.context.current.findSome? (Entry.variableOf q) = none := by
      intro q
      show (p.entry :: c.context.current).findSome? _ = none ↔ _
      by_cases hq : q = p.name.name <;> simp [TypedName.entry, Entry.variableOf, hq]
    simp only [declareParams, List.map_cons]
    split
    next c₁ h₁ =>
      obtain ⟨hp, rfl⟩ := declare_eq_ok.mp h₁
      simp only [ih, List.nodup_cons, List.forall_mem_cons, hp, true_and, List.mem_map, not_exists,
        not_and]
      constructor
      · rintro ⟨hd, hn, rfl⟩
        exact ⟨⟨fun q hq => ((later _).mp (hn q hq)).1, hd⟩,
          fun q hq => ((later _).mp (hn q hq)).2, by simp [TypedName.entry]⟩
      · rintro ⟨⟨hne, hd⟩, hn, rfl⟩
        exact ⟨hd, fun q hq => (later _).mpr ⟨hne q hq, hn q hq⟩, by simp [TypedName.entry]⟩
    next h h₁ =>
      simp only [reduceCtorEq, false_iff, List.forall_mem_cons]
      rintro ⟨-, ⟨hp, -⟩, -⟩
      rw [declare_eq_ok.mpr ⟨hp, rfl⟩] at h₁
      cases h₁

/-- A record is declared if it is not visible and its fields have distinct names and known types. -/
theorem declareRecord_eq_ok {x : Ident} {fields : List TypedName} :
    c.declareRecord x fields = .ok c' ↔
      c.context.findRecord x.name = none ∧ (fields.map fun f => f.name.name).Nodup ∧
      (∀ f ∈ fields, c.context.Knows f.type.ty) ∧
      c' = ⟨c.context.extend [.record x.name (TypedName.schema fields)],
        .recordDeclared x.name fields.length :: c.log⟩ := by
  cases hx : c.context.findRecord x.name with
  | some s => simp [declareRecord, hx]
  | none =>
    simp only [declareRecord, hx, Context.declareRecord, true_and]
    split
    next f hf =>
      simp only [reduceCtorEq, false_iff]
      rintro ⟨hd, hk, -⟩
      rw [Context.readFields_eq_ok.mpr ⟨fun _ _ => List.not_mem_nil, hd, hk, rfl⟩] at hf
      cases hf
    next types ht =>
      obtain ⟨-, hd, hk, rfl⟩ := Context.readFields_eq_ok.mp ht
      simp only [Except.ok.injEq, hd, true_and]
      exact ⟨fun h => ⟨hk, h.symm⟩, fun h => h.2.symm⟩

end Checker

end RecordLang
