import Mathlib.Logic.Relation
import RecordLang.Proofs.Typing.Soundness

/-!
# Well-formed contexts and the meaning of types

A context is well formed if it was built from nothing by entering scopes and by declarations that
were allowed. The types in it then speak only of what was declared before them, so that schemas do
not refer to one another in a circle, and putting schemas for names comes to an end: the bounded
`Context.resolve` gives exactly what the recursion `Resolves` without a bound gives
(`WellFormed.resolves_iff`). Every context that a checker can come to is well formed
(`Checker.Reachable.wellFormed`).
-/

namespace RecordLang

/-- The type that a declaration gives to its name. -/
def Entry.type? : Entry → Option Ty
  | .scope => none
  | .variable _ t => some t
  | .record _ schema => some schema

theorem Entry.type?_of_variableOf {d : Entry} {x : String} {t : Ty} (h : d.variableOf x = some t) :
    d.type? = some t := by
  rcases d with _ | ⟨y, u⟩ | _
  · cases h
  · exact congrArg some (by simpa [Entry.variableOf] using h : x = y ∧ u = t).2
  · cases h

theorem Entry.type?_of_recordOf {d : Entry} {x : String} {t : Ty} (h : d.recordOf x = some t) :
    d.type? = some t := by
  rcases d with _ | _ | ⟨y, u⟩
  · cases h
  · cases h
  · exact congrArg some (by simpa [Entry.recordOf] using h : x = y ∧ u = t).2

namespace Context

variable {Γ Δ : Context} {ds : List Entry} {x : String} {t u schema : Ty}

/-- Built from nothing by entering scopes and by allowed declarations. -/
inductive WellFormed : Context → Prop
  | empty : WellFormed .empty
  | enter {Γ : Context} (h : WellFormed Γ) : WellFormed Γ.enter
  | declare {Γ : Context} {d : Entry} (h : WellFormed Γ) (hd : Γ.Allows d) :
      WellFormed (Γ.extend [d])

/-- The schema of the record `a` mentions `b`, which is not built in. -/
def Refers (Γ : Context) (a b : String) : Prop :=
  ∃ schema, .record a schema ∈ Γ.entries ∧ schema.Mentions b ∧ Ty.isBuiltin b = false

/-! ### Scopes and declarations -/

theorem WellFormed.extend (h : Γ.WellFormed) (hds : Γ.Admits ds) : (Γ.extend ds).WellFormed := by
  induction ds generalizing Γ with
  | nil => exact h
  | cons d ds ih => simpa using ih (h.declare hds.1) hds.2

theorem exit_extend (h : Γ.Admits ds) : (Γ.extend ds).exit = Γ.exit ∨
    (Γ.extend ds).exit = Γ.extend ds := by
  rw [exit, exit, h.outer?]
  cases Context.outer? Γ.entries with
  | some es => exact .inl rfl
  | none => exact .inr rfl

theorem WellFormed.exit (h : Γ.WellFormed) : Γ.exit.WellFormed := by
  induction h with
  | empty => exact .empty
  | enter h _ => exact h
  | @declare Γ d h hd ih =>
    -- the declaration goes with its scope, or the scope is the outermost and stays
    have had : Γ.Admits [d] := ⟨hd, trivial⟩
    rcases exit_extend had with he | he
    · rw [he]; exact ih
    · rw [he]; exact h.declare hd

/-! ### What was declared before -/

/-- Each declaration was allowed by what lies below it. -/
theorem WellFormed.allows {inner outer : List Entry} {d : Entry} (h : Γ.WellFormed)
    (he : Γ.entries = inner ++ d :: outer) :
    WellFormed ⟨outer⟩ ∧ (d = .scope ∨ Allows ⟨outer⟩ d) := by
  induction h generalizing inner with
  | empty => cases inner <;> cases he
  | @enter Γ h ih =>
    cases inner with
    | nil =>
      obtain ⟨rfl, rfl⟩ := List.cons.inj he
      exact ⟨h, .inl rfl⟩
    | cons _ inner => exact ih (List.cons.inj he).2
  | @declare Γ d' h hd ih =>
    cases inner with
    | nil =>
      obtain ⟨rfl, rfl⟩ := List.cons.inj he
      exact ⟨h, .inr hd⟩
    | cons _ inner => exact ih (List.cons.inj he).2

theorem Allows.knows {d : Entry} (h : Γ.Allows d) (ht : d.type? = some t) : Γ.Knows t := by
  rcases d with _ | ⟨y, u⟩ | ⟨y, u⟩
  · cases ht
  · cases ht; exact h.1
  · cases ht; exact h.2.1

/-- A record that is visible below is still visible, with its schema. -/
theorem WellFormed.findRecord_of_suffix (h : Γ.WellFormed) (hs : Δ.entries <:+ Γ.entries)
    (hx : Δ.findRecord x = some schema) : Γ.findRecord x = some schema := by
  obtain ⟨inner, he⟩ := hs
  induction h generalizing inner with
  | empty =>
    obtain ⟨-, he⟩ := List.append_eq_nil_iff.mp he
    rw [Context.findRecord, he] at hx; cases hx
  | @enter Γ h ih =>
    cases inner with
    | nil => rw [← hx, Context.findRecord, Context.findRecord, ← he]; rfl
    | cons _ inner => exact ih inner (List.cons.inj he).2
  | @declare Γ d h hd ih =>
    cases inner with
    | nil => rw [← hx, Context.findRecord, Context.findRecord, ← he]; rfl
    | cons _ inner =>
      have had : Γ.Admits [d] := ⟨hd, trivial⟩
      exact had.findRecord (ih inner (List.cons.inj he).2)

/-- The records that are visible in `Γ` are visible in `Δ`, with their schemas. -/
def RecordsIn (Γ Δ : Context) : Prop :=
  ∀ name schema, Γ.findRecord name = some schema → Δ.findRecord name = some schema

theorem RecordsIn.refl (Γ : Context) : Γ.RecordsIn Γ := fun _ _ hx => hx

theorem RecordsIn.trans {Θ : Context} (h : Γ.RecordsIn Δ) (h' : Δ.RecordsIn Θ) : Γ.RecordsIn Θ :=
  fun name schema hx => h' name schema (h name schema hx)

theorem WellFormed.recordsIn (h : Δ.WellFormed) (hs : Γ.entries <:+ Δ.entries) : Γ.RecordsIn Δ :=
  fun _ _ hx => h.findRecord_of_suffix hs hx

theorem RecordsIn.knows (h : Γ.RecordsIn Δ) (ht : Γ.Knows t) : Δ.Knows t := by
  intro n hn
  rw [knows_eq_true]
  exact (knows_eq_true.mp (ht n hn)).imp_right fun ⟨s, hx⟩ => ⟨s, h n s hx⟩

theorem WellFormed.knows_of_suffix (h : Γ.WellFormed) (hs : Δ.entries <:+ Γ.entries)
    (ht : Δ.Knows t) : Γ.Knows t :=
  (h.recordsIn hs).knows ht

theorem WellFormed.findRecord_of_mem (h : Γ.WellFormed) (hx : .record x schema ∈ Γ.entries) :
    Γ.findRecord x = some schema := by
  obtain ⟨inner, outer, he⟩ := List.append_of_mem hx
  refine h.findRecord_of_suffix (Δ := ⟨.record x schema :: outer⟩) ⟨inner, he.symm⟩ ?_
  simp [Context.findRecord, Entry.recordOf]

/-- A visible record was declared where there were fewer, and its schema knows those only. -/
theorem WellFormed.outer_of_findRecord (h : Γ.WellFormed) (hx : Γ.findRecord x = some schema) :
    ∃ Δ : Context, Δ.WellFormed ∧ Δ.entries <:+ Γ.entries ∧ Δ.recordCount < Γ.recordCount ∧
      Δ.Knows schema := by
  obtain ⟨d, hd, hdx⟩ := List.exists_of_findSome?_eq_some hx
  obtain ⟨inner, outer, he⟩ := List.append_of_mem hd
  rcases d with _ | _ | ⟨y, u⟩
  · cases hdx
  · cases hdx
  · obtain ⟨-, rfl⟩ : x = y ∧ u = schema := by simpa [Entry.recordOf] using hdx
    obtain ⟨ho, ha⟩ := h.allows he
    refine ⟨⟨outer⟩, ho, ⟨inner ++ [.record y u], by simp [he]⟩, ?_, (ha.resolve_left (by simp)).2.1⟩
    simp only [recordCount, he, List.countP_append, List.countP_cons, Entry.isRecord, if_true]
    omega

/-- The type of a declaration knows what is visible now. -/
theorem WellFormed.knows_of_mem {d : Entry} (h : Γ.WellFormed) (hd : d ∈ Γ.entries)
    (ht : d.type? = some t) : Γ.Knows t := by
  obtain ⟨inner, outer, he⟩ := List.append_of_mem hd
  obtain ⟨-, ha⟩ := h.allows he
  have hs : outer <:+ Γ.entries := ⟨inner ++ [d], by simp [he]⟩
  refine h.knows_of_suffix (Δ := ⟨outer⟩) hs ((ha.resolve_left ?_).knows ht)
  rintro rfl
  cases ht

theorem WellFormed.knows_variable (h : Γ.WellFormed) (hx : Γ.findVariable x = some t) :
    Γ.Knows t := by
  obtain ⟨d, hd, hdx⟩ := List.exists_of_findSome?_eq_some hx
  exact h.knows_of_mem hd (Entry.type?_of_variableOf hdx)

theorem WellFormed.knows_schema (h : Γ.WellFormed) (hx : Γ.findRecord x = some schema) :
    Γ.Knows schema := by
  obtain ⟨d, hd, hdx⟩ := List.exists_of_findSome?_eq_some hx
  exact h.knows_of_mem hd (Entry.type?_of_recordOf hdx)

theorem mem_of_knows {es : List Entry} (h : knows ⟨es⟩ x = true) :
    Ty.isBuiltin x = true ∨ ∃ schema, .record x schema ∈ es := by
  refine (knows_eq_true.mp h).imp_right fun ⟨schema, hx⟩ => ?_
  obtain ⟨d, hd, hdx⟩ := List.exists_of_findSome?_eq_some hx
  rcases d with _ | _ | ⟨y, u⟩
  · cases hdx
  · cases hdx
  · obtain ⟨rfl, rfl⟩ : x = y ∧ u = schema := by simpa [Entry.recordOf] using hdx
    exact ⟨u, hd⟩

/-! ### No circle of schemas -/

/-- What the schema of a record mentions was declared where there were fewer records. -/
theorem WellFormed.refers {a b : String} (hΓ : Γ.WellFormed) (h : Δ.WellFormed)
    (hs : Δ.entries <:+ Γ.entries) (ha : Δ.findRecord a = some schema) (hab : Γ.Refers a b) :
    ∃ Δ' : Context, Δ'.WellFormed ∧ Δ'.entries <:+ Γ.entries ∧ Δ'.recordCount < Δ.recordCount ∧
      ∃ schema', Δ'.findRecord b = some schema' := by
  obtain ⟨s, hmem, hb, hnb⟩ := hab
  -- the schema that refers is the one that is found below
  have hsame : some s = some schema := by
    rw [← hΓ.findRecord_of_mem hmem, hΓ.findRecord_of_suffix hs ha]
  cases hsame
  obtain ⟨Δ', h', hs', hlt, hk⟩ := h.outer_of_findRecord ha
  refine ⟨Δ', h', hs'.trans hs, hlt, (knows_eq_true.mp (hk b hb)).resolve_left ?_⟩
  rw [hnb]; exact Bool.false_ne_true

theorem WellFormed.transGen_refers {a b : String} (hΓ : Γ.WellFormed) (h : Δ.WellFormed)
    (hs : Δ.entries <:+ Γ.entries) (ha : Δ.findRecord a = some schema)
    (hab : Relation.TransGen Γ.Refers a b) :
    ∃ Δ' : Context, Δ'.WellFormed ∧ Δ'.entries <:+ Γ.entries ∧ Δ'.recordCount < Δ.recordCount ∧
      ∃ schema', Δ'.findRecord b = some schema' := by
  induction hab with
  | single hab => exact hΓ.refers h hs ha hab
  | tail _ hbc ih =>
    obtain ⟨Δ₁, h₁, hs₁, hlt₁, _, hb⟩ := ih
    obtain ⟨Δ₂, h₂, hs₂, hlt₂, hc⟩ := hΓ.refers h₁ hs₁ hb hbc
    exact ⟨Δ₂, h₂, hs₂, Nat.lt_trans hlt₂ hlt₁, hc⟩

/-- No schema comes back to its own record. -/
theorem WellFormed.acyclic (hΓ : Γ.WellFormed) (a : String) : ¬ Relation.TransGen Γ.Refers a a := by
  intro hc
  -- a circle from a record leads to where there are fewer records, again and again
  have descend : ∀ n (Δ : Context) schema, Δ.recordCount = n → Δ.WellFormed →
      Δ.entries <:+ Γ.entries → Δ.findRecord a = some schema → False := by
    intro n
    induction n using Nat.strongRecOn with
    | ind n ih =>
      rintro Δ schema rfl h hs ha
      obtain ⟨Δ', h', hs', hlt, schema', ha'⟩ := hΓ.transGen_refers h hs ha hc
      exact ih _ hlt Δ' schema' rfl h' hs' ha'
  obtain ⟨b, ⟨schema, hmem, -⟩, -⟩ := Relation.TransGen.head'_iff.mp hc
  exact descend _ Γ schema rfl hΓ List.suffix_rfl (hΓ.findRecord_of_mem hmem)

end Context

/-! ### Resolution without a bound -/

mutual

/-- The recursion that puts schemas for references and goes on into the schemas, with no bound on
its depth: a derivation is a run that comes to an end. -/
inductive Resolves (Γ : Context) : Ty → Ty → Prop
  | optional (name : String) : Resolves Γ (.named name true) (.named name true)
  | builtin {name : String} (h : Ty.isBuiltin name = true) :
      Resolves Γ (.named name false) (.named name false)
  | unknown {name : String} (h : Ty.isBuiltin name = false) (none : Γ.findRecord name = none) :
      Resolves Γ (.named name false) (.named name false)
  | reference {name : String} {schema u : Ty} (h : Ty.isBuiltin name = false)
      (found : Γ.findRecord name = some schema) (next : Resolves Γ schema u) :
      Resolves Γ (.named name false) u
  | function {params params' : List Ty} {result result' : Ty}
      (inParams : ResolvesAll Γ params params') (inResult : Resolves Γ result result') :
      Resolves Γ (.function params result) (.function params' result')
  | record {fields fields' : List (String × Ty)} (inFields : ResolvesFields Γ fields fields') :
      Resolves Γ (.record fields) (.record fields')

inductive ResolvesAll (Γ : Context) : List Ty → List Ty → Prop
  | nil : ResolvesAll Γ [] []
  | cons {t u : Ty} {ts us : List Ty} (first : Resolves Γ t u) (rest : ResolvesAll Γ ts us) :
      ResolvesAll Γ (t :: ts) (u :: us)

inductive ResolvesFields (Γ : Context) : List (String × Ty) → List (String × Ty) → Prop
  | nil : ResolvesFields Γ [] []
  | cons {name : String} {t u : Ty} {fs gs : List (String × Ty)} (first : Resolves Γ t u)
      (rest : ResolvesFields Γ fs gs) : ResolvesFields Γ ((name, t) :: fs) ((name, u) :: gs)

end

section Resolution

variable {Γ Δ : Context}

theorem resolvesAll_iff_map {f : Ty → Ty} {ts us : List Ty}
    (h : ∀ t ∈ ts, ∀ u, Resolves Γ t u ↔ u = f t) : ResolvesAll Γ ts us ↔ us = ts.map f := by
  induction ts generalizing us with
  | nil => exact ⟨fun | .nil => rfl, fun he => he ▸ .nil⟩
  | cons t ts ih =>
    obtain ⟨ht, hts⟩ := List.forall_mem_cons.mp h
    constructor
    · rintro (_ | ⟨h₁, hs⟩)
      rw [(ht _).mp h₁, (ih hts).mp hs, List.map_cons]
    · rintro rfl
      exact .cons ((ht _).mpr rfl) ((ih hts).mpr rfl)

theorem resolvesFields_iff_map {f : Ty → Ty} {fs gs : List (String × Ty)}
    (h : ∀ g ∈ fs, ∀ u, Resolves Γ g.2 u ↔ u = f g.2) :
    ResolvesFields Γ fs gs ↔ gs = fs.map fun g => (g.1, f g.2) := by
  induction fs generalizing gs with
  | nil => exact ⟨fun | .nil => rfl, fun he => he ▸ .nil⟩
  | cons g fs ih =>
    obtain ⟨hg, hfs⟩ := List.forall_mem_cons.mp h
    constructor
    · rintro (_ | ⟨h₁, hs⟩)
      rw [(hg _).mp h₁, (ih hfs).mp hs, List.map_cons]
    · rintro rfl
      exact .cons ((hg _).mpr rfl) ((ih hfs).mpr rfl)

/-- If all references of a type have found schemas, and what the schemas resolve to is what `f`
gives for them, then the type resolves to its expansion by `f` and to nothing else. -/
theorem resolves_iff_expand {t u : Ty} {f : String → Option Ty}
    (h : ∀ name, (name, false) ∈ t.leaves → Ty.isBuiltin name = false →
      ∃ schema w, Γ.findRecord name = some schema ∧ f name = some w ∧
        ∀ u, Resolves Γ schema u ↔ u = w) : Resolves Γ t u ↔ u = t.expand f := by
  induction t using Ty.induction generalizing u with
  | named name optional =>
    cases optional with
    | true => exact ⟨fun | .optional _ => rfl, fun he => he ▸ .optional name⟩
    | false =>
      cases hb : Ty.isBuiltin name with
      | true =>
        simp only [Ty.expand, hb, if_true]
        constructor
        · rintro (_ | _ | _ | ⟨hn, -, -⟩)
          · rfl
          · rfl
          · rw [hb] at hn; cases hn
        · rintro rfl
          exact .builtin hb
      | false =>
        obtain ⟨schema, w, hx, hw, hu⟩ := h name (by simp [Ty.leaves_named]) hb
        rw [Ty.expand, if_neg (by simp [hb]), hw, Option.getD_some, ← hu]
        refine ⟨?_, .reference hb hx⟩
        rintro (_ | hn | ⟨-, hn⟩ | ⟨-, hs, hr⟩)
        · rw [hb] at hn; cases hn
        · rw [hx] at hn; cases hn
        · rw [hx] at hs
          cases hs
          exact hr
  | function params result ihp ihr =>
    simp only [Ty.leaves_function, List.mem_append, List.mem_flatMap] at h
    have hp : ∀ us, ResolvesAll Γ params us ↔ us = params.map (Ty.expand f) := fun us =>
      resolvesAll_iff_map fun t ht u => ihp t ht fun n hn => h n (.inl ⟨t, ht, hn⟩)
    have hr : ∀ w, Resolves Γ result w ↔ w = result.expand f := fun w =>
      ihr fun n hn => h n (.inr hn)
    rw [Ty.expand, Ty.expandAll_eq_map]
    constructor
    · rintro (_ | _ | _ | _ | ⟨h₁, h₂⟩ | _)
      rw [(hp _).mp h₁, (hr _).mp h₂]
    · rintro rfl
      exact .function ((hp _).mpr rfl) ((hr _).mpr rfl)
  | record fields ih =>
    simp only [Ty.leaves_record, List.mem_flatMap] at h
    have hf : ∀ gs, ResolvesFields Γ fields gs ↔ gs = fields.map fun g => (g.1, g.2.expand f) :=
      fun gs => resolvesFields_iff_map fun g hg u => ih g hg fun n hn => h n ⟨g, hg, hn⟩
    rw [Ty.expand, Ty.expandFields_eq_map]
    constructor
    · rintro (_ | _ | _ | _ | _ | ⟨h₁⟩)
      rw [(hf _).mp h₁]
    · rintro rfl
      exact .record ((hf _).mpr rfl)

/-- A type that knows what is visible in `Θ` means the same wherever the records of `Θ` are visible,
and is resolved at a depth of as many records as `Θ` has. -/
theorem Context.WellFormed.resolves_within (n : Nat) {Θ : Context} {t : Ty} (h : Θ.WellFormed)
    (hΓ : Θ.RecordsIn Γ) (hΔ : Θ.RecordsIn Δ) (hn : Θ.recordCount ≤ n) (ht : Θ.Knows t) :
    (∀ u, Resolves Δ t u ↔ u = Γ.resolveWithin n t) ∧ (Γ.resolveWithin n t).Resolved := by
  induction n generalizing Θ t with
  | zero =>
    -- there is no record to refer to
    have hr : t.Resolved := by
      intro name hname
      refine (Context.knows_eq_true.mp (ht name ⟨_, hname⟩)).resolve_right fun ⟨s, hx⟩ => ?_
      obtain ⟨_, -, -, hlt, -⟩ := h.outer_of_findRecord hx
      omega
    refine ⟨fun u => ?_, hr⟩
    rw [resolveWithin, resolves_iff_expand (f := fun _ => none), hr.expand]
    intro name hname hb
    rw [hr name hname] at hb; cases hb
  | succ n ih =>
    -- a reference leads to a schema that knows fewer records
    have step : ∀ name, (name, false) ∈ t.leaves → Ty.isBuiltin name = false →
        ∃ schema, Γ.findRecord name = some schema ∧ Δ.findRecord name = some schema ∧
          (∀ u, Resolves Δ schema u ↔ u = Γ.resolveWithin n schema) ∧
          (Γ.resolveWithin n schema).Resolved := by
      intro name hname hb
      obtain ⟨schema, hx⟩ := (Context.knows_eq_true.mp (ht name ⟨_, hname⟩)).resolve_left
        (by simp [hb])
      obtain ⟨Θ', h', hs, hlt, hk⟩ := h.outer_of_findRecord hx
      have hin := h.recordsIn hs
      exact ⟨schema, hΓ name schema hx, hΔ name schema hx,
        ih h' (hin.trans hΓ) (hin.trans hΔ) (by omega) hk⟩
    rw [resolveWithin]
    refine ⟨fun u => resolves_iff_expand fun name hname hb => ?_,
      Ty.resolved_expand fun name hname hb => ?_⟩
    · obtain ⟨schema, hx, hx', hiff, -⟩ := step name hname hb
      exact ⟨schema, _, hx', by rw [hx, Option.map_some], hiff⟩
    · obtain ⟨schema, hx, -, -, hr⟩ := step name hname hb
      exact ⟨_, by rw [hx, Option.map_some], hr⟩

/-- Resolution of a known type comes to an end, with what the bounded resolution gives. -/
theorem Context.WellFormed.resolves_iff (h : Γ.WellFormed) {t u : Ty} (ht : Γ.Knows t) :
    Resolves Γ t u ↔ u = Γ.resolve t :=
  (h.resolves_within Γ.recordCount (.refl Γ) (.refl Γ) (Nat.le_refl _) ht).1 u

theorem Context.WellFormed.resolved_resolve (h : Γ.WellFormed) {t : Ty} (ht : Γ.Knows t) :
    (Γ.resolve t).Resolved :=
  (h.resolves_within Γ.recordCount (.refl Γ) (.refl Γ) (Nat.le_refl _) ht).2

theorem Ty.Resolved.resolve {t : Ty} (h : t.Resolved) (Γ : Context) : Γ.resolve t = t := by
  rw [Context.resolve]
  cases Γ.recordCount with
  | zero => rfl
  | succ n => exact h.expand _

end Resolution

/-! ### Types of expressions -/

theorem Context.knows_builtin {Γ : Context} {name : String} (h : Ty.isBuiltin name = true) :
    Γ.Knows (.ofName name) :=
  Context.knows_named.mpr (Context.knows_eq_true.mpr (.inl h))

theorem Context.HasFields.knows {Γ : Context} {t : Ty} {fields : List (String × Ty)}
    (hf : Γ.HasFields t fields) (hΓ : Γ.WellFormed) (ht : Γ.Knows t) :
    ∀ f ∈ fields, Γ.Knows f.2 := by
  rcases hf with rfl | ⟨name, -, hr⟩
  · exact Context.knows_record.mp ht
  · exact Context.knows_record.mp (hΓ.knows_schema hr)

mutual

/-- The type of an expression knows what is visible where the expression stands. -/
theorem HasType.knows {R : SlotRule} : ∀ {e : Expr} {Γ : Context} {t : Ty},
    HasType R Γ e t → Γ.WellFormed → Γ.Knows t
  | .mk .., _, _, .mk h _, hΓ => h.knows hΓ
termination_by structural e => e

theorem FormTyped.knows {R : SlotRule} : ∀ {form : Form} {Γ : Context} {t : Ty},
    FormTyped R Γ form t → Γ.WellFormed → Γ.Knows t
  | .literal l, _, _, .literal _, _ => by cases l <;> exact Context.knows_builtin (by decide)
  | .variable _, _, _, .name hx, hΓ => hΓ.knows_variable hx
  | .group _, _, _, .group h, hΓ => h.knows hΓ
  | .unary .., _, _, .unary h _, hΓ => h.knows hΓ
  | .binary .., _, _, .comparison .., _ => Context.knows_builtin (by decide)
  | .binary .., _, _, .arithmetic h .., hΓ => h.knows hΓ
  | .logical .., _, _, .logical .., _ => Context.knows_builtin (by decide)
  | .function .., _, _, .function hk hkr _ _, _ =>
    Context.knows_function.mpr ⟨List.forall_mem_map.mpr hk, hkr⟩
  | .call .., _, _, .call h _, hΓ => (Context.knows_function.mp (h.knows hΓ)).2
  | .get .., _, _, .get h hf hx, hΓ => by
    obtain ⟨before, after, rfl, -⟩ := List.lookup_eq_some_iff.mp hx
    exact hf.knows hΓ (h.knows hΓ) _ List.mem_append_cons_self
  | .record .., _, _, .record h _, hΓ => Context.knows_ofFields (h.knows hΓ)
termination_by structural form => form

theorem FieldsTyped.knows {R : SlotRule} : ∀ {fields : List (Ident × Expr)} {Γ : Context}
    {types : List (String × Ty)}, FieldsTyped R Γ fields types → Γ.WellFormed →
      ∀ f ∈ types, Γ.Knows f.2
  | [], _, _, .nil, _ => nofun
  | (_, _) :: _, _, _, .cons h hs, hΓ => List.forall_mem_cons.mpr ⟨h.knows hΓ, hs.knows hΓ⟩
termination_by structural fields => fields

end

/-! ### Checkers -/

/-- What a checker can come to: any checks one after another, whatever their outcomes, and the
scopes and parameters in which a check looks at the parts of a tree. -/
inductive Checker.Reachable : Checker → Prop
  | new : Reachable .new
  | program {c : Checker} (h : Reachable c) (p : Program) : Reachable (p.check c).state
  | stmt {c : Checker} (h : Reachable c) (s : Stmt) : Reachable (s.check c).state
  | expr {c : Checker} (h : Reachable c) (e : Expr) : Reachable (e.check c).state
  | enter {c : Checker} (h : Reachable c) : Reachable c.enter
  | params {c c' : Checker} {params : List TypedName} {types : List Ty} (h : Reachable c)
      (read : c.context.readParams params = .ok types)
      (declared : c.enter.declareParams params types = .ok c') : Reachable c'
  | exit {c : Checker} (h : Reachable c) : Reachable c.exit

theorem Program.check_context (p : Program) (c : Checker) :
    (p.check c).state.context = (checkAll p.body c).state.context := by
  rw [Program.check]
  split <;> rfl

theorem Checker.Reachable.wellFormed {c : Checker} (h : c.Reachable) : c.context.WellFormed := by
  induction h with
  | new => exact .empty
  | @program c _ p ih =>
    obtain ⟨ds, had, hc⟩ := (checkAll_declares p.body c).exists_extend
    rw [p.check_context, hc]
    exact ih.extend had
  | @stmt c _ s ih =>
    obtain ⟨ds, had, hc⟩ := (s.check_declares c).exists_extend
    rw [hc]
    exact ih.extend had
  | expr _ e ih =>
    rw [e.check_context]
    exact ih
  | enter _ ih => exact ih.enter
  | params _ hr hd ih =>
    obtain ⟨hk, rfl⟩ := Context.readParams_eq_ok.mp hr
    obtain ⟨hnd, hn, rfl⟩ := Checker.declareParams_eq_ok.mp hd
    exact ih.enter.extend (Context.admits_params hk hnd hn)
  | exit _ ih =>
    rw [Checker.exit_context]
    exact ih.exit

/-- In every context that a checker can come to, a declared type mentions built-in names and records
declared before it only, in its own scope or around it, and schemas do not refer to one another in a
circle. So resolution of a known type comes to an end, leaves no reference and changes nothing more,
and the type found for an expression is known. -/
theorem Checker.Reachable.closed_and_resolves {c : Checker} (h : c.Reachable) :
    (∀ inner d outer t, c.context.entries = inner ++ d :: outer → d.type? = some t →
      ∀ name, t.Mentions name →
        Ty.isBuiltin name = true ∨ ∃ schema, .record name schema ∈ outer) ∧
    (∀ a, ¬ Relation.TransGen c.context.Refers a a) ∧
    (∀ t, c.context.Knows t →
      (∀ u, Resolves c.context t u ↔ u = c.context.resolve t) ∧
      (c.context.resolve t).Resolved ∧
      c.context.resolve (c.context.resolve t) = c.context.resolve t) ∧
    ∀ (e : Expr) (t : Ty), (e.check c).result = .ok t → c.context.Knows t := by
  have hΓ := h.wellFormed
  refine ⟨fun inner d outer t he ht name hname => ?_, hΓ.acyclic, fun t ht => ?_, fun e t ht => ?_⟩
  · have ha := (hΓ.allows he).2.resolve_left (by rintro rfl; cases ht)
    exact Context.mem_of_knows (ha.knows ht name hname)
  · have hr := hΓ.resolved_resolve ht
    exact ⟨fun u => hΓ.resolves_iff ht, hr, hr.resolve c.context⟩
  · exact (e.check_sound c ht).1.knows hΓ

/-- Two records, one in the other, and a variable whose initial value does not fit:
`struct P { n: int } struct Q { p: P } let q: Q = 1`. -/
def Program.nestedRecords : Program :=
  let at_ : Span := default
  let name (x : String) : Ident := ⟨x, at_⟩
  let field (x type : String) : TypedName := ⟨name x, .named type false at_, at_⟩
  ⟨[.struct (name "P") [field "n" "int"] at_, .struct (name "Q") [field "p" "P"] at_,
    .let_ (name "q") (.named "Q" false at_) (some (.new (.literal (.int 1)) at_)) at_], at_⟩

theorem Program.nestedRecords_resolve :
    let c := (Program.nestedRecords.check .new).state
    c.Reachable ∧ c.context.findVariable "q" = some (.named "Q" false) ∧
      Resolves c.context (.named "Q" false) (.record [("p", .record [("n", .int)])]) := by
  have h : Checker.Reachable (Program.nestedRecords.check .new).state := .program .new _
  have hq : (Program.nestedRecords.check .new).state.context.Knows (.named "Q" false) := by
    intro name hname
    rw [Ty.mentions_named.mp hname]; rfl
  exact ⟨h, rfl, ((h.closed_and_resolves.2.2.1 _ hq).1 _).mpr rfl⟩

end RecordLang
