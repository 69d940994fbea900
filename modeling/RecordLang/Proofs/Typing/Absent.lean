import RecordLang.Proofs.Typing.Names
import RecordLang.Proofs.Typing.ReturnSite

/-!
# Names that do not occur

Two contexts that differ in some variables and records only give the same types to every tree in
which the names of these do not occur, neither as a use nor as a declaration
(`HasType.congr_absent`, `BlockTyped.congr_absent`).

A record can matter without being named, as the types of variables and fields speak of records. It
does not if both contexts are well formed and one of them does not have the record: what is known in
both does not speak of it then.
-/

namespace RecordLang

namespace Context

variable {Γ Δ : Context} {V T : String → Prop} {ds : List Entry} {t u : Ty} {x : String}

/-! ### Declarations of other names -/

theorem findSome?_extend {f : Entry → Option Ty} (h : ∀ d ∈ ds, f d = none) :
    (Γ.extend ds).entries.findSome? f = Γ.entries.findSome? f := by
  have hds : ds.reverse.findSome? f = none :=
    List.findSome?_eq_none_iff.mpr fun d hd => h d (List.mem_reverse.mp hd)
  rw [extend, List.findSome?_append, hds, Option.none_or]

theorem findRecord_extend (h : ∀ schema, .record x schema ∉ ds) :
    (Γ.extend ds).findRecord x = Γ.findRecord x := by
  refine findSome?_extend fun d hd => ?_
  rcases d with _ | _ | ⟨y, schema⟩
  · rfl
  · rfl
  · have hne : x ≠ y := fun he => h schema (he ▸ hd)
    simp [Entry.recordOf, hne]

theorem knows_of_extend (h : (Γ.extend ds).knows x = true) :
    Γ.knows x = true ∨ ∃ schema, .record x schema ∈ ds := by
  by_cases hx : ∃ schema, .record x schema ∈ ds
  · exact .inr hx
  · rw [knows, findRecord_extend (not_exists.mp hx)] at h
    exact .inl h

/-! ### Contexts that differ in some names -/

/-- The records `T` have no part in the meaning of other types: there are none of them, or one of
two well-formed contexts does not have them. -/
inductive Apart (T : String → Prop) (Γ Δ : Context) : Prop
  | none (empty : ∀ x, ¬ T x) (count : Γ.recordCount = Δ.recordCount)
  | lacking (left : Γ.WellFormed) (right : Δ.WellFormed)
      (declared : ∀ x, T x → Ty.isBuiltin x = false)
      (lacks : (∀ x, T x → Γ.findRecord x = none) ∨ ∀ x, T x → Δ.findRecord x = none)

/-- The same is visible but for the variables `V` and the records `T`. -/
structure SeeExcept (V T : String → Prop) (Γ Δ : Context) : Prop where
  visible : ∀ x, ¬ V x → Γ.findVariable x = Δ.findVariable x
  records : ∀ x, ¬ T x → Γ.findRecord x = Δ.findRecord x
  apart : Apart T Γ Δ

/-- The current scopes, too, have the same variables but for `V`. -/
structure AgreeExcept (V T : String → Prop) (Γ Δ : Context) : Prop extends SeeExcept V T Γ Δ where
  current : ∀ x, ¬ V x → Γ.current.findSome? (Entry.variableOf x) =
    Δ.current.findSome? (Entry.variableOf x)

theorem Apart.symm (h : Apart T Γ Δ) : Apart T Δ Γ := by
  cases h with
  | none empty count => exact .none empty count.symm
  | lacking left right declared lacks => exact .lacking right left declared lacks.symm

theorem Apart.enter (h : Apart T Γ Δ) : Apart T Γ.enter Δ.enter := by
  cases h with
  | none empty count => exact .none empty count
  | lacking left right declared lacks => exact .lacking left.enter right.enter declared lacks

theorem Apart.extend (h : Apart T Γ Δ) (hΓ : Γ.Admits ds) (hΔ : Δ.Admits ds)
    (hds : ∀ x schema, .record x schema ∈ ds → ¬ T x) : Apart T (Γ.extend ds) (Δ.extend ds) := by
  cases h with
  | none empty count =>
    refine .none empty ?_
    simp only [recordCount, Context.extend, List.countP_append] at count ⊢
    rw [count]
  | lacking left right declared lacks =>
    have hkeep : ∀ (Θ : Context) x, T x → (Θ.extend ds).findRecord x = Θ.findRecord x :=
      fun Θ x hx => findRecord_extend fun schema hm => hds x schema hm hx
    refine .lacking (left.extend hΓ) (right.extend hΔ) declared ?_
    exact lacks.imp (fun h x hx => (hkeep Γ x hx).trans (h x hx))
      fun h x hx => (hkeep Δ x hx).trans (h x hx)

namespace SeeExcept

theorem symm (h : SeeExcept V T Γ Δ) : SeeExcept V T Δ Γ :=
  ⟨fun x hx => (h.visible x hx).symm, fun x hx => (h.records x hx).symm, h.apart.symm⟩

theorem enter (h : SeeExcept V T Γ Δ) : AgreeExcept V T Γ.enter Δ.enter :=
  ⟨⟨h.visible, h.records, h.apart.enter⟩, fun _ _ => rfl⟩

/-- A name that is known in both contexts is none of the records in which they differ. -/
theorem not_of_knows (h : SeeExcept V T Γ Δ) (hΓ : Γ.WellFormed → Γ.knows x = true)
    (hΔ : Δ.WellFormed → Δ.knows x = true) : ¬ T x := by
  cases h.apart with
  | none empty _ => exact empty x
  | lacking left right declared lacks =>
    intro hx
    have key : ∀ Θ : Context, Θ.knows x = true → Θ.findRecord x ≠ Option.none := by
      intro Θ hk hnone
      rw [knows, declared x hx, hnone] at hk
      cases hk
    rcases lacks with hl | hl
    · exact key Γ (hΓ left) (hl x hx)
    · exact key Δ (hΔ right) (hl x hx)

theorem knows (h : SeeExcept V T Γ Δ) (ht : Γ.Knows t) (hT : ∀ x ∈ t.names, ¬ T x) : Δ.Knows t := by
  intro x hx
  have hk := ht x hx
  rwa [Context.knows, h.records x (hT x (Ty.mem_names.mpr hx))] at hk

/-- The records of the smaller context have the same schemas in the larger one. -/
theorem recordsIn (h : SeeExcept V T Γ Δ) (hlacks : ∀ x, T x → Γ.findRecord x = none) :
    Γ.RecordsIn Δ := by
  intro x schema hx
  rw [← h.records x fun hT => ?_]
  · exact hx
  · rw [hlacks x hT] at hx
    cases hx

theorem resolve_of_lacks (h : SeeExcept V T Γ Δ) (hΓ : Γ.WellFormed) (hΔ : Δ.WellFormed)
    (hlacks : ∀ x, T x → Γ.findRecord x = none) (ht : ∀ x ∈ t.names, ¬ T x) :
    Γ.resolve t = Δ.resolve t := by
  have hin := h.recordsIn hlacks
  simp only [Ty.mem_names] at ht
  induction t using Ty.induction with
  | named name optional =>
    cases optional with
    | true => rw [resolve_optional, resolve_optional]
    | false =>
      cases hb : Ty.isBuiltin name with
      | true => rw [resolve_builtin Γ hb, resolve_builtin Δ hb]
      | false =>
        have hname := h.records name (ht name (Ty.mentions_named.mpr rfl))
        cases hx : Γ.findRecord name with
        | none => rw [resolve_unknown hx, resolve_unknown (hname.symm.trans hx)]
        | some schema =>
          rw [hΓ.resolve_reference hb hx, hΔ.resolve_reference hb (hin name schema hx)]
          exact (hΔ.resolve_of_sees hΓ hin (hΓ.knows_schema hx).sees).symm
  | function params result ihp ihr =>
    have hp : params.map Γ.resolve = params.map Δ.resolve :=
      List.map_congr_left fun t hm => ihp t hm fun x hx =>
        ht x (Ty.mentions_function.mpr (.inl ⟨t, hm, hx⟩))
    have hr := ihr fun x hx => ht x (Ty.mentions_function.mpr (.inr hx))
    rw [resolve_function, resolve_function, hp, hr]
  | record fields ih =>
    rw [resolve_record, resolve_record]
    refine congrArg Ty.record (List.map_congr_left fun f hm => ?_)
    rw [ih f hm fun x hx => ht x (Ty.mentions_record.mpr ⟨f, hm, hx⟩)]

/-- A type that does not speak of the records in which the contexts differ means the same. -/
theorem resolve (h : SeeExcept V T Γ Δ) (ht : ∀ x ∈ t.names, ¬ T x) :
    Γ.resolve t = Δ.resolve t := by
  cases h.apart with
  | none empty count =>
    have hrecords : Γ.findRecord = Δ.findRecord := funext fun x => h.records x (empty x)
    have key : ∀ n t, Γ.resolveWithin n t = Δ.resolveWithin n t := by
      intro n
      induction n with
      | zero => exact fun t => rfl
      | succ n ih =>
        intro t
        rw [resolveWithin, resolveWithin, hrecords, funext ih]
    rw [Context.resolve, Context.resolve, count, key]
  | lacking left right _ lacks =>
    rcases lacks with hl | hl
    · exact h.resolve_of_lacks left right hl ht
    · exact (h.symm.resolve_of_lacks right left hl ht).symm

theorem accepts (h : SeeExcept V T Γ Δ) (ht : ∀ x ∈ t.names, ¬ T x) (hu : ∀ x ∈ u.names, ¬ T x) :
    Γ.accepts t u = Δ.accepts t u := by
  rw [Context.accepts, Context.accepts, h.resolve ht, h.resolve hu]

theorem hasFields {fields : List (String × Ty)} (h : SeeExcept V T Γ Δ)
    (ht : ∀ x ∈ t.names, ¬ T x) (hf : Γ.HasFields t fields) : Δ.HasFields t fields := by
  rcases hf with rfl | ⟨name, rfl, hx⟩
  · exact .inl rfl
  · have hname := h.records name (ht name (Ty.mem_names.mpr (Ty.mentions_named.mpr rfl)))
    exact .inr ⟨name, rfl, hname.symm.trans hx⟩

end SeeExcept

namespace AgreeExcept

theorem symm (h : AgreeExcept V T Γ Δ) : AgreeExcept V T Δ Γ :=
  ⟨h.toSeeExcept.symm, fun x hx => (h.current x hx).symm⟩

theorem extend (h : AgreeExcept V T Γ Δ) (hΓ : Γ.Admits ds) (hΔ : Δ.Admits ds)
    (hds : ∀ x schema, .record x schema ∈ ds → ¬ T x) :
    AgreeExcept V T (Γ.extend ds) (Δ.extend ds) := by
  refine ⟨⟨fun x hx => ?_, fun x hx => ?_, h.apart.extend hΓ hΔ hds⟩, fun x hx => ?_⟩
  · have hv := h.visible x hx
    simp only [findVariable, Context.extend, List.findSome?_append] at hv ⊢
    rw [hv]
  · have hr := h.records x hx
    simp only [findRecord, Context.extend, List.findSome?_append] at hr ⊢
    rw [hr]
  · rw [hΓ.current, hΔ.current, List.findSome?_append, List.findSome?_append, h.current x hx]

theorem allows_variable (h : AgreeExcept V T Γ Δ) (hx : ¬ V x) (ht : ∀ x ∈ t.names, ¬ T x)
    (ha : Γ.Allows (.variable x t)) : Δ.Allows (.variable x t) :=
  ⟨h.knows ha.1 ht, (h.current x hx).symm.trans ha.2⟩

end AgreeExcept

end Context

/-! ### Types in play -/

section Typing

variable {R : SlotRule}

mutual

/-- The types of returned values speak of what is known around the statement or named in it. -/
theorem StmtTyped.knows_returned : ∀ {s : Stmt} {Γ : Context} {ts : List Ty}, StmtTyped R Γ s ts →
    Γ.WellFormed → ∀ t ∈ ts, ∀ x ∈ t.names, Γ.knows x = true ∨ x ∈ s.typeNames
  | .expr .., _, _, .expr _, _ => nofun
  | .let_ .., _, _, .declared _, _ => nofun
  | .let_ .., _, _, .initialized .., _ => nofun
  | .block .., _, _, .block h, hΓ => h.knows_returned hΓ.enter
  | .if_ _ _ none _, _, _, .if_ _ h, hΓ => fun t ht x hx =>
    (h.knows_returned hΓ t ht x hx).imp_right (List.mem_append_right _)
  | .if_ _ _ (some _) _, _, _, .ifElse _ h h', hΓ => by
    intro t ht x hx
    rw [Stmt.typeNames, List.mem_append, List.mem_append]
    rcases List.mem_append.mp ht with ht | ht
    · exact (h.knows_returned hΓ t ht x hx).imp_right fun hm => .inr (.inl hm)
    · rcases h'.knows_returned (hΓ.extend h.admits) t ht x hx with hk | hm
      · exact (Context.knows_of_extend hk).imp_right fun ⟨_, hm⟩ =>
          .inr (.inl (Stmt.record_mem_declarations hm))
      · exact .inr (.inr (.inr hm))
  | .while_ .., _, _, .while_ _ h, hΓ => fun t ht x hx =>
    (h.knows_returned hΓ t ht x hx).imp_right (List.mem_append_right _)
  | .struct .., _, _, .struct .., _ => nofun
  | .return_ .., _, _, .return_ h, hΓ => by
    intro t ht x hx
    rw [List.mem_singleton.mp ht] at hx
    exact .inl (h.knows hΓ x (Ty.mem_names.mp hx))
termination_by structural s => s

theorem BlockTyped.knows_returned : ∀ {ss : List Stmt} {Γ : Context} {ts : List Ty},
    BlockTyped R Γ ss ts → Γ.WellFormed →
      ∀ t ∈ ts, ∀ x ∈ t.names, Γ.knows x = true ∨ x ∈ bodyTypeNames ss
  | [], _, _, .nil, _ => nofun
  | _ :: _, _, _, .cons h hs, hΓ => by
    intro t ht x hx
    rw [bodyTypeNames, List.mem_append]
    rcases List.mem_append.mp ht with ht | ht
    · exact (h.knows_returned hΓ t ht x hx).imp_right .inl
    · rcases hs.knows_returned (hΓ.extend h.admits) t ht x hx with hk | hm
      · exact (Context.knows_of_extend hk).imp_right fun ⟨_, hm⟩ =>
          .inl (Stmt.record_mem_declarations hm)
      · exact .inr (.inr hm)
termination_by structural ss => ss

end

/-! ### Trees -/

variable {V T : String → Prop}

theorem HasType.absent {Γ Δ : Context} {e : Expr} {t : Ty} (h : HasType R Γ e t)
    (h' : HasType R Δ e t) (hΔ : Γ.SeeExcept V T Δ) : ∀ x ∈ t.names, ¬ T x := by
  intro x hx
  have hm := Ty.mem_names.mp hx
  exact hΔ.not_of_knows (fun hw => h.knows hw x hm) fun hw => h'.knows hw x hm

theorem BlockTyped.absent {Γ Δ : Context} {ss : List Stmt} {ts : List Ty} (h : BlockTyped R Γ ss ts)
    (h' : BlockTyped R Δ ss ts) (hΔ : Γ.SeeExcept V T Δ) (hT : ∀ x ∈ bodyTypeNames ss, ¬ T x) :
    ∀ t ∈ ts, ∀ x ∈ t.names, ¬ T x := by
  intro t ht x hx
  by_cases hm : x ∈ bodyTypeNames ss
  · exact hT x hm
  · exact hΔ.not_of_knows (fun hw => (h.knows_returned hw t ht x hx).resolve_right hm)
      fun hw => (h'.knows_returned hw t ht x hx).resolve_right hm

mutual

theorem HasType.congr_absent : ∀ {e : Expr} {Γ Δ : Context} {t : Ty}, HasType R Γ e t →
    Γ.SeeExcept V T Δ → (∀ x ∈ e.names, ¬ V x) → (∀ x ∈ e.typeNames, ¬ T x) → HasType R Δ e t
  | .mk .., _, _, _, .mk h hs, hΔ, hV, hT => .mk (h.congr_absent hΔ hV hT) hs
termination_by structural e => e

theorem FormTyped.congr_absent : ∀ {form : Form} {Γ Δ : Context} {t : Ty}, FormTyped R Γ form t →
    Γ.SeeExcept V T Δ → (∀ x ∈ form.names, ¬ V x) → (∀ x ∈ form.typeNames, ¬ T x) →
      FormTyped R Δ form t
  | .literal _, _, _, _, .literal l, _, _, _ => .literal l
  | .variable x, _, _, _, .name hx, hΔ, hV, _ =>
    .name ((hΔ.visible x (hV x (List.mem_singleton.mpr rfl))).symm.trans hx)
  | .group _, _, _, _, .group h, hΔ, hV, hT => .group (h.congr_absent hΔ hV hT)
  | .unary .., _, _, _, .unary h hop, hΔ, hV, hT => .unary (h.congr_absent hΔ hV hT) hop
  | .binary .., _, _, _, .comparison hl hr hfit hop hc, hΔ, hV, hT => by
    rw [Form.names, List.forall_mem_append] at hV
    rw [Form.typeNames, List.forall_mem_append] at hT
    have hl' := hl.congr_absent hΔ hV.1 hT.1
    have hr' := hr.congr_absent hΔ hV.2 hT.2
    rw [hΔ.accepts (hl.absent hl' hΔ) (hr.absent hr' hΔ)] at hfit
    exact .comparison hl' hr' hfit hop hc
  | .binary .., _, _, _, .arithmetic hl hr hfit hop hc, hΔ, hV, hT => by
    rw [Form.names, List.forall_mem_append] at hV
    rw [Form.typeNames, List.forall_mem_append] at hT
    have hl' := hl.congr_absent hΔ hV.1 hT.1
    have hr' := hr.congr_absent hΔ hV.2 hT.2
    rw [hΔ.accepts (hl.absent hl' hΔ) (hr.absent hr' hΔ)] at hfit
    exact .arithmetic hl' hr' hfit hop hc
  | .logical .., _, _, _, .logical hl hr, hΔ, hV, hT => by
    rw [Form.names, List.forall_mem_append] at hV
    rw [Form.typeNames, List.forall_mem_append] at hT
    exact .logical (hl.congr_absent hΔ hV.1 hT.1) (hr.congr_absent hΔ hV.2 hT.2)
  | .function params .., _, _, _, .function hk hkr hd h, hΔ, hV, hT => by
    rw [Form.names, List.forall_mem_append] at hV
    rw [Form.typeNames, List.forall_mem_append, List.forall_mem_append] at hT
    obtain ⟨hTp, hTr, hTb⟩ := hT
    have hk' : ∀ p ∈ params, _ := fun p hp =>
      hΔ.knows (hk p hp) fun x hx => hTp x (List.mem_flatMap.mpr ⟨p, hp, hx⟩)
    have hparams := hΔ.enter.extend (Context.admits_params hk hd fun _ _ => rfl)
      (Context.admits_params hk' hd fun _ _ => rfl) fun x schema hm => by
        obtain ⟨p, -, hp⟩ := List.mem_map.mp hm
        cases hp
    exact .function hk' (hΔ.knows hkr hTr) hd (h.congr_absent hparams.toSeeExcept hTr hV.2 hTb)
  | .call .., _, _, _, .call h hargs, hΔ, hV, hT => by
    rw [Form.names, List.forall_mem_append] at hV
    rw [Form.typeNames, List.forall_mem_append] at hT
    have h' := h.congr_absent hΔ hV.1 hT.1
    refine .call h' (hargs.congr_absent hΔ (fun t ht x hx => ?_) hV.2 hT.2)
    refine h.absent h' hΔ x (Ty.mem_names.mpr (Ty.mentions_function.mpr (.inl ⟨t, ht, ?_⟩)))
    exact Ty.mem_names.mp hx
  | .get .., _, _, _, .get h hf hx, hΔ, hV, hT => by
    have h' := h.congr_absent hΔ hV hT
    exact .get h' (hΔ.hasFields (h.absent h' hΔ) hf) hx
  | .record .., _, _, _, .record h hd, hΔ, hV, hT => .record (h.congr_absent hΔ hV hT) hd
termination_by structural form => form

theorem ArgsTyped.congr_absent : ∀ {args : List Expr} {Γ Δ : Context} {ts : List Ty},
    ArgsTyped R Γ ts args → Γ.SeeExcept V T Δ → (∀ t ∈ ts, ∀ x ∈ t.names, ¬ T x) →
      (∀ x ∈ argNames args, ¬ V x) → (∀ x ∈ argTypeNames args, ¬ T x) → ArgsTyped R Δ ts args
  | [], _, _, _, .nil, _, _, _, _ => .nil
  | _ :: _, _, _, _, .cons h hfit hs, hΔ, hts, hV, hT => by
    rw [argNames, List.forall_mem_append] at hV
    rw [argTypeNames, List.forall_mem_append] at hT
    obtain ⟨ht, hts⟩ := List.forall_mem_cons.mp hts
    have h' := h.congr_absent hΔ hV.1 hT.1
    rw [hΔ.accepts ht (h.absent h' hΔ)] at hfit
    exact .cons h' hfit (hs.congr_absent hΔ hts hV.2 hT.2)
termination_by structural args => args

theorem FieldsTyped.congr_absent : ∀ {fields : List (Ident × Expr)} {Γ Δ : Context}
    {ts : List (String × Ty)}, FieldsTyped R Γ fields ts → Γ.SeeExcept V T Δ →
      (∀ x ∈ fieldNames fields, ¬ V x) → (∀ x ∈ fieldTypeNames fields, ¬ T x) →
        FieldsTyped R Δ fields ts
  | [], _, _, _, .nil, _, _, _ => .nil
  | (_, _) :: _, _, _, _, .cons h hs, hΔ, hV, hT => by
    rw [fieldNames, List.forall_mem_append] at hV
    rw [fieldTypeNames, List.forall_mem_append] at hT
    exact .cons (h.congr_absent hΔ hV.1 hT.1) (hs.congr_absent hΔ hV.2 hT.2)
termination_by structural fields => fields

theorem BodyTyped.congr_absent : ∀ {s : Stmt} {Γ Δ : Context} {result : Ty},
    BodyTyped R Γ result s → Γ.SeeExcept V T Δ → (∀ x ∈ result.names, ¬ T x) →
      (∀ x ∈ s.names, ¬ V x) → (∀ x ∈ s.typeNames, ¬ T x) → BodyTyped R Δ result s
  | .expr .., _, _, _, .expr h hfit, hΔ, hres, hV, hT => by
    have h' := h.congr_absent hΔ hV hT
    rw [hΔ.accepts hres (h.absent h' hΔ)] at hfit
    exact .expr h' hfit
  | .return_ .., _, _, _, .return_ h hfit, hΔ, hres, hV, hT => by
    have h' := h.congr_absent hΔ hV hT
    rw [hΔ.accepts hres (h.absent h' hΔ)] at hfit
    exact .return_ h' hfit
  | .block .., _, _, _, .block h hends hfit, hΔ, hres, hV, hT => by
    have h' := h.congr_absent hΔ.enter hV hT
    refine .block h' hends fun t ht => ?_
    -- a value may be of a record of the block, which is none of those in which the contexts differ
    rw [← hΔ.accepts hres (h.absent h' hΔ.enter.toSeeExcept hT t ht)]
    exact hfit t ht
termination_by structural s => s

theorem StmtTyped.congr_absent : ∀ {s : Stmt} {Γ Δ : Context} {ts : List Ty},
    StmtTyped R Γ s ts → Γ.AgreeExcept V T Δ → (∀ x ∈ s.names, ¬ V x) →
      (∀ x ∈ s.typeNames, ¬ T x) → StmtTyped R Δ s ts
  | .expr .., _, _, _, .expr h, hΔ, hV, hT => .expr (h.congr_absent hΔ.toSeeExcept hV hT)
  | .let_ x _ none _, _, _, _, .declared ha, hΔ, hV, hT =>
    .declared (hΔ.allows_variable (hV x.name (List.mem_singleton.mpr rfl)) hT ha)
  | .let_ x type (some _) _, Γ, Δ, _, .initialized ha h hfit, hΔ, hV, hT => by
    rw [Stmt.names, List.forall_mem_cons] at hV
    rw [Stmt.typeNames, List.forall_mem_append] at hT
    have ha' := hΔ.allows_variable hV.1 hT.1 ha
    have had : Γ.Admits [.variable x.name type.ty] := ⟨ha, trivial⟩
    have had' : Δ.Admits [.variable x.name type.ty] := ⟨ha', trivial⟩
    have hΔ' := hΔ.extend had had' fun _ _ hm => by cases List.mem_singleton.mp hm
    have h' := h.congr_absent hΔ'.toSeeExcept hV.2 hT.2
    rw [hΔ'.accepts hT.1 (h.absent h' hΔ'.toSeeExcept)] at hfit
    exact .initialized ha' h' hfit
  | .block .., _, _, _, .block h, hΔ, hV, hT => .block (h.congr_absent hΔ.enter hV hT)
  | .if_ _ _ none _, _, _, _, .if_ he h, hΔ, hV, hT => by
    rw [Stmt.names, List.forall_mem_append] at hV
    rw [Stmt.typeNames, List.forall_mem_append] at hT
    exact .if_ (he.congr_absent hΔ.toSeeExcept hV.1 hT.1) (h.congr_absent hΔ hV.2 hT.2)
  | .if_ _ s (some _) _, _, _, _, .ifElse he h h₂, hΔ, hV, hT => by
    rw [Stmt.names, List.forall_mem_append, List.forall_mem_append] at hV
    rw [Stmt.typeNames, List.forall_mem_append, List.forall_mem_append] at hT
    have h' := h.congr_absent hΔ hV.2.1 hT.2.1
    have hΔ' := hΔ.extend h.admits h'.admits fun x _ hm =>
      hT.2.1 x (Stmt.record_mem_declarations hm)
    exact .ifElse (he.congr_absent hΔ.toSeeExcept hV.1 hT.1) h' (h₂.congr_absent hΔ' hV.2.2 hT.2.2)
  | .while_ .., _, _, _, .while_ he h, hΔ, hV, hT => by
    rw [Stmt.names, List.forall_mem_append] at hV
    rw [Stmt.typeNames, List.forall_mem_append] at hT
    exact .while_ (he.congr_absent hΔ.toSeeExcept hV.1 hT.1) (h.congr_absent hΔ hV.2 hT.2)
  | .struct x _ _, _, _, _, .struct hx hd hk, hΔ, _, hT => by
    rw [Stmt.typeNames, List.forall_mem_cons] at hT
    refine .struct ((hΔ.records x.name hT.1).symm.trans hx) hd fun f hf => ?_
    exact hΔ.knows (hk f hf) fun y hy => hT.2 y (List.mem_flatMap.mpr ⟨f, hf, hy⟩)
  | .return_ .., _, _, _, .return_ h, hΔ, hV, hT =>
    .return_ (h.congr_absent hΔ.toSeeExcept hV hT)
termination_by structural s => s

theorem BlockTyped.congr_absent : ∀ {ss : List Stmt} {Γ Δ : Context} {ts : List Ty},
    BlockTyped R Γ ss ts → Γ.AgreeExcept V T Δ → (∀ x ∈ bodyNames ss, ¬ V x) →
      (∀ x ∈ bodyTypeNames ss, ¬ T x) → BlockTyped R Δ ss ts
  | [], _, _, _, .nil, _, _, _ => .nil
  | s :: _, _, _, _, .cons h hs, hΔ, hV, hT => by
    rw [bodyNames, List.forall_mem_append] at hV
    rw [bodyTypeNames, List.forall_mem_append] at hT
    have h' := h.congr_absent hΔ hV.1 hT.1
    have hΔ' := hΔ.extend h.admits h'.admits fun x _ hm => hT.1 x (Stmt.record_mem_declarations hm)
    exact .cons h' (hs.congr_absent hΔ' hV.2 hT.2)
termination_by structural ss => ss

end

end Typing

end RecordLang
