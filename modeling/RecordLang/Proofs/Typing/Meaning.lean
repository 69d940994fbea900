import RecordLang.Proofs.Ty.Order
import RecordLang.Proofs.Typing.WellFormed

/-!
# Meaning in a growing context

What a type resolves to, by its shape, and what becomes of that when more is declared. Resolving
with some of the visible records first and then with all of them is resolving with all of them
(`Context.WellFormed.resolve_smaller`). So a type whose references are visible outside means the
same inside, and what is accepted outside is accepted inside; but not the other way round, as a name
that is declared inside means nothing outside.

The fields of a record have an order in every type that is declared or found (`HasType.ordered`), so
that every type is accepted where it is expected itself.
-/

namespace RecordLang

namespace Context

variable {Γ Δ : Context} {t u schema : Ty} {name : String}

/-! ### Resolution by the shape of a type -/

theorem resolve_optional (Γ : Context) (name : String) :
    Γ.resolve (.named name true) = .named name true :=
  Ty.Resolved.resolve (Ty.resolved_named.mpr fun h => absurd h (by decide)) Γ

theorem resolve_builtin (Γ : Context) (hb : Ty.isBuiltin name = true) (optional : Bool) :
    Γ.resolve (.named name optional) = .named name optional :=
  Ty.Resolved.resolve (Ty.resolved_named.mpr fun _ => hb) Γ

theorem resolve_unknown (hx : Γ.findRecord name = none) :
    Γ.resolve (.named name false) = .named name false := by
  rw [resolve]
  cases Γ.recordCount with
  | zero => rfl
  | succ n => simp [resolveWithin, Ty.expand, hx]

theorem resolve_function (Γ : Context) (params : List Ty) (result : Ty) :
    Γ.resolve (.function params result) =
      .function (params.map Γ.resolve) (Γ.resolve result) := by
  have hf : Γ.resolve = Γ.resolveWithin Γ.recordCount := rfl
  rw [hf]
  cases Γ.recordCount with
  | zero => exact congrArg (Ty.function · result) (List.map_id params).symm
  | succ n => rw [resolveWithin, Ty.expand, Ty.expandAll_eq_map]; rfl

theorem resolve_record (Γ : Context) (fields : List (String × Ty)) :
    Γ.resolve (.record fields) = .record (fields.map fun f => (f.1, Γ.resolve f.2)) := by
  have hf : Γ.resolve = Γ.resolveWithin Γ.recordCount := rfl
  rw [hf]
  cases Γ.recordCount with
  | zero => exact congrArg Ty.record (List.map_id fields).symm
  | succ n => rw [resolveWithin, Ty.expand, Ty.expandFields_eq_map]; rfl

theorem WellFormed.resolve_reference (h : Γ.WellFormed) (hb : Ty.isBuiltin name = false)
    (hx : Γ.findRecord name = some schema) : Γ.resolve (.named name false) = Γ.resolve schema := by
  have hname : Γ.Knows (.named name false) :=
    knows_named.mpr (knows_eq_true.mpr (.inr ⟨schema, hx⟩))
  have hs : Resolves Γ schema (Γ.resolve schema) := (h.resolves_iff (h.knows_schema hx)).mpr rfl
  exact ((h.resolves_iff hname).mp (.reference hb hx hs)).symm

/-! ### Outer and inner contexts -/

/-- All references of the type are to visible records. -/
def Sees (Γ : Context) (t : Ty) : Prop := ∀ name, (name, false) ∈ t.leaves → Γ.knows name = true

theorem Knows.sees (h : Γ.Knows t) : Γ.Sees t := fun name hn => h name ⟨false, hn⟩

theorem sees_function {params : List Ty} {result : Ty} :
    Γ.Sees (.function params result) ↔ (∀ t ∈ params, Γ.Sees t) ∧ Γ.Sees result := by
  simp only [Sees, Ty.leaves_function, List.mem_append, List.mem_flatMap]
  constructor
  · exact fun h => ⟨fun t ht n hn => h n (.inl ⟨t, ht, hn⟩), fun n hn => h n (.inr hn)⟩
  · rintro ⟨hp, hr⟩ n (⟨t, ht, hn⟩ | hn)
    exacts [hp t ht n hn, hr n hn]

theorem sees_record {fields : List (String × Ty)} :
    Γ.Sees (.record fields) ↔ ∀ f ∈ fields, Γ.Sees f.2 := by
  simp only [Sees, Ty.leaves_record, List.mem_flatMap]
  constructor
  · exact fun h f hf n hn => h n ⟨f, hf, hn⟩
  · rintro h n ⟨f, hf, hn⟩
    exact h f hf n hn

theorem WellFormed.resolved_of_sees (h : Γ.WellFormed) (ht : Γ.Sees t) :
    (Γ.resolve t).Resolved := by
  induction t using Ty.induction with
  | named name optional =>
    cases optional with
    | true => rw [resolve_optional]; exact Ty.resolved_named.mpr fun h => absurd h (by decide)
    | false =>
      have hname : Γ.knows name = true := ht name (by simp [Ty.leaves_named])
      exact h.resolved_resolve (knows_named.mpr hname)
  | function params result ihp ihr =>
    obtain ⟨hp, hr⟩ := sees_function.mp ht
    rw [resolve_function, Ty.resolved_function]
    exact ⟨List.forall_mem_map.mpr fun t ht => ihp t ht (hp t ht), ihr hr⟩
  | record fields ih =>
    rw [resolve_record, Ty.resolved_record]
    exact List.forall_mem_map.mpr fun f hf => ih f hf (sees_record.mp ht f hf)

/-- Schemas that were put for names in the smaller context would have been put in the larger one. -/
theorem WellFormed.resolve_smallerWithin (h : Δ.WellFormed) (hs : Γ.RecordsIn Δ) (n : Nat)
    (t : Ty) : Δ.resolve (Γ.resolveWithin n t) = Δ.resolve t := by
  induction n generalizing t with
  | zero => rfl
  | succ n ih =>
    rw [resolveWithin]
    induction t using Ty.induction with
    | named name optional =>
      cases optional with
      | true => rfl
      | false =>
        cases hb : Ty.isBuiltin name with
        | true => simp [Ty.expand, hb]
        | false =>
          cases hx : Γ.findRecord name with
          | none => simp [Ty.expand, hb, hx]
          | some schema =>
            -- the schema is also what the larger context has for the name
            have he : (Ty.named name false).expand
                (fun name => (Γ.findRecord name).map (Γ.resolveWithin n)) =
                Γ.resolveWithin n schema := by simp [Ty.expand, hb, hx]
            rw [he, ih schema]
            exact (h.resolve_reference hb (hs name schema hx)).symm
    | function params result ihp ihr =>
      rw [Ty.expand, Ty.expandAll_eq_map, resolve_function, resolve_function, ihr, List.map_map]
      exact congrArg (Ty.function · _) (List.map_inj_left.mpr ihp)
    | record fields ihf =>
      rw [Ty.expand, Ty.expandFields_eq_map, resolve_record, resolve_record, List.map_map]
      refine congrArg Ty.record (List.map_inj_left.mpr fun f hf => ?_)
      exact congrArg (Prod.mk f.1) (ihf f hf)

theorem WellFormed.resolve_smaller (h : Δ.WellFormed) (hs : Γ.RecordsIn Δ) (t : Ty) :
    Δ.resolve (Γ.resolve t) = Δ.resolve t :=
  h.resolve_smallerWithin hs Γ.recordCount t

/-- A type whose references are visible in the smaller context has the same meaning in both. -/
theorem WellFormed.resolve_of_sees (h : Δ.WellFormed) (hΓ : Γ.WellFormed) (hs : Γ.RecordsIn Δ)
    (ht : Γ.Sees t) : Δ.resolve t = Γ.resolve t := by
  rw [← h.resolve_smaller hs t]
  exact (hΓ.resolved_of_sees ht).resolve Δ

theorem WellFormed.accepts_of_sees (h : Δ.WellFormed) (hΓ : Γ.WellFormed)
    (hs : Γ.entries <:+ Δ.entries) (ht : Γ.Sees t) (hu : Γ.Sees u) :
    Δ.accepts t u = Γ.accepts t u := by
  have hin := h.recordsIn hs
  rw [accepts, accepts, h.resolve_of_sees hΓ hin ht, h.resolve_of_sees hΓ hin hu]

/-- What is accepted outside is accepted inside, whatever the accepted type refers to. -/
theorem WellFormed.accepts_inner (h : Δ.WellFormed) (hΓ : Γ.WellFormed)
    (hs : Γ.entries <:+ Δ.entries) (ht : Γ.Sees t) (ha : Γ.accepts t u = true) :
    Δ.accepts t u = true := by
  have hr := hΓ.resolved_of_sees ht
  have hin := h.recordsIn hs
  rw [accepts, h.resolve_of_sees hΓ hin ht, ← h.resolve_smaller hin u]
  rw [accepts] at ha
  have hd : Δ.resolve (Γ.resolve u) = Δ.resolveWithin Δ.recordCount (Γ.resolve u) := rfl
  rw [hd]
  cases Δ.recordCount with
  | zero => exact ha
  | succ n => exact hr.accepts_expand _ ha

/-! ### Ordered declarations -/

/-- The types of all declarations are ordered. -/
def Ordered (Γ : Context) : Prop := ∀ d ∈ Γ.entries, ∀ t, d.type? = some t → t.Ordered

theorem Ordered.findVariable (h : Γ.Ordered) (hx : Γ.findVariable name = some t) : t.Ordered := by
  obtain ⟨d, hd, hdx⟩ := List.exists_of_findSome?_eq_some hx
  exact h d hd t (Entry.type?_of_variableOf hdx)

theorem Ordered.findRecord (h : Γ.Ordered) (hx : Γ.findRecord name = some schema) :
    schema.Ordered := by
  obtain ⟨d, hd, hdx⟩ := List.exists_of_findSome?_eq_some hx
  exact h d hd schema (Entry.type?_of_recordOf hdx)

theorem Ordered.resolveWithin (h : Γ.Ordered) (n : Nat) (ht : t.Ordered) :
    (Γ.resolveWithin n t).Ordered := by
  induction n generalizing t with
  | zero => exact ht
  | succ n ih =>
    rw [Context.resolveWithin]
    induction ht with
    | named name optional =>
      cases optional with
      | true => exact .named name true
      | false =>
        rw [Ty.expand]
        split_ifs with hb
        · exact .named name false
        · cases hx : Γ.findRecord name with
          | none => exact .named name false
          | some schema => exact ih (h.findRecord hx)
    | function _ _ ihp ihr =>
      rw [Ty.expand, Ty.expandAll_eq_map]
      exact .function (List.forall_mem_map.mpr ihp) ihr
    | record hs _ ihf =>
      rw [Ty.expand, Ty.expandFields_eq_map]
      exact .record (List.pairwise_map.mpr hs) (List.forall_mem_map.mpr ihf)

theorem Ordered.resolve (h : Γ.Ordered) (ht : t.Ordered) : (Γ.resolve t).Ordered :=
  h.resolveWithin Γ.recordCount ht

/-- Where declarations are ordered, an ordered type is accepted in its own place. -/
theorem Ordered.accepts_self (h : Γ.Ordered) (ht : t.Ordered) : Γ.accepts t t = true :=
  (h.resolve ht).accepts_self

theorem Ordered.extend {ds : List Entry} (h : Γ.Ordered)
    (hds : ∀ d ∈ ds, ∀ t, d.type? = some t → t.Ordered) : (Γ.extend ds).Ordered := by
  intro d hm
  rcases List.mem_append.mp hm with hm | hm
  · exact hds d (List.mem_reverse.mp hm)
  · exact h d hm

theorem Ordered.enter (h : Γ.Ordered) : Γ.enter.Ordered := by
  intro d hm t ht
  rcases List.mem_cons.mp hm with rfl | hm
  · cases ht
  · exact h d hm t ht

theorem Ordered.of_suffix (h : Γ.Ordered) (hs : Δ.entries <:+ Γ.entries) : Δ.Ordered :=
  fun d hm => h d (hs.subset hm)

end Context

/-! ### What a checker can come to -/

theorem TypedName.ordered_schema (fields : List TypedName) : (TypedName.schema fields).Ordered :=
  Ty.ordered_ofFields (List.forall_mem_map.mpr fun f _ => f.type.ordered_ty)

/-- What a statement declares has the type that is written for it. -/
theorem Stmt.ordered_declarations : ∀ (s : Stmt), ∀ d ∈ s.declarations, ∀ t, d.type? = some t →
    t.Ordered
  | .expr .., _, h, _, _ | .block .., _, h, _, _ | .return_ .., _, h, _, _ => by cases h
  | .let_ _ type _ _, _, h, _, ht => by
    cases List.mem_singleton.mp h
    cases ht
    exact type.ordered_ty
  | .struct _ fields _, _, h, _, ht => by
    cases List.mem_singleton.mp h
    cases ht
    exact TypedName.ordered_schema fields
  | .if_ _ s none _, d, h, t, ht => s.ordered_declarations d h t ht
  | .if_ _ s (some s') _, d, h, t, ht => by
    rcases List.mem_append.mp h with h | h
    · exact s.ordered_declarations d h t ht
    · exact s'.ordered_declarations d h t ht
  | .while_ _ s _, d, h, t, ht => s.ordered_declarations d h t ht

/-- However a visit ends, what it has declared is where the declarations of its parts begin. -/
theorem Declares.exists_prefix {ν : Type} {Γ : Context} {ps : List StmtPart} {v : Visit ν Unit}
    (h : Declares Γ ps v) :
    ∃ ds, ds <+: StmtPart.declaredAll ps ∧ v.state.context = Γ.extend ds := by
  cases hv : v.result with
  | ok u => exact ⟨_, List.prefix_rfl, (h.ok hv).2⟩
  | error e =>
    obtain ⟨before, p, after, left, rfl, -, hl, -, hc⟩ := h.error e hv
    exact ⟨_, hl.prefix_declared before after, hc⟩

theorem Context.Ordered.of_declares {ν : Type} {Γ : Context} {v : Visit ν Unit} (h : Γ.Ordered)
    (ss : List Stmt) (hd : Declares Γ (ss.flatMap Stmt.parts) v) : v.state.context.Ordered := by
  obtain ⟨ds, hpre, hc⟩ := hd.exists_prefix
  rw [hc]
  refine h.extend fun d hm => ?_
  obtain ⟨p, hp, hm⟩ := List.mem_flatMap.mp (hpre.subset hm)
  obtain ⟨s, -, hp⟩ := List.mem_flatMap.mp hp
  refine s.ordered_declarations d ?_
  rw [← s.declaredAll_parts]
  exact List.mem_flatMap.mpr ⟨p, hp, hm⟩

theorem Context.suffix_exit (Γ : Context) : Γ.exit.entries <:+ Γ.entries := by
  have key : ∀ es os, Context.outer? es = some os → os <:+ es := by
    intro es
    induction es with
    | nil => exact nofun
    | cons e es ih =>
      intro os h
      rw [Context.outer?] at h
      split_ifs at h with he
      · cases h
        exact List.suffix_cons e es
      · exact (ih os h).trans (List.suffix_cons e es)
  rw [Context.exit]
  cases ho : Context.outer? Γ.entries with
  | none => exact List.suffix_rfl
  | some os => exact key _ _ ho

theorem Checker.Reachable.ordered {c : Checker} (h : c.Reachable) : c.context.Ordered := by
  induction h with
  | new => exact fun d hd => absurd hd List.not_mem_nil
  | @program c _ p ih =>
    rw [p.check_context]
    exact ih.of_declares p.body (checkAll_declares p.body c)
  | @stmt c _ s ih => exact ih.of_declares [s] (by simpa using s.check_declares c)
  | expr _ e ih => rw [e.check_context]; exact ih
  | enter _ ih => exact ih.enter
  | params _ hr hd ih =>
    obtain ⟨-, rfl⟩ := Context.readParams_eq_ok.mp hr
    obtain ⟨-, -, rfl⟩ := Checker.declareParams_eq_ok.mp hd
    refine ih.enter.extend fun d hm t ht => ?_
    obtain ⟨p, -, rfl⟩ := List.mem_map.mp hm
    cases ht
    exact p.type.ordered_ty
  | @exit c _ ih =>
    rw [Checker.exit_context]
    exact ih.of_suffix c.context.suffix_exit

/-! ### Types of expressions -/

theorem Context.HasFields.ordered {Γ : Context} {t : Ty} {fields : List (String × Ty)}
    (hf : Γ.HasFields t fields) (hΓ : Γ.Ordered) (ht : t.Ordered) : ∀ f ∈ fields, f.2.Ordered := by
  have key : (Ty.record fields).Ordered := by
    rcases hf with rfl | ⟨name, -, hr⟩
    · exact ht
    · exact hΓ.findRecord hr
  obtain _ | _ | ⟨-, hfields⟩ := key
  exact hfields

mutual

/-- Where declarations are ordered, the type of an expression is. -/
theorem HasType.ordered {R : SlotRule} : ∀ {e : Expr} {Γ : Context} {t : Ty},
    HasType R Γ e t → Γ.Ordered → t.Ordered
  | .mk .., _, _, .mk h _, hΓ => h.ordered hΓ
termination_by structural e => e

theorem FormTyped.ordered {R : SlotRule} : ∀ {form : Form} {Γ : Context} {t : Ty},
    FormTyped R Γ form t → Γ.Ordered → t.Ordered
  | .literal l, _, _, .literal _, _ => by cases l <;> exact .named _ _
  | .variable _, _, _, .name hx, hΓ => hΓ.findVariable hx
  | .group _, _, _, .group h, hΓ => h.ordered hΓ
  | .unary .., _, _, .unary h _, hΓ => h.ordered hΓ
  | .binary .., _, _, .comparison .., _ => .named _ _
  | .binary .., _, _, .arithmetic h .., hΓ => h.ordered hΓ
  | .logical .., _, _, .logical .., _ => .named _ _
  | .function _ result _, _, _, .function .., _ =>
    .function (List.forall_mem_map.mpr fun p _ => p.type.ordered_ty) result.ordered_ty
  | .call .., _, _, .call h _, hΓ => by
    obtain _ | ⟨-, hr⟩ := h.ordered hΓ
    exact hr
  | .get .., _, _, .get h hf hx, hΓ => hf.ordered hΓ (h.ordered hΓ) _ (Ty.mem_of_lookup hx)
  | .record .., _, _, .record h _, hΓ => Ty.ordered_ofFields (h.ordered hΓ)
termination_by structural form => form

theorem FieldsTyped.ordered {R : SlotRule} : ∀ {fields : List (Ident × Expr)} {Γ : Context}
    {types : List (String × Ty)}, FieldsTyped R Γ fields types → Γ.Ordered →
      ∀ f ∈ types, f.2.Ordered
  | [], _, _, .nil, _ => fun _ hf => absurd hf List.not_mem_nil
  | (_, _) :: _, _, _, .cons h hs, hΓ => List.forall_mem_cons.mpr ⟨h.ordered hΓ, hs.ordered hΓ⟩
termination_by structural fields => fields

end

end RecordLang
