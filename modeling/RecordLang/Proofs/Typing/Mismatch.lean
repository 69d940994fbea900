import RecordLang.Proofs.Typing.Agreement
import RecordLang.Proofs.Typing.Legible

/-!
# Faults that compare two types

Some faults show two types, one that is expected and one that is found in its place. The second is
not accepted for the first, and a type is accepted for itself. So the two are not the same, and as
both can be told by their texts, the texts differ too (`checkAll_clear`). This needs a walk through
the check along which the types of all declarations stay legible.
-/

namespace RecordLang

/-! ### Clear faults -/

namespace TypeCause

/-- The two types that a fault shows, the expected one first. -/
def compared? : TypeCause → Option (Ty × Ty)
  | declarationMismatch declared actual => some (declared, actual)
  | operandsDiffer left right => some (left, right)
  | argumentMismatch _ expected actual => some (expected, actual)
  | returnMismatch expected actual => some (expected, actual)
  | _ => none

/-- If two types are shown, their texts are not the same. -/
def Clear (c : TypeCause) : Prop := ∀ t u, c.compared? = some (t, u) → t.render ≠ u.render

variable {c : TypeCause} {Γ : Context} {t u : Ty}

theorem clear_of_none (h : c.compared? = none) : c.Clear := by
  intro t u hc
  rw [h] at hc
  cases hc

/-- A type that is not accepted for another one has another text. -/
theorem clear_of_refused (hΓ : Γ.Legible) (ht : t.Legible) (hu : u.Legible)
    (h : ¬ Γ.accepts t u = true) (hc : c.compared? = some (t, u)) : c.Clear := by
  intro t' u' hc'
  rw [hc] at hc'
  cases hc'
  intro htext
  obtain rfl := Ty.render_inj ht.spelled hu.spelled htext
  exact h (hΓ.ordered.accepts_self ht.ordered)

end TypeCause

/-- The fault is clear, if there is one. -/
def Clear {α : Type} (x : Except TypeFault α) : Prop := ∀ f, x = .error f → f.cause.Clear

namespace Clear

variable {α β : Type}

theorem ok (a : α) : Clear (.ok a) := fun _ h => (by cases h)

theorem error {f : TypeFault} (h : f.cause.Clear) : Clear (.error f : Except TypeFault α) := by
  rintro _ ⟨⟩
  exact h

/-- A fault that does not show two types. -/
theorem plain {cause : TypeCause} {span : Span} (h : cause.compared? = none) :
    Clear (.error ⟨cause, span⟩ : Except TypeFault α) :=
  error (TypeCause.clear_of_none h)

theorem ite {P : Prop} [Decidable P] {x y : Except TypeFault α} (hx : P → Clear x)
    (hy : ¬ P → Clear y) : Clear (if P then x else y) := by
  split
  · exact hx ‹_›
  · exact hy ‹_›

theorem bind {x : Except TypeFault α} {g : α → Except TypeFault β} (hx : Clear x)
    (hg : ∀ a, Clear (g a)) : Clear (x >>= g) := by
  cases x with
  | error f => exact .error (hx f rfl)
  | ok a => exact hg a

theorem map {x : Except TypeFault α} {g : α → β} (hx : Clear x) : Clear (x.map g) := by
  cases x with
  | error f => exact .error (hx f rfl)
  | ok a => exact .ok (g a)

theorem forM {g : α → Except TypeFault Unit} {as : List α} (h : ∀ a ∈ as, Clear (g a)) :
    Clear (as.forM g) := by
  induction as with
  | nil => exact .ok _
  | cons a as ih =>
    obtain ⟨ha, has⟩ := List.forall_mem_cons.mp h
    exact ha.bind fun _ => ih has

end Clear

/-! ### Judgements on single nodes -/

namespace Context

variable {Γ : Context} {span : Span} {t u : Ty}

theorem readType_clear (Γ : Context) (type : TypeExpr) : Clear (Γ.readType type) := by
  rw [readType]
  split
  · exact .plain rfl
  · exact .ok _

theorem readParams_clear (Γ : Context) (params : List TypedName) :
    Clear (Γ.readParams params) := by
  rw [readParams]
  induction params with
  | nil => exact .ok _
  | cons p ps ih =>
    rw [List.mapM_cons]
    exact (Γ.readType_clear p.type).bind fun _ => ih.bind fun _ => .ok _

theorem readFields_clear (Γ : Context) (record : String) (seen : List String)
    (fields : List TypedName) : Clear (Γ.readFields record seen fields) := by
  induction fields generalizing seen with
  | nil => exact .ok _
  | cons f fs ih =>
    rw [readFields]
    refine .ite (fun _ => .plain rfl) fun _ => ?_
    exact (Γ.readType_clear f.type).bind fun _ => (ih _).bind fun _ => .ok _

theorem typeOfVariable_clear (Γ : Context) (x : String) (span : Span) :
    Clear (Γ.typeOfVariable x span) := by
  rw [typeOfVariable]
  split
  · exact .ok _
  · exact .plain rfl

theorem signature_clear (callee call : Span) (count : Nat) (t : Ty) :
    Clear (signature callee call count t) := by
  cases t with
  | function params result => exact .ite (fun _ => .ok _) fun _ => .plain rfl
  | named | record => exact .plain rfl

theorem typeOfMember_clear (Γ : Context) (object : Ty) (field : Ident) :
    Clear (Γ.typeOfMember object field) := by
  have hfields : Clear (Γ.fieldsOf object field) := by
    rw [fieldsOf.eq_def]
    split
    · exact .ok _
    · exact .plain rfl
    · split
      · exact .plain rfl
      · refine .ite (fun _ => .plain rfl) fun _ => ?_
        split
        · exact .ok _
        · exact .plain rfl
  refine hfields.bind fun fields => ?_
  split
  · exact .ok _
  · exact .plain rfl

theorem typeOfBinary_clear {op : BinaryOp} (hΓ : Γ.Legible) (ht : t.Legible) (hu : u.Legible) :
    Clear (Γ.typeOfBinary op span t u) := by
  refine .ite (fun h => ?_) fun _ => .ite (fun _ => .plain rfl) fun _ => .ok _
  refine .error (TypeCause.clear_of_refused hΓ ht hu ?_ rfl)
  rwa [Bool.not_eq_true', ← Bool.not_eq_true] at h

theorem checkArgument_clear {place : Nat} (hΓ : Γ.Legible) (ht : t.Legible) (hu : u.Legible) :
    Clear (Γ.checkArgument place span t u) :=
  .ite (fun _ => .ok _) fun h => .error (TypeCause.clear_of_refused hΓ ht hu h rfl)

theorem checkInitial_clear (hΓ : Γ.Legible) (ht : t.Legible) (hu : u.Legible) :
    Clear (Γ.checkInitial span t u) :=
  .ite (fun _ => .ok _) fun h => .error (TypeCause.clear_of_refused hΓ ht hu h rfl)

theorem checkReturned_clear {actual : Option Ty} (hΓ : Γ.Legible) (ht : t.Legible)
    (hu : ∀ u, actual = some u → u.Legible) : Clear (Γ.checkReturned t actual span) := by
  cases actual with
  | none => exact .plain rfl
  | some u =>
    exact .ite (fun _ => .ok _) fun h => .error (TypeCause.clear_of_refused hΓ ht (hu u rfl) h rfl)

/-- The judgement on a body that gives back legible types. -/
theorem checkBody_clear {body : Stmt} (hΓ : Γ.Legible) (ht : t.Legible)
    (hbody : ∀ r ∈ body.results, ∀ u, r.1 = some u → u.Legible) : Clear (Γ.checkBody t body) := by
  cases body with
  | expr value span => exact checkReturned_clear hΓ ht (hbody _ List.mem_cons_self)
  | return_ value span => exact checkReturned_clear hΓ ht (hbody _ List.mem_cons_self)
  | block ss span =>
    rw [checkBody]
    split
    next => exact .plain rfl
    next =>
      refine .ite (fun _ => .forM fun r hr => ?_) fun _ => .plain rfl
      exact checkReturned_clear hΓ ht (hbody r hr)
  | _ => exact .plain rfl

end Context

/-- What a body with written slots gives back has the types that the judgement gives. -/
theorem Stmt.legible_results {Γ : Context} {body : Stmt} {ts : List Ty}
    (h : StmtTyped .written Γ body ts) (hΓ : Γ.Legible) (hw : (Node.stmt body).Worded) :
    ∀ r ∈ body.results, ∀ u, r.1 = some u → u.Legible := by
  have hreturns : ∀ r ∈ body.returns, ∀ u, r.1 = some u → u.Legible := by
    intro r hr u hu
    have hmem : some u ∈ body.returns.map Prod.fst := List.mem_map.mpr ⟨r, hr, hu⟩
    rw [Stmt.returns_types h] at hmem
    obtain ⟨t, ht, htu⟩ := List.mem_map.mp hmem
    cases htu
    exact h.legible hΓ hw u ht
  cases h with
  | @expr _ e t span value =>
    intro r hr u hu
    rw [List.mem_singleton.mp hr, value.type_eq] at hu
    cases hu
    exact value.legible hΓ (hw.part [.expr e] rfl (by simp))
  | _ => exact hreturns

/-! ### Visits -/

/-- The fault that ends the visit is clear, if there is one. -/
def Visit.Clear {ν α : Type} (v : Visit ν α) : Prop :=
  ∀ f, v.result = .error (.fault f) → f.cause.Clear

namespace Visit.Clear

variable {ν μ α β : Type} {v : Visit ν α} {n : ν} {c : Checker}

theorem ok (a : α) : Visit.Clear (.done n (.ok a) c) := fun _ h => (by cases h)

theorem judged {x : Except TypeFault α} (h : RecordLang.Clear x) :
    Visit.Clear (.done n (x.mapError .fault) c) := by
  cases x with
  | error f =>
    rintro _ ⟨⟩
    exact h f rfl
  | ok a => exact ok a

theorem map {F : ν → μ} (h : v.Clear) : (v.map F).Clear := h

theorem judge {g : α → Except TypeFault β} (h : v.Clear)
    (hg : ∀ a, v.result = .ok a → RecordLang.Clear (g a)) : (v.judge g).Clear := by
  intro f hf
  rw [Visit.judge] at hf
  split at hf
  next e he =>
    cases hf
    exact h f he
  next a ha =>
    have hjudged : Visit.Clear (.done v.nodes ((g a).mapError .fault) v.state) := judged (hg a ha)
    exact hjudged f hf

theorem andThen {m : μ} {next : α → Checker → Visit μ β} (h : v.Clear)
    (hnext : ∀ a, v.result = .ok a → (next a v.state).Clear) : (v.andThen m next).Clear := by
  intro f hf
  cases hv : v.result with
  | error e =>
    rw [andThen_of_error hv] at hf
    cases hf
    exact h f hv
  | ok a =>
    rw [andThen_of_ok hv] at hf
    exact hnext a hv f hf

/-- A condition that is no truth value is shown with one type. -/
theorem condition {v : Visit ν Ty} {keyword : Keyword} {span : Span} (h : v.Clear) :
    (v.judge (Context.checkCondition keyword span)).Clear :=
  h.judge fun _ _ => .ite (fun _ => .ok _) fun _ => .plain rfl

theorem inScope {g : Checker → Visit ν α} (h : (g c.enter).Clear) : (Visit.inScope c g).Clear := h

theorem record {v : Visit Form Ty} {span : Span} {slot : Option Ty} (h : v.Clear) :
    (v.record span slot).Clear := by
  intro f hf
  cases hv : v.result with
  | error e =>
    rw [record_of_error hv] at hf
    cases hf
    exact h f hv
  | ok t =>
    cases slot with
    | none =>
      rw [record_of_empty hv] at hf
      cases hf
    | some u =>
      rw [record_of_filled hv] at hf
      cases hf

end Visit.Clear

namespace Checker

variable {c : Checker} {f : TypeFault}

theorem declareParams_clear {params : List TypedName} {types : List Ty}
    (h : c.declareParams params types = .error (.fault f)) : f.cause.Clear := by
  induction params generalizing c types with
  | nil => cases h
  | cons p ps ih =>
    cases types with
    | nil => cases h
    | cons t ts =>
      rw [declareParams] at h
      split at h
      next => exact ih h
      next hd =>
        cases h
        cases declare_error hd
        exact TypeCause.clear_of_none rfl

theorem declareRecord_clear {x : Ident} {fields : List TypedName}
    (h : c.declareRecord x fields = .error (.fault f)) : f.cause.Clear := by
  rw [declareRecord] at h
  split at h
  · cases h
    exact TypeCause.clear_of_none rfl
  · split at h
    next hg =>
      cases h
      exact c.context.readFields_clear x.name [] fields f hg
    next => split at h <;> cases h

end Checker

/-! ### The walk -/

/-- The type that a check finds is legible. -/
theorem Expr.check_legible {e : Expr} {c : Checker} {t : Ty} (hc : c.context.Legible)
    (hw : (Node.expr e).Worded) (h : (e.check c).result = .ok t) : t.Legible :=
  (e.check_sound c h).1.legible hc hw

theorem Stmt.check_context_legible {s : Stmt} {c : Checker} (hc : c.context.Legible)
    (hw : (Node.stmt s).Worded) (h : (s.check c).result = .ok ()) :
    (s.check c).state.context.Legible := by
  rw [((s.check_declares c).ok h).2, s.declaredAll_parts]
  exact hc.declarations hw

mutual

theorem Expr.check_clear : ∀ (e : Expr) (c : Checker), c.context.Legible →
    (Node.expr e).Worded → (e.check c).Clear
  | .mk form span slot, c, hc, hw => (form.check_clear span slot c hc hw).record

theorem Form.check_clear : ∀ (form : Form) (span : Span) (slot : Option Ty) (c : Checker),
    c.context.Legible → (Node.expr (.mk form span slot)).Worded → (form.check span c).Clear
  | .literal l, _, _, _, _, _ => .ok _
  | .variable x, span, _, c, _, _ => .judged (c.context.typeOfVariable_clear x span)
  | .group e, _, _, c, hc, hw => (e.check_clear c hc (hw.part [.expr e] rfl (by simp))).map
  | .unary _ e, _, _, c, hc, hw =>
    (e.check_clear c hc (hw.part [.expr e] rfl (by simp))).map.judge fun _ _ =>
      .ite (fun _ => .ok _) fun _ => .plain rfl
  | .binary l op r, span, _, c, hc, hw => by
    have hl : (Node.expr l).Worded := hw.part [.expr l, .expr r] rfl (by simp)
    have hr : (Node.expr r).Worded := hw.part [.expr l, .expr r] rfl (by simp)
    refine Visit.Clear.map ((l.check_clear c hc hl).andThen fun t ht => ?_)
    have hc' : (l.check c).state.context.Legible := by rwa [l.check_context]
    refine (r.check_clear _ hc' hr).judge fun u hu => ?_
    rw [r.check_context]
    exact Context.typeOfBinary_clear hc' (Expr.check_legible hc hl ht) (Expr.check_legible hc' hr hu)
  | .logical l op r, _, _, c, hc, hw => by
    have hl : (Node.expr l).Worded := hw.part [.expr l, .expr r] rfl (by simp)
    have hr : (Node.expr r).Worded := hw.part [.expr l, .expr r] rfl (by simp)
    refine Visit.Clear.map (.andThen ((l.check_clear c hc hl).judge fun _ _ => ?_) fun _ _ => ?_)
    · exact .ite (fun _ => .ok _) fun _ => .plain rfl
    · have hc' : (l.check c).state.context.Legible := by rwa [l.check_context]
      rw [Visit.judge_state]
      exact (r.check_clear _ hc' hr).judge fun _ _ =>
        .map (.ite (fun _ => .ok _) fun _ => .plain rfl)
  | .function params result body, span, slot, c, hc, hw => by
    have hchildren := @Node.children_function span slot params result body
    have hparams : ∀ p ∈ params, (Node.typedName p).Worded := fun p hp =>
      hw.part _ hchildren (by simp [hp])
    have hresult : (Node.type result).Worded := hw.part _ hchildren (by simp)
    have hbody : (Node.stmt body).Worded := hw.part _ hchildren (by simp)
    rw [Form.check]
    split
    next f hf => exact Visit.Clear.judged (.error (c.context.readParams_clear params f hf))
    next f _ hf => exact Visit.Clear.judged (.error (c.context.readType_clear result f hf))
    next types type hp hr =>
      obtain ⟨-, rfl⟩ := Context.readParams_eq_ok.mp hp
      obtain ⟨-, rfl⟩ := Context.readType_eq_ok.mp hr
      refine Visit.Clear.map (.inScope ?_)
      split
      next hh =>
        rintro f ⟨⟩
        exact Checker.declareParams_clear hh
      next c' hd =>
        obtain ⟨-, -, rfl⟩ := Checker.declareParams_eq_ok.mp hd
        have hc' := hc.params hparams
        refine (body.check_clear _ hc' hbody).judge fun _ hb => .map ?_
        -- the body is judged with the types that were written into it
        obtain ⟨ts, -, hwritten⟩ := body.check_sound _ hb
        refine Context.checkBody_clear (Stmt.check_context_legible hc' hbody hb)
          (result.legible_ty hresult) (Stmt.legible_results hwritten hc' ?_)
        exact hbody.of_bare (congrArg Node.stmt (body.check_bare _))
  | .call f args, span, slot, c, hc, hw => by
    have hchildren := @Node.children_call span slot f args
    have hf : (Node.expr f).Worded := hw.part _ hchildren (by simp)
    refine Visit.Clear.map (.andThen ((f.check_clear c hc hf).judge fun t _ =>
      Context.signature_clear _ _ _ t) fun signature hs => ?_)
    obtain ⟨t, ht, hsignature⟩ := Visit.judge_eq_ok.mp hs
    obtain ⟨params, result⟩ := signature
    obtain ⟨rfl, -⟩ := Context.signature_eq_ok.mp hsignature
    have hc' : (f.check c).state.context.Legible := by rwa [f.check_context]
    rw [Visit.judge_state]
    refine (checkArgs_clear args 1 params _ hc' (Expr.check_legible hc hf ht).params
      fun e he => ?_).judge fun _ _ => .ok _
    exact hw.part _ hchildren (by simp [he])
  | .get e x, _, _, c, hc, hw =>
    (e.check_clear c hc (hw.part [.expr e, .ident x] rfl (by simp))).map.judge fun t _ =>
      Context.typeOfMember_clear _ t x
  | .record name fields, span, slot, c, hc, hw => by
    have hchildren := @Node.children_record span slot name fields
    refine Visit.Clear.judge (.map (checkFields_clear fields [] c hc fun g hg => ?_))
      fun _ _ => .ok _
    exact hw.part _ hchildren (List.mem_cons_of_mem _ (List.mem_flatMap.mpr ⟨g, hg, by simp⟩))

theorem checkArgs_clear : ∀ (args : List Expr) (place : Nat) (ts : List Ty) (c : Checker),
    c.context.Legible → (∀ t ∈ ts, t.Legible) → (∀ e ∈ args, (Node.expr e).Worded) →
    (checkArgs place ts args c).Clear
  | [], _, [], _, _, _, _ => .ok _
  | [], _, _ :: _, _, _, _, _ => .ok _
  | _ :: _, _, [], _, _, _, _ => .ok _
  | e :: es, place, t :: ts, c, hc, hts, hw => by
    obtain ⟨ht, hts⟩ := List.forall_mem_cons.mp hts
    obtain ⟨he, hes⟩ := List.forall_mem_cons.mp hw
    have hc' : (e.check c).state.context.Legible := by rwa [e.check_context]
    refine Visit.Clear.map (.andThen ((e.check_clear c hc he).judge fun u hu => ?_) fun _ _ => ?_)
    · exact Context.checkArgument_clear hc' ht (Expr.check_legible hc he hu)
    · exact checkArgs_clear es (place + 1) ts _ (by rwa [Visit.judgeIn_state]) hts hes

theorem checkFields_clear : ∀ (fields : List (Ident × Expr)) (seen : List String) (c : Checker),
    c.context.Legible → (∀ f ∈ fields, (Node.expr f.2).Worded) →
    (checkFields seen fields c).Clear
  | [], _, _, _, _ => .ok _
  | (x, e) :: fs, seen, c, hc, hw => by
    obtain ⟨he, hfs⟩ := List.forall_mem_cons.mp hw
    rw [checkFields]
    split
    · exact Visit.Clear.judged (.plain rfl)
    · refine Visit.Clear.map ((e.check_clear c hc he).andThen fun _ _ => ?_)
      exact (checkFields_clear fs (x.name :: seen) _ (by rwa [e.check_context]) hfs).judge
        fun _ _ => .ok _

theorem Stmt.check_clear : ∀ (s : Stmt) (c : Checker), c.context.Legible →
    (Node.stmt s).Worded → (s.check c).Clear
  | .expr e span, c, hc, hw => by
    have he : (Node.expr e).Worded := hw.part [.expr e] rfl (by simp)
    exact (e.check_clear (c.note (.statement span.line "expr")) hc he).map.judge fun _ _ => .ok _
  | .let_ x type none _, c, _, _ => by
    rw [Stmt.check]
    split
    next f hf => exact Visit.Clear.judged (.error (c.context.readType_clear type f hf))
    next =>
      split
      next hh =>
        obtain rfl := Checker.declare_error hh
        exact Visit.Clear.judged (.plain rfl)
      next => exact .ok _
  | .let_ x type (some e) span, c, hc, hw => by
    have htype : (Node.type type).Worded := hw.part [.ident x, .type type, .expr e] rfl (by simp)
    have he : (Node.expr e).Worded := hw.part [.ident x, .type type, .expr e] rfl (by simp)
    rw [Stmt.check]
    split
    next f hf => exact Visit.Clear.judged (.error (c.context.readType_clear type f hf))
    next t hr =>
      obtain ⟨-, rfl⟩ := Context.readType_eq_ok.mp hr
      split
      next hh =>
        obtain rfl := Checker.declare_error hh
        exact Visit.Clear.judged (.plain rfl)
      next c' hd =>
        -- the initial value is judged where the variable is declared
        obtain ⟨-, rfl⟩ := Checker.declare_eq_ok.mp hd
        have hc' := @Context.Legible.declarations c.context (.let_ x type (some e) span) hc hw
        refine Visit.Clear.map ((e.check_clear _ hc' he).judge fun u hu => ?_)
        rw [e.check_context]
        exact Context.checkInitial_clear hc' (type.legible_ty htype) (Expr.check_legible hc' he hu)
  | .block body _, _, hc, hw =>
    Visit.Clear.map (.inScope (checkAll_clear body _ hc.enter fun _ hs =>
      hw.part _ (Node.children_block body) (List.mem_map_of_mem hs)))
  | .if_ e s none span, c, hc, hw => by
    have he : (Node.expr e).Worded := hw.part [.expr e, .stmt s] rfl (by simp)
    have hs : (Node.stmt s).Worded := hw.part [.expr e, .stmt s] rfl (by simp)
    have hcondition := e.check_clear (c.note (.statement span.line "if")) hc he
    refine Visit.Clear.map (hcondition.condition.andThen fun _ _ => s.check_clear _ ?_ hs)
    rwa [Visit.judge_state, e.check_context]
  | .if_ e s (some t) span, c, hc, hw => by
    have he : (Node.expr e).Worded := hw.part [.expr e, .stmt s, .stmt t] rfl (by simp)
    have hs : (Node.stmt s).Worded := hw.part [.expr e, .stmt s, .stmt t] rfl (by simp)
    have ht : (Node.stmt t).Worded := hw.part [.expr e, .stmt s, .stmt t] rfl (by simp)
    have hcondition := e.check_clear (c.note (.statement span.line "if")) hc he
    refine Visit.Clear.map (hcondition.condition.andThen fun _ _ => ?_)
    have hc' : (e.check (c.note (.statement span.line "if"))).state.context.Legible := by
      rwa [e.check_context]
    rw [Visit.judge_state]
    refine (s.check_clear _ hc' hs).andThen fun _ hok => ?_
    exact t.check_clear _ (Stmt.check_context_legible hc' hs hok) ht
  | .while_ e s span, c, hc, hw => by
    have he : (Node.expr e).Worded := hw.part [.expr e, .stmt s] rfl (by simp)
    have hs : (Node.stmt s).Worded := hw.part [.expr e, .stmt s] rfl (by simp)
    have hcondition := e.check_clear (c.note (.statement span.line "while")) hc he
    refine Visit.Clear.map (hcondition.condition.andThen fun _ _ => s.check_clear _ ?_ hs)
    rwa [Visit.judge_state, e.check_context]
  | .struct x fields _, c, _, _ => by
    rw [Stmt.check]
    split
    next hh =>
      rintro f ⟨⟩
      exact Checker.declareRecord_clear hh
    next => exact .ok _
  | .return_ none _, _, _, _ => Visit.Clear.judged (.plain rfl)
  | .return_ (some e) span, c, hc, hw => by
    have he : (Node.expr e).Worded := hw.part [.expr e] rfl (by simp)
    exact (e.check_clear (c.note (.statement span.line "return")) hc he).map.judge fun _ _ => .ok _

/-- A fault that ends the check of legible declarations and worded statements is clear. -/
theorem checkAll_clear : ∀ (ss : List Stmt) (c : Checker), c.context.Legible →
    (∀ s ∈ ss, (Node.stmt s).Worded) → (checkAll ss c).Clear
  | [], _, _, _ => .ok _
  | s :: ss, c, hc, hw => by
    obtain ⟨hs, hss⟩ := List.forall_mem_cons.mp hw
    refine Visit.Clear.map ((s.check_clear c hc hs).andThen fun _ hok => ?_)
    exact checkAll_clear ss _ (Stmt.check_context_legible hc hs hok) hss

end

/-! ### Programs that were read -/

/-- A checker that has checked some programs, all of them read from texts. -/
inductive Checker.FromSources : Checker → Prop
  | new : FromSources .new
  | check {c : Checker} {s : Source} {p : Program} (earlier : FromSources c)
      (read : (parse s.lex.tokens).program = some p) : FromSources (p.check c).state

/-- However a check ends, what is declared then has a type that was written in the program. -/
theorem Checker.FromSources.legible {c : Checker} (h : c.FromSources) : c.context.Legible := by
  induction h with
  | new => exact Context.legible_empty
  | @check c s p _ read ih =>
    rw [p.check_context]
    have hdeclares := checkAll_declares p.body c
    obtain ⟨ds, hpre, hc⟩ := hdeclares.exists_prefix
    rw [hc]
    refine ih.extend fun d hm => ?_
    obtain ⟨part, hpart, hm⟩ := List.mem_flatMap.mp (hpre.subset hm)
    obtain ⟨t, ht, hpart⟩ := List.mem_flatMap.mp hpart
    refine t.legible_declarations (parse_worded read t ht) d ?_
    rw [← t.declaredAll_parts]
    exact List.mem_flatMap.mpr ⟨part, hpart, hm⟩

/-- A fault that compares two types has their texts in its message. -/
theorem TypeCause.message_of_compared {c : TypeCause} {t u : Ty} (h : c.compared? = some (t, u)) :
    (c.code = .typeMismatch ∨ c.code = .returnMismatch) ∧
      ∃ before between after, c.message = before ++ t.render ++ between ++ u.render ++ after := by
  -- two of the messages begin with a sentence of their own, and one goes on after a comma
  have hsentence : ∀ a b c d e f : String,
      a ++ (b ++ c ++ d ++ e ++ f) = (a ++ b) ++ c ++ d ++ e ++ f := by
    intro a b c d e f
    simp only [String.append_assoc]
  have hcomma : ∀ a b c d e f : String,
      a ++ b ++ c ++ (d ++ e ++ f) = a ++ b ++ (c ++ d) ++ e ++ f := by
    intro a b c d e f
    simp only [String.append_assoc]
  cases c with
  | declarationMismatch declared actual =>
    cases h
    exact ⟨.inl rfl, _, _, _, hsentence _ _ _ _ _ _⟩
  | operandsDiffer left right =>
    cases h
    exact ⟨.inl rfl, _, _, _, hsentence _ _ _ _ _ _⟩
  | argumentMismatch place expected actual =>
    cases h
    exact ⟨.inl rfl, _, _, _, rfl⟩
  | returnMismatch expected actual =>
    cases h
    exact ⟨.inr rfl, _, _, _, hcomma _ _ _ _ _ _⟩
  | _ => cases h

/-- The text of a type tells the type, if the names in it are words. So a fault that shows two types,
found by a checker in a program that was read, shows two texts that differ. -/
theorem render_tells_types :
    (∀ t u : Ty, t.Spelled → u.Spelled → t.render = u.render → t = u) ∧
    ∀ (c : Checker) (s : Source) (p : Program) (f : TypeFault) (t u : Ty), c.FromSources →
      (parse s.lex.tokens).program = some p → (p.check c).result = .error (.fault f) →
      f.cause.compared? = some (t, u) →
      (f.code = .typeMismatch ∨ f.code = .returnMismatch) ∧
        (∃ before between after,
          f.message = before ++ t.render ++ between ++ u.render ++ after) ∧
        t.render ≠ u.render := by
  refine ⟨fun t u => Ty.render_inj, fun c s p f t u hc hp hf hcompared => ?_⟩
  obtain ⟨hcode, hmessage⟩ := TypeCause.message_of_compared hcompared
  rw [p.check_result] at hf
  exact ⟨hcode, hmessage, checkAll_clear p.body c hc.legible (parse_worded hp) f hf t u hcompared⟩

/-- A function that is declared with an optional result, and one whose result is not. -/
def Source.optionalResult : Source :=
  ⟨"main", "struct P \x7b x: int \x7d let f: (P) -> int? = fn(p: P): int => p.x"⟩

/-- The two types differ in a mark, and so do their texts. -/
theorem Source.optionalResult_shows_two :
    let declared : Ty := .function [.named "P" false] (.named "int" true)
    let actual : Ty := .function [.named "P" false] .int
    declared.Spelled ∧ actual.Spelled ∧ declared.render = "(P) -> int?" ∧
      actual.render = "(P) -> int" ∧
      ∃ p f, (RecordLang.parse Source.optionalResult.lex.tokens).program = some p ∧
        (p.check .new).result = .error (.fault f) ∧
        f.cause.compared? = some (declared, actual) ∧ declared.render ≠ actual.render := by
  intro declared actual
  have hP : (Ty.named "P" false).Spelled := .named false (by decide)
  have hresult : (RecordLang.parse Source.optionalResult.lex.tokens).program.map
      (fun p => (p.check .new).result) = some (.error (.fault
        ⟨.declarationMismatch declared actual, ⟨⟨1, 21⟩, ⟨1, 61⟩⟩⟩)) := by decide +kernel
  obtain ⟨p, hp, hf⟩ := Option.map_eq_some_iff.mp hresult
  obtain ⟨-, hfaults⟩ := render_tells_types
  refine ⟨.function (List.forall_mem_singleton.mpr hP) (.named true (by decide)),
    .function (List.forall_mem_singleton.mpr hP) (.named false (by decide)), by decide, by decide,
    p, _, hp, hf, rfl, ?_⟩
  exact (hfaults .new .optionalResult p _ declared actual .new hp hf rfl).2.2

end RecordLang
