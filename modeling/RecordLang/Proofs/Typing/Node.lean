import RecordLang.Proofs.Typing.Bare
import RecordLang.Proofs.Typing.Judgement

/-!
# Single nodes and function bodies

When the judgement on a single node ends well, in the terms of the typing rules, and when a function
body passes: it has to give back a value at its end, and the result type has to accept all that it
gives back (`Context.checkBody_eq_ok`). The types that a body gives back are read off its slots,
which hold them once the body was checked (`Stmt.returns_types`).
-/

namespace RecordLang

/-! ### Single nodes -/

namespace Context

variable {Γ : Context} {t u : Ty} {span : Span}

theorem typeOfVariable_eq_ok {x : String} :
    Γ.typeOfVariable x span = .ok t ↔ Γ.findVariable x = some t := by
  rw [typeOfVariable]
  split <;> simp_all

theorem typeOfUnary_eq_ok {op : UnaryOp} :
    typeOfUnary op span u = .ok t ↔ op.applies u = true ∧ t = u := by
  rw [typeOfUnary]
  split_ifs with h
  · simp [h, eq_comm]
  · simp [h]

theorem typeOfBinary_eq_ok {op : BinaryOp} {left right : Ty} :
    Γ.typeOfBinary op span left right = .ok t ↔ Γ.accepts left right = true ∧
      op.applies left.baseName = true ∧ (if op.isComparison then .bool else left) = t := by
  rw [typeOfBinary]
  cases Γ.accepts left right <;> cases op.applies left.baseName <;> simp

theorem isBool_iff : t.isBool = true ↔ t = .bool := by
  rw [Ty.isBool, decide_eq_true_eq]

theorem checkOperand_eq_ok {op : LogicalOp} : checkOperand op span t = .ok () ↔ t = .bool := by
  rw [checkOperand, ← isBool_iff]
  split <;> simp_all

theorem checkCondition_eq_ok {keyword : Keyword} :
    checkCondition keyword span t = .ok () ↔ t = .bool := by
  rw [checkCondition, ← isBool_iff]
  split <;> simp_all

theorem signature_eq_ok {call : Span} {count : Nat} {params : List Ty} {result : Ty} :
    signature span call count t = .ok (params, result) ↔
      t = .function params result ∧ params.length = count := by
  unfold signature
  split
  next ps r =>
    split_ifs with h
    · simp only [Except.ok.injEq, Prod.mk.injEq, Ty.function.injEq]
      exact ⟨fun ⟨hp, hr⟩ => ⟨⟨hp, hr⟩, hp ▸ h⟩, And.left⟩
    · simp only [Ty.function.injEq, false_iff]
      rintro ⟨⟨rfl, -⟩, hl⟩
      exact h hl
  next h =>
    simp only [reduceCtorEq, false_iff]
    exact fun ht => h _ _ ht.1

theorem checkArgument_eq_ok {place : Nat} :
    Γ.checkArgument place span t u = .ok () ↔ Γ.accepts t u = true := by
  rw [checkArgument]
  split <;> simp_all

theorem checkInitial_eq_ok : Γ.checkInitial span t u = .ok () ↔ Γ.accepts t u = true := by
  rw [checkInitial]
  split <;> simp_all

theorem fieldsOf_eq_ok {x : Ident} {fields : List (String × Ty)} :
    Γ.fieldsOf t x = .ok fields ↔ Γ.HasFields t fields := by
  rcases t with ⟨name, optional⟩ | ⟨params, result⟩ | fs
  · rcases hr : Γ.findRecord name with _ | schema
    · simp [fieldsOf, HasFields, hr]
    · cases optional <;> rcases schema with _ | _ | _ <;>
        simp [fieldsOf, HasFields, hr, eq_comm]
  · simp [fieldsOf, HasFields]
  · simp [fieldsOf, HasFields, eq_comm]

theorem typeOfMember_eq_ok {x : Ident} : Γ.typeOfMember t x = .ok u ↔
    ∃ fields, Γ.HasFields t fields ∧ fields.lookup x.name = some u := by
  simp only [typeOfMember, bind_eq_ok, fieldsOf_eq_ok]
  refine exists_congr fun fields => and_congr_right fun _ => ?_
  cases fields.lookup x.name <;> simp [pure, Except.pure]

theorem checkReturned_eq_ok {expected : Ty} {actual : Option Ty} :
    Γ.checkReturned expected actual span = .ok () ↔
      ∃ t, actual = some t ∧ Γ.accepts expected t = true := by
  unfold checkReturned
  split
  · simp
  · split <;> simp_all

end Context

theorem Visit.condition_eq_ok {ν : Type} {v : Visit ν Ty} {keyword : Keyword} {span : Span} :
    (v.judge (Context.checkCondition keyword span)).result = .ok () ↔ v.result = .ok .bool := by
  simp only [Visit.judge_eq_ok, Context.checkCondition_eq_ok, exists_eq_right]

/-! ### Returned values -/

mutual

/-- The returns of a statement whose slots are written have the types that the judgement gives. -/
theorem Stmt.returns_types : ∀ {s : Stmt} {Γ : Context} {ts : List Ty},
    StmtTyped .written Γ s ts → s.returns.map Prod.fst = ts.map some
  | .expr .., _, _, .expr _ => rfl
  | .let_ .., _, _, .declared _ => rfl
  | .let_ .., _, _, .initialized .. => rfl
  | .struct .., _, _, .struct .. => rfl
  | .block body _, _, _, .block h => returnsAll_types h
  | .if_ _ s none _, _, _, .if_ _ h => s.returns_types h
  | .if_ _ s (some t) _, _, _, .ifElse _ h h' => by
    rw [Stmt.returns, List.map_append, s.returns_types h, t.returns_types h', List.map_append]
  | .while_ _ s _, _, _, .while_ _ h => s.returns_types h
  | .return_ (some (.mk form span slot)) _, _, _, .return_ (.mk _ hs) => by
    cases hs; rfl
termination_by structural s => s

theorem Stmt.returnsAll_types : ∀ {ss : List Stmt} {Γ : Context} {ts : List Ty},
    BlockTyped .written Γ ss ts → (Stmt.returnsAll ss).map Prod.fst = ts.map some
  | [], _, _, .nil => rfl
  | s :: ss, _, _, .cons h h' => by
    rw [Stmt.returnsAll, List.map_append, s.returns_types h, returnsAll_types h', List.map_append]
termination_by structural ss => ss

end

theorem forM_eq_ok {α ε : Type} {f : α → Except ε Unit} {as : List α} :
    as.forM f = .ok () ↔ ∀ a ∈ as, f a = .ok () := by
  induction as with
  | nil => simp [pure, Except.pure]
  | cons a as ih =>
    show (f a >>= fun _ => as.forM f) = .ok () ↔ _
    rw [bind_eq_ok, List.forall_mem_cons]
    exact ⟨fun ⟨(), ha, has⟩ => ⟨ha, ih.mp has⟩, fun ⟨ha, has⟩ => ⟨(), ha, ih.mpr has⟩⟩

theorem map_eq_ok {α β ε : Type} {f : α → β} {x : Except ε α} {b : β} :
    x.map f = .ok b ↔ ∃ a, x = .ok a ∧ f a = b := by
  cases x <;> simp [Except.map]

/-- What holds of all returned types holds of all returns of statements whose slots are written. -/
theorem Stmt.forall_returnsAll {P : Ty → Prop} {Γ : Context} {body : List Stmt} {ts : List Ty}
    (h : BlockTyped .written Γ body ts) :
    (∀ r ∈ Stmt.returnsAll body, ∃ t, r.1 = some t ∧ P t) ↔ ∀ t ∈ ts, P t := by
  calc (∀ r ∈ Stmt.returnsAll body, ∃ t, r.1 = some t ∧ P t)
      ↔ ∀ o ∈ (Stmt.returnsAll body).map Prod.fst, ∃ t, o = some t ∧ P t := by
        rw [List.forall_mem_map]
    _ ↔ ∀ t ∈ ts, P t := by
        rw [Stmt.returnsAll_types h, List.forall_mem_map]; simp

/-! ### Function bodies -/

namespace Stmt

/-- An expression, a return, or a block that ends with a return. -/
def Closes : Stmt → Prop
  | .expr .. | .return_ .. => True
  | .block body _ => EndsWithReturn body
  | .let_ .. | .if_ .. | .while_ .. | .struct .. => False

/-- What a body gives back, in the order of the text: its value if it is an expression, or else its
returns. -/
def results : Stmt → List (Option Ty × Span)
  | .expr value span => [(value.type, span)]
  | s => s.returns

end Stmt

theorem endsWithReturn_bareAll {body : List Stmt} :
    EndsWithReturn (bareAll body) ↔ EndsWithReturn body := by
  rw [EndsWithReturn, EndsWithReturn, bareAll_eq_map, List.getLast?_map]
  cases body.getLast? <;> simp [Stmt.isReturn_bare]

theorem Stmt.closes_bare (s : Stmt) : s.bare.Closes ↔ s.Closes := by
  cases s with
  | block body span => exact endsWithReturn_bareAll
  | let_ _ _ value _ | return_ value _ => cases value <;> exact Iff.rfl
  | if_ _ _ other _ => cases other <;> exact Iff.rfl
  | expr | while_ | struct => exact Iff.rfl

theorem Stmt.check_closes (s : Stmt) (c : Checker) : (s.check c).nodes.Closes ↔ s.Closes := by
  rw [← Stmt.closes_bare, s.check_bare, s.closes_bare]

namespace Context

variable {Γ : Context} {result : Ty} {s : Stmt}

theorem checkBody_of_closes (h : s.Closes) : Γ.checkBody result s =
    s.results.forM fun (actual, span) => Γ.checkReturned result actual span := by
  cases s with
  | expr value span =>
    show _ = (Γ.checkReturned result value.type span >>= fun _ => pure ())
    rw [checkBody]
    cases Γ.checkReturned result value.type span <;> rfl
  | return_ value span =>
    show _ = (Γ.checkReturned result (value.bind Expr.type) span >>= fun _ => pure ())
    rw [checkBody]
    cases Γ.checkReturned result (value.bind Expr.type) span <;> rfl
  | block body span =>
    obtain ⟨last, hl, hr⟩ := h
    simp only [checkBody, hl, hr, if_true]
    rfl
  | let_ | if_ | while_ | struct => exact h.elim

theorem checkBody_of_not_closes (Γ : Context) (result : Ty) (h : ¬ s.Closes) :
    ∃ f, Γ.checkBody result s = .error f ∧ f.code = .missingReturn := by
  cases s with
  | expr | return_ => exact absurd trivial h
  | block body span =>
    cases hl : body.getLast? with
    | none => exact ⟨_, by rw [checkBody, hl], rfl⟩
    | some last =>
      have hr : last.isReturn = false := by
        rw [← Bool.not_eq_true]
        exact fun hr => h ⟨last, hl, hr⟩
      exact ⟨_, by simp only [checkBody, hl, hr]; rfl, rfl⟩
  | let_ | if_ | while_ | struct => exact ⟨_, rfl, rfl⟩

/-- A body passes if it gives back a value at its end and the result type accepts all that it gives
back. -/
theorem checkBody_eq_ok : Γ.checkBody result s = .ok () ↔
    s.Closes ∧ ∀ r ∈ s.results, ∃ t, r.1 = some t ∧ Γ.accepts result t = true := by
  by_cases h : s.Closes
  · simp only [checkBody_of_closes h, forM_eq_ok, checkReturned_eq_ok, h, true_and]
  · obtain ⟨f, hf, -⟩ := checkBody_of_not_closes Γ result h
    simp [hf, h]

end Context

theorem HasType.type_eq {Γ : Context} {e : Expr} {t : Ty} (h : HasType .written Γ e t) :
    e.type = some t := by
  obtain ⟨-, hs⟩ := h
  exact hs

theorem FieldsTyped.map_name {R : SlotRule} {Γ : Context} : ∀ {fields : List (Ident × Expr)}
    {types : List (String × Ty)}, FieldsTyped R Γ fields types →
      (fields.map fun f => f.1.name) = types.map Prod.fst
  | [], _, .nil => rfl
  | _ :: _, _, .cons _ h => by rw [List.map_cons, h.map_name, List.map_cons]

end RecordLang
