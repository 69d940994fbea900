import RecordLang.Proofs.Program.Unplaced
import RecordLang.Proofs.Typing.Related

/-!
# Checking does not look at places

The check of a tree without the places of its nodes does what the check of the tree does: it ends
well with the same type or with a fault of the same cause, it writes the same types, and it leaves
the same context (`Expr.check_unplaced`, `Stmt.check_unplaced`). So two programs that are the same
up to places are checked alike.
-/

namespace RecordLang

/-- The faults have the same cause, and so the same code and message. -/
abbrev SameCause (f g : TypeFault) : Prop := f.cause = g.cause

/-! ### Written types -/

mutual

theorem TypeExpr.ty_unplaced : ∀ t : TypeExpr, t.unplaced.ty = t.ty
  | .named .. => rfl
  | .function params result _ => by
    rw [TypeExpr.unplaced, TypeExpr.ty, TypeExpr.ty, tys_unplacedTypes params, result.ty_unplaced]

theorem tys_unplacedTypes : ∀ ts : List TypeExpr, TypeExpr.tys (unplacedTypes ts) = TypeExpr.tys ts
  | [] => rfl
  | t :: ts => by
    rw [unplacedTypes, TypeExpr.tys, TypeExpr.tys, t.ty_unplaced, tys_unplacedTypes ts]

end

mutual

/-- The same name is the first that is not known. -/
theorem TypeExpr.unknown?_unplaced (known : String → Bool) : ∀ t : TypeExpr,
    (t.unplaced.unknown? known).map Prod.fst = (t.unknown? known).map Prod.fst
  | .named name _ _ => by
    rw [TypeExpr.unplaced, TypeExpr.unknown?, TypeExpr.unknown?]
    split <;> rfl
  | .function params result _ => by
    have hparams := unknownAmong?_unplacedTypes known params
    have hresult := result.unknown?_unplaced known
    rw [TypeExpr.unplaced, TypeExpr.unknown?, TypeExpr.unknown?]
    cases h : TypeExpr.unknownAmong? known params with
    | none =>
      rw [h, Option.map_none, Option.map_eq_none_iff] at hparams
      rw [hparams]
      exact hresult
    | some found =>
      rw [h] at hparams
      obtain ⟨found', hfound, heq⟩ := Option.map_eq_some_iff.mp hparams
      rw [hfound]
      exact congrArg some heq

theorem unknownAmong?_unplacedTypes (known : String → Bool) : ∀ ts : List TypeExpr,
    (TypeExpr.unknownAmong? known (unplacedTypes ts)).map Prod.fst =
      (TypeExpr.unknownAmong? known ts).map Prod.fst
  | [] => rfl
  | t :: ts => by
    have ht := t.unknown?_unplaced known
    have hts := unknownAmong?_unplacedTypes known ts
    rw [unplacedTypes, TypeExpr.unknownAmong?, TypeExpr.unknownAmong?]
    cases h : t.unknown? known with
    | none =>
      rw [h, Option.map_none, Option.map_eq_none_iff] at ht
      rw [ht]
      exact hts
    | some found =>
      rw [h] at ht
      obtain ⟨found', hfound, heq⟩ := Option.map_eq_some_iff.mp ht
      rw [hfound]
      exact congrArg some heq

end

namespace Context

variable (Γ : Context)

theorem readType_unplaced (t : TypeExpr) :
    Ends SameCause Eq (Γ.readType t) (Γ.readType t.unplaced) := by
  have hunknown := t.unknown?_unplaced Γ.knows
  rw [readType, readType, t.ty_unplaced]
  cases h : t.unknown? Γ.knows with
  | none =>
    rw [h, Option.map_none, Option.map_eq_none_iff] at hunknown
    rw [hunknown]
    exact .ok rfl
  | some found =>
    rw [h] at hunknown
    obtain ⟨found', hfound, heq⟩ := Option.map_eq_some_iff.mp hunknown
    rw [hfound]
    exact .error (congrArg TypeCause.unknownType heq.symm)

theorem readParams_unplaced (params : List TypedName) :
    Ends SameCause Eq (Γ.readParams params) (Γ.readParams (params.map TypedName.unplaced)) := by
  rw [readParams, readParams]
  induction params with
  | nil => exact .ok rfl
  | cons p ps ih =>
    rw [List.map_cons, List.mapM_cons, List.mapM_cons]
    refine (Γ.readType_unplaced p.type).bind fun t u htu => ih.bind fun ts us htus => ?_
    exact .ok (by rw [htu, htus])

theorem readFields_unplaced (record : String) (seen : List String) (fields : List TypedName) :
    Ends SameCause Eq (Γ.readFields record seen fields)
      (Γ.readFields record seen (fields.map TypedName.unplaced)) := by
  induction fields generalizing seen with
  | nil => exact .ok rfl
  | cons f fs ih =>
    have hname : f.unplaced.name.name = f.name.name := rfl
    rw [List.map_cons, readFields, readFields, hname]
    split
    · exact .error rfl
    · refine (Γ.readType_unplaced f.type).bind fun t u htu => (ih _).bind fun ts us htus => ?_
      exact .ok (by rw [htu, htus])

/-! ### Single nodes -/

/-- A judgement that asks for one thing, at two places. -/
theorem ends_ite {α : Type} {P : Prop} [Decidable P] {a : α} {cause : TypeCause} {s s' : Span} :
    Ends SameCause Eq (if P then .ok a else .error ⟨cause, s⟩)
      (if P then .ok a else .error ⟨cause, s'⟩) := by
  split
  · exact .ok rfl
  · exact .error rfl

theorem typeOfVariable_place (x : String) (s s' : Span) :
    Ends SameCause Eq (Γ.typeOfVariable x s) (Γ.typeOfVariable x s') := by
  rw [typeOfVariable, typeOfVariable]
  split
  · exact .ok rfl
  · exact .error rfl

theorem typeOfBinary_place (op : BinaryOp) (s s' : Span) (t u : Ty) :
    Ends SameCause Eq (Γ.typeOfBinary op s t u) (Γ.typeOfBinary op s' t u) := by
  rw [typeOfBinary, typeOfBinary]
  split
  · exact .error rfl
  · split
    · exact .error rfl
    · exact .ok rfl

theorem signature_place (s s' call call' : Span) (count : Nat) (t : Ty) :
    Ends SameCause Eq (signature s call count t) (signature s' call' count t) := by
  cases t with
  | function params result => exact ends_ite
  | named => exact .error rfl
  | record => exact .error rfl

theorem typeOfMember_unplaced (t : Ty) (x : Ident) :
    Ends SameCause Eq (Γ.typeOfMember t x) (Γ.typeOfMember t x.unplaced) := by
  have hfields : Ends SameCause Eq (Γ.fieldsOf t x) (Γ.fieldsOf t x.unplaced) := by
    cases t with
    | record fields => exact .ok rfl
    | function => exact .error rfl
    | named name optional =>
      rw [fieldsOf, fieldsOf]
      split
      · exact .error rfl
      · split
        · exact .error rfl
        · split
          · exact .ok rfl
          · exact .error rfl
  refine hfields.bind fun fields fields' heq => ?_
  subst heq
  have hname : x.unplaced.name = x.name := rfl
  rw [hname]
  split
  · exact .ok rfl
  · exact .error rfl

theorem checkReturned_place (expected : Ty) (actual : Option Ty) (s s' : Span) :
    Ends SameCause Eq (Γ.checkReturned expected actual s) (Γ.checkReturned expected actual s') := by
  cases actual with
  | none => exact .error rfl
  | some actual => exact ends_ite

end Context

/-! ### Function bodies -/

theorem Stmt.isReturn_unplaced (s : Stmt) : s.unplaced.isReturn = s.isReturn := by
  rcases s with _ | ⟨_, _, _ | _⟩ | _ | ⟨_, _, _ | _⟩ | _ | _ | ⟨_ | _⟩ <;> rfl

theorem unplacedAll_eq_map (ss : List Stmt) : unplacedAll ss = ss.map Stmt.unplaced := by
  induction ss with
  | nil => rfl
  | cons s ss ih => rw [unplacedAll, ih, List.map_cons]

theorem Expr.type_unplaced (e : Expr) : e.unplaced.type = e.type := by
  cases e
  rfl

mutual

/-- The returns of a statement are found with the same types. -/
theorem Stmt.returns_unplaced : ∀ s : Stmt,
    s.unplaced.returns.map Prod.fst = s.returns.map Prod.fst
  | .expr .. | .let_ _ _ none _ | .let_ _ _ (some _) _ | .struct .. => rfl
  | .return_ none _ => rfl
  | .return_ (some e) _ => congrArg ([·]) e.type_unplaced
  | .block body _ => returnsAll_unplaced body
  | .if_ _ s none _ => s.returns_unplaced
  | .if_ _ s (some t) _ => by
    rw [Stmt.unplaced, Stmt.returns, Stmt.returns, List.map_append, List.map_append,
      s.returns_unplaced, t.returns_unplaced]
  | .while_ _ s _ => s.returns_unplaced

theorem returnsAll_unplaced : ∀ ss : List Stmt,
    (Stmt.returnsAll (unplacedAll ss)).map Prod.fst = (Stmt.returnsAll ss).map Prod.fst
  | [] => rfl
  | s :: ss => by
    rw [unplacedAll, Stmt.returnsAll, Stmt.returnsAll, List.map_append, List.map_append,
      s.returns_unplaced, returnsAll_unplaced ss]

end

namespace Context

variable (Γ : Context)

theorem forM_checkReturned_place (expected : Ty) {rs rs' : List (Option Ty × Span)}
    (h : rs'.map Prod.fst = rs.map Prod.fst) :
    Ends SameCause Eq (rs.forM fun r => Γ.checkReturned expected r.1 r.2)
      (rs'.forM fun r => Γ.checkReturned expected r.1 r.2) := by
  induction rs generalizing rs' with
  | nil =>
    obtain rfl := List.map_eq_nil_iff.mp h
    exact .ok rfl
  | cons r rs ih =>
    obtain ⟨r', rs'', rfl, hr, hrs⟩ := List.map_eq_cons_iff.mp h
    have hfirst : Ends SameCause Eq (Γ.checkReturned expected r.1 r.2)
        (Γ.checkReturned expected r'.1 r'.2) := by
      rw [hr]
      exact Γ.checkReturned_place expected _ _ _
    exact hfirst.bind fun _ _ _ => ih hrs

theorem checkBody_unplaced (expected : Ty) (s : Stmt) :
    Ends SameCause Eq (Γ.checkBody expected s) (Γ.checkBody expected s.unplaced) := by
  cases s with
  | expr e span =>
    rw [Stmt.unplaced, checkBody, checkBody, e.type_unplaced]
    exact Γ.checkReturned_place expected _ _ _
  | return_ value span =>
    cases value with
    | none => exact .error rfl
    | some e =>
      rw [Stmt.unplaced, checkBody, checkBody, Option.bind_some, Option.bind_some, e.type_unplaced]
      exact Γ.checkReturned_place expected _ _ _
  | block body span =>
    have hreturns := returnsAll_unplaced body
    rw [Stmt.unplaced, checkBody, checkBody, unplacedAll_eq_map, List.getLast?_map]
    rw [unplacedAll_eq_map] at hreturns
    cases body.getLast? with
    | none => exact .error rfl
    | some last =>
      simp only [Option.map_some, last.isReturn_unplaced]
      split
      · exact Γ.forM_checkReturned_place expected hreturns
      · exact .error rfl
  | let_ x type value span => cases value <;> exact .error rfl
  | if_ e s t span => cases t <;> exact .error rfl
  | while_ e s span => exact .error rfl
  | struct x fields span => exact .error rfl

end Context

/-! ### Declarations -/

namespace Checker

variable {c d : Checker}

/-- The checkers have the same context. -/
abbrev SameContext (c d : Checker) : Prop := c.context = d.context

theorem declare_place (h : c.context = d.context) (x : String) (t : Ty) {f g : TypeFault}
    (hfg : SameCause f g) :
    Ends (Halt.Rel SameCause) SameContext (c.declare x t f) (d.declare x t g) := by
  rw [declare, declare, h]
  split
  · exact .ok rfl
  · exact .error (.fault hfg)

theorem declareParams_unplaced (h : c.context = d.context) (params : List TypedName)
    (ts : List Ty) :
    Ends (Halt.Rel SameCause) SameContext (c.declareParams params ts)
      (d.declareParams (params.map TypedName.unplaced) ts) := by
  induction params generalizing c d ts with
  | nil => exact .ok h
  | cons p ps ih =>
    cases ts with
    | nil => exact .ok h
    | cons t ts =>
      have hdeclare := declare_place h p.name.name t (f := ⟨.parameterDeclared p.name.name, p.span⟩)
        (g := ⟨.parameterDeclared p.name.name, default⟩) rfl
      have hname : p.unplaced.name.name = p.name.name := rfl
      have hspan : p.unplaced.span = default := rfl
      rw [List.map_cons, declareParams, declareParams, hname, hspan]
      generalize c.declare _ _ _ = x, d.declare _ _ _ = y at hdeclare
      cases hdeclare with
      | ok hcd => exact ih hcd ts
      | error he => exact .error he

/-- A declared type is read and its variable is declared, or the same is wrong with one of them. -/
theorem declareRead_unplaced (h : c.context = d.context) (x : Ident) (type : TypeExpr) :
    (∃ f g, SameCause f g ∧ c.context.readType type = .error f ∧
      d.context.readType type.unplaced = .error g) ∨
    ∃ t, c.context.readType type = .ok t ∧ d.context.readType type.unplaced = .ok t ∧
      Ends (Halt.Rel SameCause) SameContext (c.declare x.name t ⟨.variableDeclared x.name, x.span⟩)
        (d.declare x.unplaced.name t ⟨.variableDeclared x.unplaced.name, x.unplaced.span⟩) := by
  have htype := d.context.readType_unplaced type
  rw [h]
  generalize d.context.readType type = y, d.context.readType type.unplaced = y' at htype ⊢
  cases htype with
  | error hf => exact .inl ⟨_, _, hf, rfl, rfl⟩
  | ok htu => exact .inr ⟨_, rfl, congrArg _ htu.symm, declare_place h x.name _ rfl⟩

theorem declareRecord_unplaced (h : c.context = d.context) (x : Ident) (fields : List TypedName) :
    Ends (Halt.Rel SameCause) SameContext (c.declareRecord x fields)
      (d.declareRecord x.unplaced (fields.map TypedName.unplaced)) := by
  have hfields := d.context.readFields_unplaced x.name [] fields
  have hname : x.unplaced.name = x.name := rfl
  rw [declareRecord, declareRecord, h, hname]
  split
  · exact .error (.fault rfl)
  · generalize d.context.readFields _ _ fields = y, d.context.readFields _ _ (fields.map _) = z
      at hfields
    cases hfields with
    | error he => exact .error (.fault he)
    | ok hts =>
      subst hts
      dsimp only
      split
      · exact .ok rfl
      · exact .ok h

end Checker

/-! ### Stages -/

/-- Two visits that are the same but for places: the second one has nodes without places. -/
abbrev Visit.Placeless {ν α : Type} (unplaced : ν → ν) (v w : Visit ν α) : Prop :=
  Visit.Related Eq SameCause (fun n n' => n' = unplaced n) Eq v w

namespace Visit.Placeless

variable {ν μ α β : Type} {f : ν → ν} {g : μ → μ} {v w : Visit ν α}

theorem map {F F' : ν → μ} (h : Placeless f v w) (hF : ∀ n, F' (f n) = g (F n)) :
    Placeless g (v.map F) (w.map F') :=
  Related.map h fun n n' hn => by rw [hn, hF]

theorem judge {j j' : α → Except TypeFault β} (h : Placeless f v w)
    (hj : ∀ a, Ends SameCause Eq (j a) (j' a)) : Placeless f (v.judge j) (w.judge j') :=
  Related.judge h fun a _ ha => ha ▸ hj a

theorem judgeIn {j j' : Context → α → Except TypeFault β} (h : Placeless f v w)
    (hj : ∀ Γ a, Ends SameCause Eq (j Γ a) (j' Γ a)) : Placeless f (v.judgeIn j) (w.judgeIn j') :=
  Related.judgeIn h fun Γ _ a _ hΓ ha => hΓ ▸ ha ▸ hj Γ a

theorem andThen {others : μ} {next next' : α → Checker → Visit μ β} (h : Placeless f v w)
    (hnext : ∀ a c d, c.context = d.context → Placeless g (next a c) (next' a d)) :
    Placeless (Prod.map f g) (v.andThen others next) (w.andThen (g others) next') := by
  have hnext' : ∀ a a' c d, a = a' → c.context = d.context →
      Placeless g (next a c) (next' a' d) := by
    rintro a _ c d rfl hcd
    exact hnext a c d hcd
  have hothers : g others = g others := rfl
  have hpair := Related.andThen (M := fun n n' => n' = g n) h hothers hnext'
  exact ⟨Prod.ext hpair.nodes.1 hpair.nodes.2, hpair.result, hpair.context⟩

theorem inScope {c d : Checker} {visit visit' : Checker → Visit ν α}
    (h : Placeless f (visit c.enter) (visit' d.enter)) :
    Placeless f (Visit.inScope c visit) (Visit.inScope d visit') :=
  Related.inScope h fun _ _ hΓ => congrArg Context.exit hΓ

theorem record {v w : Visit Form Ty} (h : Placeless Form.unplaced v w) (span : Span)
    (slot : Option Ty) : Placeless Expr.unplaced (v.record span slot) (w.record default slot) := by
  have hrel : ∀ s : Option Ty, Option.Rel Eq s s := by
    rintro (_ | t)
    · exact .none
    · exact .some rfl
  refine Related.record h (hrel slot) fun n n' s s' hn hs => ?_
  subst hn
  cases hs with
  | none => rfl
  | some ht => rw [ht]; rfl

end Visit.Placeless

/-! ### The walk -/

mutual

/-- The check does not look at places. -/
theorem Expr.check_unplaced : ∀ (e : Expr) {c d : Checker}, c.context = d.context →
    Visit.Placeless Expr.unplaced (e.check c) (e.unplaced.check d)
  | .mk form span slot, _, _, h => (form.check_unplaced span default h).record span slot

theorem Form.check_unplaced : ∀ (form : Form) (span span' : Span) {c d : Checker},
    c.context = d.context →
      Visit.Placeless Form.unplaced (form.check span c) (form.unplaced.check span' d)
  | .literal l, _, _, _, _, h => ⟨rfl, .ok rfl, h⟩
  | .variable x, span, span', c, d, h => by
    have hx : Ends SameCause Eq (c.context.typeOfVariable x span)
        (d.context.typeOfVariable x span') := by
      rw [h]
      exact d.context.typeOfVariable_place x span span'
    exact ⟨rfl, hx.mapError_fault, h⟩
  | .group e, _, _, _, _, h => (e.check_unplaced h).map fun _ => rfl
  | .unary op e, _, _, _, _, h => by
    rw [Form.unplaced, Form.check, Form.check]
    exact Visit.Placeless.judge (Visit.Placeless.map (e.check_unplaced h) fun _ => rfl)
      fun _ => Context.ends_ite
  | .binary l op r, span, span', _, _, h => by
    rw [Form.unplaced, Form.check, Form.check]
    exact Visit.Placeless.map (Visit.Placeless.andThen (l.check_unplaced h) fun t _ _ h =>
      (r.check_unplaced h).judgeIn fun Γ u => Γ.typeOfBinary_place op span span' t u) fun _ => rfl
  | .logical l op r, _, _, _, _, h => by
    rw [Form.unplaced, Form.check, Form.check]
    exact Visit.Placeless.map (Visit.Placeless.andThen
      ((l.check_unplaced h).judge fun _ => Context.ends_ite) fun _ _ _ h =>
        (r.check_unplaced h).judge fun _ => Context.ends_ite.map fun _ _ _ => rfl) fun _ => rfl
  | .function params result body, _, _, c, d, h => by
    have hparams := d.context.readParams_unplaced params
    have hresult := d.context.readType_unplaced result
    rw [Form.unplaced, Form.check, Form.check, h]
    generalize d.context.readParams params = x, d.context.readParams (params.map _) = x' at hparams
    generalize d.context.readType result = y, d.context.readType result.unplaced = y' at hresult
    cases hparams with
    | error hf => exact ⟨rfl, .error (.fault hf), h⟩
    | @ok ts us hts =>
      cases hresult with
      | error hf => exact ⟨rfl, .error (.fault hf), h⟩
      | @ok t u htu =>
        subst hts htu
        have henter : c.enter.context = d.enter.context := congrArg Context.enter h
        have hdeclare := Checker.declareParams_unplaced henter params ts
        refine Visit.Placeless.map (Visit.Placeless.inScope ?_) fun _ => rfl
        generalize c.enter.declareParams params _ = z, d.enter.declareParams (params.map _) _ = z'
          at hdeclare ⊢
        cases hdeclare with
        | error he => exact ⟨rfl, .error he, henter⟩
        | ok hcd =>
          have hbody := body.check_unplaced hcd
          refine hbody.judgeIn fun Γ _ => ?_
          rw [hbody.nodes]
          exact (Γ.checkBody_unplaced _ _).map fun _ _ _ => rfl
  | .call f args, span, span', c, d, h => by
    have hlength : (unplacedArgs args).length = args.length := by
      rw [unplacedArgs_eq_map, List.length_map]
    rw [Form.unplaced, Form.check, Form.check, hlength]
    refine Visit.Placeless.map (Visit.Placeless.andThen ((f.check_unplaced h).judge fun t =>
      Context.signature_place _ _ span span' args.length t) fun sig c d h => ?_) fun _ => rfl
    exact (checkArgs_unplaced args 1 sig.1 h).judge fun _ => .ok rfl
  | .get e x, _, _, _, _, h => by
    rw [Form.unplaced, Form.check, Form.check]
    exact Visit.Placeless.judgeIn (Visit.Placeless.map (e.check_unplaced h) fun _ => rfl)
      fun Γ t => Γ.typeOfMember_unplaced t x
  | .record name fields, _, _, _, _, h =>
    Visit.Placeless.judge (Visit.Placeless.map (checkFields_unplaced fields [] h) fun _ => rfl)
      fun _ => .ok rfl

theorem checkArgs_unplaced : ∀ (args : List Expr) (place : Nat) (ts : List Ty) {c d : Checker},
    c.context = d.context →
      Visit.Placeless unplacedArgs (checkArgs place ts args c)
        (checkArgs place ts (unplacedArgs args) d)
  | [], _, [], _, _, h | [], _, _ :: _, _, _, h | _ :: _, _, [], _, _, h => ⟨rfl, .ok rfl, h⟩
  | e :: es, place, _ :: ts, _, _, h =>
    Visit.Placeless.map (Visit.Placeless.andThen
      ((e.check_unplaced h).judgeIn fun _ _ => Context.ends_ite)
        fun _ _ _ h => checkArgs_unplaced es (place + 1) ts h) fun _ => rfl

theorem checkFields_unplaced : ∀ (fields : List (Ident × Expr)) (seen : List String)
    {c d : Checker}, c.context = d.context → Visit.Placeless unplacedFields
      (checkFields seen fields c) (checkFields seen (unplacedFields fields) d)
  | [], _, _, _, h => ⟨rfl, .ok rfl, h⟩
  | (x, e) :: fs, seen, c, d, h => by
    have hname : x.unplaced.name = x.name := rfl
    rw [unplacedFields, checkFields, checkFields, hname]
    split
    · exact ⟨rfl, .error (.fault rfl), h⟩
    · refine Visit.Placeless.map (Visit.Placeless.andThen (e.check_unplaced h) fun t c d h => ?_)
        fun _ => rfl
      exact (checkFields_unplaced fs (x.name :: seen) h).judge fun _ => .ok rfl

theorem Stmt.check_unplaced : ∀ (s : Stmt) {c d : Checker}, c.context = d.context →
    Visit.Placeless Stmt.unplaced (s.check c) (s.unplaced.check d)
  | .expr e span, c, d, h => by
    rw [Stmt.unplaced, Stmt.check, Stmt.check]
    exact Visit.Placeless.judge (Visit.Placeless.map (e.check_unplaced h) fun _ => rfl)
      fun _ => .ok rfl
  | .let_ x type none span, c, d, h => by
    rw [Stmt.unplaced, Stmt.check, Stmt.check]
    rcases Checker.declareRead_unplaced (c := c.note (.statement span.line "let"))
      (d := d.note (.statement (default : Span).line "let")) h x type with
      ⟨f, g, hfg, hf, hg⟩ | ⟨t, ht, ht', hdeclare⟩
    · simp only [hf, hg]
      exact ⟨rfl, .error (.fault hfg), h⟩
    · simp only [ht, ht']
      generalize (c.note _).declare _ _ _ = z, (d.note _).declare _ _ _ = z' at hdeclare ⊢
      cases hdeclare with
      | error he => exact ⟨rfl, .error he, h⟩
      | ok hcd => exact ⟨rfl, .ok rfl, hcd⟩
  | .let_ x type (some e) span, c, d, h => by
    rw [Stmt.unplaced, Stmt.check, Stmt.check]
    rcases Checker.declareRead_unplaced (c := c.note (.statement span.line "let"))
      (d := d.note (.statement (default : Span).line "let")) h x type with
      ⟨f, g, hfg, hf, hg⟩ | ⟨t, ht, ht', hdeclare⟩
    · simp only [hf, hg]
      exact ⟨rfl, .error (.fault hfg), h⟩
    · simp only [ht, ht']
      generalize (c.note _).declare _ _ _ = z, (d.note _).declare _ _ _ = z' at hdeclare ⊢
      cases hdeclare with
      | error he => exact ⟨rfl, .error he, h⟩
      | ok hcd =>
        exact Visit.Placeless.map ((e.check_unplaced hcd).judgeIn fun _ _ => Context.ends_ite)
          fun _ => rfl
  | .block body span, c, d, h => by
    have henter : (c.note (.statement span.line "block")).enter.context =
        (d.note (.statement (default : Span).line "block")).enter.context :=
      congrArg Context.enter h
    rw [Stmt.unplaced, Stmt.check, Stmt.check]
    exact Visit.Placeless.map (Visit.Placeless.inScope (checkAll_unplaced body henter)) fun _ => rfl
  | .if_ e s none span, c, d, h => by
    have he := e.check_unplaced (c := c.note (.statement span.line "if"))
      (d := d.note (.statement (default : Span).line "if")) h
    rw [Stmt.unplaced, Stmt.check, Stmt.check]
    exact Visit.Placeless.map (Visit.Placeless.andThen (he.judge fun _ => Context.ends_ite)
      fun _ _ _ h => s.check_unplaced h) fun _ => rfl
  | .if_ e s (some t) span, c, d, h => by
    have he := e.check_unplaced (c := c.note (.statement span.line "if"))
      (d := d.note (.statement (default : Span).line "if")) h
    rw [Stmt.unplaced, Stmt.check, Stmt.check]
    refine Visit.Placeless.map (Visit.Placeless.andThen (g := Prod.map Stmt.unplaced Stmt.unplaced)
      (he.judge fun _ => Context.ends_ite) fun _ _ _ h => ?_) fun _ => rfl
    exact (s.check_unplaced h).andThen fun _ _ _ h => t.check_unplaced h
  | .while_ e s span, c, d, h => by
    have he := e.check_unplaced (c := c.note (.statement span.line "while"))
      (d := d.note (.statement (default : Span).line "while")) h
    rw [Stmt.unplaced, Stmt.check, Stmt.check]
    exact Visit.Placeless.map (Visit.Placeless.andThen (he.judge fun _ => Context.ends_ite)
      fun _ _ _ h => s.check_unplaced h) fun _ => rfl
  | .struct x fields span, c, d, h => by
    have hdeclare := Checker.declareRecord_unplaced (c := c.note (.statement span.line "struct"))
      (d := d.note (.statement (default : Span).line "struct")) h x fields
    rw [Stmt.unplaced, Stmt.check, Stmt.check]
    generalize (c.note _).declareRecord _ _ = z, (d.note _).declareRecord _ _ = z' at hdeclare ⊢
    cases hdeclare with
    | error he => exact ⟨rfl, .error he, h⟩
    | ok hcd => exact ⟨rfl, .ok rfl, hcd⟩
  | .return_ none span, _, _, h => ⟨rfl, .error (.fault rfl), h⟩
  | .return_ (some e) span, c, d, h => by
    rw [Stmt.unplaced, Stmt.check, Stmt.check]
    exact Visit.Placeless.judge (Visit.Placeless.map (e.check_unplaced h) fun _ => rfl)
      fun _ => .ok rfl

theorem checkAll_unplaced : ∀ (ss : List Stmt) {c d : Checker}, c.context = d.context →
    Visit.Placeless unplacedAll (checkAll ss c) (checkAll (unplacedAll ss) d)
  | [], _, _, h => ⟨rfl, .ok rfl, h⟩
  | s :: ss, _, _, h =>
    Visit.Placeless.map
      (Visit.Placeless.andThen (s.check_unplaced h) fun _ _ _ h => checkAll_unplaced ss h)
      fun _ => rfl

end

end RecordLang
