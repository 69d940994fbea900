import RecordLang.Proofs.Program.Nodes
import RecordLang.Proofs.Typing.Slots

/-!
# Faults stand at nodes

A check that ends with a fault blames a node of the tree it was given: the span of the fault is the
span of that node (`checkAll_blames`). The judgements blame the node they are about or one of its
parts; only the judgement on a function body looks at nodes in which types are already written, and
these have the spans that they had before (`Node.All.of_bare`).
-/

namespace RecordLang

/-! ### All nodes of a tree -/

namespace Node

variable {S : Span → Prop} {n m : Node}

/-- The spans of all nodes in a node have `S`. -/
def All (S : Span → Prop) (n : Node) : Prop := ∀ m, n.Below m → S m.span

theorem All.self (h : n.All S) : S n.span := h n .refl

theorem All.child (h : n.All S) (hm : m ∈ n.children) : m.All S :=
  fun k hk => h k (hk.head hm)

/-- The nodes right below a node, where they are known. -/
theorem All.part (h : n.All S) (ms : List Node) (hms : n.children = ms) (hm : m ∈ ms) : m.All S :=
  h.child (hms ▸ hm)

/-- The node with all slots in it empty. -/
def bare : Node → Node
  | ident x => ident x
  | type t => type t
  | typedName x => typedName x
  | expr e => expr e.bare
  | stmt s => stmt s.bare

theorem span_bare (n : Node) : n.bare.span = n.span := by
  cases n with
  | ident | type | typedName => rfl
  | expr e =>
    cases e
    rfl
  | stmt s =>
    show s.bare.span = s.span
    fun_cases Stmt.bare s <;> rfl

theorem bareArgs_eq_map (es : List Expr) : bareArgs es = es.map Expr.bare := by
  induction es with
  | nil => rfl
  | cons e es ih => exact congrArg (e.bare :: ·) ih

theorem bareFields_eq_map (fs : List (Ident × Expr)) :
    bareFields fs = fs.map fun f => (f.1, f.2.bare) := by
  induction fs with
  | nil => rfl
  | cons f fs ih => exact congrArg ((f.1, f.2.bare) :: ·) ih

theorem children_bare (n : Node) : n.bare.children = n.children.map bare := by
  cases n with
  | ident | typedName => rfl
  | type t =>
    cases t with
    | named name marked span => rw [bare, children_named]; rfl
    | function params result span =>
      rw [bare, children_functionType, List.map_append, List.map_map]
      rfl
  | expr e =>
    obtain ⟨form, span, slot⟩ := e
    cases form with
    | function params result body =>
      rw [bare, Expr.bare, Form.bare, children_function, children_function, List.map_append,
        List.map_map]
      rfl
    | call f args =>
      rw [bare, Expr.bare, Form.bare, children_call, children_call, bareArgs_eq_map, List.map_cons,
        List.map_map, List.map_map]
      rfl
    | record name fields =>
      rw [bare, Expr.bare, Form.bare, children_record, children_record, bareFields_eq_map,
        List.map_cons, List.flatMap_map, List.map_flatMap]
      rfl
    | _ => rfl
  | stmt s =>
    show (stmt s.bare).children = _
    fun_cases Stmt.bare s with
    | case4 ss span =>
      rw [children_block, children_block, bareAll_eq_map, List.map_map, List.map_map]
      rfl
    | case8 x fields span =>
      rw [children_struct, List.map_cons, List.map_map]
      rfl
    | _ => rfl

theorem Below.bare (h : n.Below m) : n.bare.Below m.bare := by
  induction h with
  | refl => exact .refl
  | @tail k m _ hm ih =>
    refine ih.tail ?_
    rw [children_bare]
    exact List.mem_map_of_mem hm

theorem exists_below_of_bare (h : n.bare.Below m) : ∃ k, n.Below k ∧ m = k.bare := by
  induction h with
  | refl => exact ⟨n, .refl, rfl⟩
  | tail _ hm ih =>
    obtain ⟨k, hk, rfl⟩ := ih
    rw [children_bare] at hm
    obtain ⟨l, hl, rfl⟩ := List.mem_map.mp hm
    exact ⟨l, hk.tail hl, rfl⟩

/-- Nodes that differ in slots only have the same spans in them. -/
theorem All.of_bare (h : n.All S) (hbare : m.bare = n.bare) : m.All S := by
  intro k hk
  have hk' := hk.bare
  rw [hbare] at hk'
  obtain ⟨l, hl, heq⟩ := exists_below_of_bare hk'
  have hspan := congrArg span heq
  rw [span_bare, span_bare] at hspan
  rw [hspan]
  exact h l hl

end Node

/-! ### The expressions of a tree are nodes -/

section Expressions

variable {d : Expr} {n m : Node}

theorem Node.Below.through (hm : m ∈ n.children) (hd : m.Below (.expr d)) : n.Below (.expr d) :=
  hd.head hm

mutual

theorem Expr.below_of_mem : ∀ e : Expr, d ∈ e.postorder → (Node.expr e).Below (.expr d)
  | .mk form span slot, hd => by
    rcases List.mem_append.mp hd with hd | hd
    · exact form.below_of_mem span slot hd
    · obtain rfl := List.mem_singleton.mp hd
      exact .refl

theorem Form.below_of_mem : ∀ (form : Form) (span : Span) (slot : Option Ty), d ∈ form.postorder →
    (Node.expr (.mk form span slot)).Below (.expr d)
  | .literal _, _, _, hd => absurd hd List.not_mem_nil
  | .variable _, _, _, hd => absurd hd List.not_mem_nil
  | .group e, _, _, hd => .through List.mem_cons_self (e.below_of_mem hd)
  | .unary _ e, _, _, hd => .through List.mem_cons_self (e.below_of_mem hd)
  | .binary l _ r, _, _, hd => by
    rcases List.mem_append.mp hd with hd | hd
    · exact .through List.mem_cons_self (l.below_of_mem hd)
    · exact .through (List.mem_cons_of_mem _ List.mem_cons_self) (r.below_of_mem hd)
  | .logical l _ r, _, _, hd => by
    rcases List.mem_append.mp hd with hd | hd
    · exact .through List.mem_cons_self (l.below_of_mem hd)
    · exact .through (List.mem_cons_of_mem _ List.mem_cons_self) (r.below_of_mem hd)
  | .function params result body, _, _, hd => by
    refine .through ?_ (body.below_of_mem hd)
    rw [Node.children_function]
    simp
  | .call f args, _, _, hd => by
    rcases List.mem_append.mp hd with hd | hd
    · refine .through ?_ (f.below_of_mem hd)
      rw [Node.children_call]
      exact List.mem_cons_self
    · obtain ⟨e, he, hd⟩ := exists_below_of_mem_args args hd
      refine .through ?_ hd
      rw [Node.children_call]
      exact List.mem_cons_of_mem _ (List.mem_map_of_mem he)
  | .get e x, _, _, hd => .through List.mem_cons_self (e.below_of_mem hd)
  | .record name fields, _, _, hd => by
    obtain ⟨f, hf, hd⟩ := exists_below_of_mem_fields fields hd
    refine .through ?_ hd
    rw [Node.children_record]
    exact List.mem_cons_of_mem _ (List.mem_flatMap.mpr ⟨f, hf, by simp⟩)

theorem exists_below_of_mem_args : ∀ args : List Expr, d ∈ postorderArgs args →
    ∃ e ∈ args, (Node.expr e).Below (.expr d)
  | [], hd => absurd hd List.not_mem_nil
  | e :: es, hd => by
    rcases List.mem_append.mp hd with hd | hd
    · exact ⟨e, List.mem_cons_self, e.below_of_mem hd⟩
    · obtain ⟨e', he, hd⟩ := exists_below_of_mem_args es hd
      exact ⟨e', List.mem_cons_of_mem e he, hd⟩

theorem exists_below_of_mem_fields : ∀ fields : List (Ident × Expr), d ∈ postorderFields fields →
    ∃ f ∈ fields, (Node.expr f.2).Below (.expr d)
  | [], hd => absurd hd List.not_mem_nil
  | (x, e) :: fs, hd => by
    rcases List.mem_append.mp hd with hd | hd
    · exact ⟨(x, e), List.mem_cons_self, e.below_of_mem hd⟩
    · obtain ⟨f, hf, hd⟩ := exists_below_of_mem_fields fs hd
      exact ⟨f, List.mem_cons_of_mem _ hf, hd⟩

theorem Stmt.below_of_mem : ∀ s : Stmt, d ∈ s.postorder → (Node.stmt s).Below (.expr d)
  | .expr e _, hd => .through List.mem_cons_self (e.below_of_mem hd)
  | .let_ _ _ none _, hd => absurd hd List.not_mem_nil
  | .let_ x type (some e) _, hd =>
    .through (List.mem_cons_of_mem _ (List.mem_cons_of_mem _ List.mem_cons_self)) (e.below_of_mem hd)
  | .block body _, hd => by
    obtain ⟨s, hs, hd⟩ := exists_below_of_mem_all body hd
    refine .through ?_ hd
    rw [Node.children_block]
    exact List.mem_map_of_mem hs
  | .if_ e s none _, hd => by
    rcases List.mem_append.mp hd with hd | hd
    · exact .through List.mem_cons_self (e.below_of_mem hd)
    · exact .through (List.mem_cons_of_mem _ List.mem_cons_self) (s.below_of_mem hd)
  | .if_ e s (some t) _, hd => by
    rcases List.mem_append.mp hd with hd | hd
    · exact .through List.mem_cons_self (e.below_of_mem hd)
    · rcases List.mem_append.mp hd with hd | hd
      · exact .through (List.mem_cons_of_mem _ List.mem_cons_self) (s.below_of_mem hd)
      · exact .through (List.mem_cons_of_mem _ (List.mem_cons_of_mem _ List.mem_cons_self))
          (t.below_of_mem hd)
  | .while_ e s _, hd => by
    rcases List.mem_append.mp hd with hd | hd
    · exact .through List.mem_cons_self (e.below_of_mem hd)
    · exact .through (List.mem_cons_of_mem _ List.mem_cons_self) (s.below_of_mem hd)
  | .struct .., hd => absurd hd List.not_mem_nil
  | .return_ none _, hd => absurd hd List.not_mem_nil
  | .return_ (some e) _, hd => .through List.mem_cons_self (e.below_of_mem hd)

theorem exists_below_of_mem_all : ∀ ss : List Stmt, d ∈ postorderAll ss →
    ∃ s ∈ ss, (Node.stmt s).Below (.expr d)
  | [], hd => absurd hd List.not_mem_nil
  | s :: ss, hd => by
    rcases List.mem_append.mp hd with hd | hd
    · exact ⟨s, List.mem_cons_self, s.below_of_mem hd⟩
    · obtain ⟨s', hs, hd⟩ := exists_below_of_mem_all ss hd
      exact ⟨s', List.mem_cons_of_mem s hs, hd⟩

end

end Expressions

/-! ### What judgements blame -/

/-- A fault is at a span with `S`. -/
def Judges {α : Type} (S : Span → Prop) (x : Except TypeFault α) : Prop :=
  ∀ f, x = .error f → S f.span

namespace Judges

variable {S : Span → Prop} {α β : Type}

theorem ok (a : α) : Judges S (.ok a) := fun _ h => (by cases h)

theorem error {f : TypeFault} (h : S f.span) : Judges S (.error f : Except TypeFault α) := by
  rintro _ ⟨⟩
  exact h

theorem bind {x : Except TypeFault α} {g : α → Except TypeFault β} (hx : Judges S x)
    (hg : ∀ a, Judges S (g a)) : Judges S (x >>= g) := by
  cases x with
  | error f => exact .error (hx f rfl)
  | ok a => exact hg a

theorem map {x : Except TypeFault α} {g : α → β} (hx : Judges S x) : Judges S (x.map g) := by
  cases x with
  | error f => exact .error (hx f rfl)
  | ok a => exact .ok (g a)

theorem ite {P : Prop} [Decidable P] {x y : Except TypeFault α} (hx : Judges S x)
    (hy : Judges S y) : Judges S (if P then x else y) := by
  split
  · exact hx
  · exact hy

end Judges

section Judgements

variable {S : Span → Prop} {known : String → Bool} {name : String} {span : Span}

mutual

theorem TypeExpr.unknown_blames : ∀ t : TypeExpr, (Node.type t).All S →
    t.unknown? known = some (name, span) → S span
  | .named x marked s, h, hu => by
    rw [TypeExpr.unknown?] at hu
    split at hu
    · cases hu
    · cases hu
      exact h.self
  | .function params result s, h, hu => by
    rw [TypeExpr.unknown?] at hu
    split at hu
    next found hfound =>
      cases hu
      refine unknownAmong_blames params (fun t ht => ?_) hfound
      exact h.part _ (Node.children_functionType params result) (by simp [ht])
    next => exact result.unknown_blames (h.part _ (Node.children_functionType params result) (by simp)) hu

theorem unknownAmong_blames : ∀ ts : List TypeExpr, (∀ t ∈ ts, (Node.type t).All S) →
    TypeExpr.unknownAmong? known ts = some (name, span) → S span
  | [], _, hu => by cases hu
  | t :: ts, h, hu => by
    obtain ⟨ht, hts⟩ := List.forall_mem_cons.mp h
    rw [TypeExpr.unknownAmong?] at hu
    split at hu
    next found hfound =>
      cases hu
      exact t.unknown_blames ht hfound
    next => exact unknownAmong_blames ts hts hu

end

namespace Context

variable {Γ : Context}

theorem readType_blames {t : TypeExpr} (h : (Node.type t).All S) : Judges S (Γ.readType t) := by
  rw [readType]
  split
  next name span hu => exact .error (t.unknown_blames h hu)
  next => exact .ok _

theorem readParams_blames {params : List TypedName} (h : ∀ p ∈ params, (Node.typedName p).All S) :
    Judges S (Γ.readParams params) := by
  rw [readParams]
  induction params with
  | nil => exact .ok _
  | cons p ps ih =>
    obtain ⟨hp, hps⟩ := List.forall_mem_cons.mp h
    have htype : (Node.type p.type).All S := hp.part [.ident p.name, .type p.type] rfl (by simp)
    rw [List.mapM_cons]
    exact (readType_blames htype).bind fun _ => (ih hps).bind fun _ => .ok _

theorem readFields_blames {record : String} {fields : List TypedName} (seen : List String)
    (h : ∀ f ∈ fields, (Node.typedName f).All S) : Judges S (Γ.readFields record seen fields) := by
  induction fields generalizing seen with
  | nil => exact .ok _
  | cons f fs ih =>
    obtain ⟨hf, hfs⟩ := List.forall_mem_cons.mp h
    have htype : (Node.type f.type).All S := hf.part [.ident f.name, .type f.type] rfl (by simp)
    rw [readFields]
    exact .ite (.error hf.self) ((readType_blames htype).bind fun _ => (ih _ hfs).bind fun _ => .ok _)

theorem typeOfVariable_blames {x : String} (h : S span) : Judges S (Γ.typeOfVariable x span) := by
  rw [typeOfVariable]
  split
  · exact .ok _
  · exact .error h

theorem typeOfBinary_blames {op : BinaryOp} {left right : Ty} (h : S span) :
    Judges S (Γ.typeOfBinary op span left right) :=
  .ite (.error h) (.ite (.error h) (.ok _))

theorem signature_blames {callee call : Span} {count : Nat} (hcallee : S callee) (hcall : S call)
    (t : Ty) : Judges S (signature callee call count t) := by
  cases t with
  | function params result => exact .ite (.ok _) (.error hcall)
  | named | record => exact .error hcallee

theorem typeOfMember_blames {object : Ty} {field : Ident} (h : S field.span) :
    Judges S (Γ.typeOfMember object field) := by
  have hfields : Judges S (Γ.fieldsOf object field) := by
    rw [fieldsOf.eq_def]
    split
    · exact .ok _
    · exact .error h
    · split
      · exact .error h
      · refine .ite (.error h) ?_
        split
        · exact .ok _
        · exact .error h
  refine hfields.bind fun fields => ?_
  split
  · exact .ok _
  · exact .error h

theorem checkReturned_blames {expected : Ty} {actual : Option Ty} (h : S span) :
    Judges S (Γ.checkReturned expected actual span) := by
  cases actual with
  | none => exact .error h
  | some actual => exact .ite (.ok _) (.error h)

end Context

/-! ### Function bodies -/

mutual

theorem Stmt.returns_blame : ∀ s : Stmt, (Node.stmt s).All S → ∀ r ∈ s.returns, S r.2
  | .return_ value span, h, r, hr => by
    obtain rfl := List.mem_singleton.mp hr
    exact h.self
  | .block body span, h, r, hr => by
    refine returnsAll_blame body (fun s hs => ?_) r hr
    exact h.part _ (Node.children_block body) (List.mem_map_of_mem hs)
  | .if_ e s none span, h, r, hr => s.returns_blame (h.part [.expr e, .stmt s] rfl (by simp)) r hr
  | .if_ e s (some t) span, h, r, hr => by
    rcases List.mem_append.mp hr with hr | hr
    · exact s.returns_blame (h.part [.expr e, .stmt s, .stmt t] rfl (by simp)) r hr
    · exact t.returns_blame (h.part [.expr e, .stmt s, .stmt t] rfl (by simp)) r hr
  | .while_ e s span, h, r, hr => s.returns_blame (h.part [.expr e, .stmt s] rfl (by simp)) r hr
  | .expr .., _, _, hr => by cases hr
  | .let_ .., _, _, hr => by cases hr
  | .struct .., _, _, hr => by cases hr

theorem returnsAll_blame : ∀ ss : List Stmt, (∀ s ∈ ss, (Node.stmt s).All S) →
    ∀ r ∈ Stmt.returnsAll ss, S r.2
  | [], _, _, hr => by cases hr
  | s :: ss, h, r, hr => by
    obtain ⟨hs, hss⟩ := List.forall_mem_cons.mp h
    rcases List.mem_append.mp hr with hr | hr
    · exact s.returns_blame hs r hr
    · exact returnsAll_blame ss hss r hr

end

theorem Judges.forM {α : Type} {g : α → Except TypeFault Unit} {as : List α}
    (h : ∀ a ∈ as, Judges S (g a)) : Judges S (as.forM g) := by
  induction as with
  | nil => exact .ok _
  | cons a as ih =>
    obtain ⟨ha, has⟩ := List.forall_mem_cons.mp h
    exact ha.bind fun _ => ih has

theorem Context.checkBody_blames {Γ : Context} {expected : Ty} {body : Stmt}
    (h : (Node.stmt body).All S) : Judges S (Γ.checkBody expected body) := by
  cases body with
  | expr value span => exact checkReturned_blames h.self
  | return_ value span => exact checkReturned_blames h.self
  | block ss span =>
    have hss : ∀ s ∈ ss, (Node.stmt s).All S := fun s hs =>
      h.part _ (Node.children_block ss) (List.mem_map_of_mem hs)
    rw [checkBody]
    split
    next => exact .error h.self
    next last hlast =>
      refine .ite (.forM fun r hr => ?_) (.error (hss last (List.mem_of_getLast? hlast)).self)
      exact checkReturned_blames (returnsAll_blame ss hss r hr)
  | _ => exact .error h.self

end Judgements

/-! ### What a visit blames -/

/-- A fault that ends the visit is at a span with `S`. -/
def Visit.Blames {ν α : Type} (S : Span → Prop) (v : Visit ν α) : Prop :=
  ∀ f, v.result = .error (.fault f) → S f.span

namespace Visit.Blames

variable {S : Span → Prop} {ν μ α β : Type} {v : Visit ν α} {n : ν} {c : Checker}

theorem ok (a : α) : Blames S (.done n (.ok a) c) := fun _ h => (by cases h)

theorem fault {f : TypeFault} (h : S f.span) :
    Blames S (.done n (.error (.fault f)) c : Visit ν α) := by
  rintro _ ⟨⟩
  exact h

theorem judged {x : Except TypeFault α} (h : Judges S x) :
    Blames S (.done n (x.mapError .fault) c) := by
  cases x with
  | error f => exact fault (h f rfl)
  | ok a => exact ok a

theorem map {F : ν → μ} (h : Blames S v) : Blames S (v.map F) := h

theorem judge {g : α → Except TypeFault β} (h : Blames S v) (hg : ∀ a, Judges S (g a)) :
    Blames S (v.judge g) := by
  intro f hf
  rw [Visit.judge] at hf
  split at hf
  next e he =>
    cases hf
    exact h f he
  next a ha => exact judged (n := v.nodes) (c := v.state) (hg a) f hf

theorem judgeIn {g : Context → α → Except TypeFault β} (h : Blames S v)
    (hg : ∀ Γ a, Judges S (g Γ a)) : Blames S (v.judgeIn g) :=
  h.judge (hg _)

theorem andThen {m : μ} {next : α → Checker → Visit μ β} (h : Blames S v)
    (hnext : ∀ a c, Blames S (next a c)) : Blames S (v.andThen m next) := by
  intro f hf
  cases hv : v.result with
  | error e =>
    rw [andThen_of_error hv] at hf
    cases hf
    exact h f hv
  | ok a =>
    rw [andThen_of_ok hv] at hf
    exact hnext a v.state f hf

theorem inScope {g : Checker → Visit ν α} (h : Blames S (g c.enter)) :
    Blames S (Visit.inScope c g) :=
  h

theorem record {v : Visit Form Ty} {span : Span} {slot : Option Ty} (h : Blames S v) :
    Blames S (v.record span slot) := by
  intro f hf
  cases hv : v.result with
  | error e =>
    rw [record_of_error hv] at hf
    cases hf
    exact h f hv
  | ok t =>
    cases slot with
    | none =>
      rw [record_of_empty hv] at hf
      cases hf
    | some u =>
      rw [record_of_filled hv] at hf
      cases hf

end Visit.Blames

namespace Checker

variable {S : Span → Prop} {c : Checker} {f : TypeFault}

theorem declareParams_blames {params : List TypedName} {types : List Ty}
    (h : ∀ p ∈ params, (Node.typedName p).All S)
    (hh : c.declareParams params types = .error (.fault f)) : S f.span := by
  induction params generalizing c types with
  | nil => cases hh
  | cons p ps ih =>
    obtain ⟨hp, hps⟩ := List.forall_mem_cons.mp h
    cases types with
    | nil => cases hh
    | cons t ts =>
      rw [declareParams] at hh
      split at hh
      next => exact ih hps hh
      next hd =>
        cases hh
        cases declare_error hd
        exact hp.self

theorem declareRecord_blames {x : Ident} {fields : List TypedName} (hx : S x.span)
    (h : ∀ p ∈ fields, (Node.typedName p).All S)
    (hh : c.declareRecord x fields = .error (.fault f)) : S f.span := by
  rw [declareRecord] at hh
  split at hh
  · cases hh
    exact hx
  · split at hh
    next g hg =>
      cases hh
      exact Context.readFields_blames [] h _ hg
    next => split at hh <;> cases hh

end Checker

/-! ### The walk -/

section Walk

variable {S : Span → Prop}

mutual

/-- The check of an expression blames a node of it. -/
theorem Expr.check_blames : ∀ (e : Expr) (c : Checker), (Node.expr e).All S →
    Visit.Blames S (e.check c)
  | .mk form span slot, c, h => (form.check_blames span slot c h).record

theorem Form.check_blames : ∀ (form : Form) (span : Span) (slot : Option Ty) (c : Checker),
    (Node.expr (.mk form span slot)).All S → Visit.Blames S (form.check span c)
  | .literal l, _, _, _, _ => .ok _
  | .variable x, _, _, _, h => .judged (Context.typeOfVariable_blames h.self)
  | .group e, _, _, c, h => (e.check_blames c (h.part [.expr e] rfl (by simp))).map
  | .unary _ e, _, _, c, h =>
    (e.check_blames c (h.part [.expr e] rfl (by simp))).map.judge fun _ => .ite (.ok _) (.error h.self)
  | .binary l _ r, _, _, c, h =>
    Visit.Blames.map ((l.check_blames c (h.part [.expr l, .expr r] rfl (by simp))).andThen fun _ c =>
      (r.check_blames c (h.part [.expr l, .expr r] rfl (by simp))).judgeIn fun _ _ =>
        Context.typeOfBinary_blames h.self)
  | .logical l _ r, _, _, c, h => by
    have hl : (Node.expr l).All S := h.part [.expr l, .expr r] rfl (by simp)
    have hr : (Node.expr r).All S := h.part [.expr l, .expr r] rfl (by simp)
    refine Visit.Blames.map (.andThen ((l.check_blames c hl).judge fun _ => ?_) fun _ c =>
      (r.check_blames c hr).judge fun _ => .map ?_)
    · exact .ite (.ok _) (.error hl.self)
    · exact .ite (.ok _) (.error hr.self)
  | .function params result body, span, slot, c, h => by
    have hchildren := @Node.children_function span slot params result body
    have hparams : ∀ p ∈ params, (Node.typedName p).All S := fun p hp =>
      h.part _ hchildren (by simp [hp])
    have hbody : (Node.stmt body).All S := h.part _ hchildren (by simp)
    rw [Form.check]
    split
    next f hf => exact .fault (Context.readParams_blames hparams f hf)
    next f _ hf => exact .fault (Context.readType_blames (h.part _ hchildren (by simp)) f hf)
    next =>
      refine Visit.Blames.map (.inScope ?_)
      split
      next hh =>
        rintro f ⟨⟩
        exact Checker.declareParams_blames hparams hh
      next c' _ =>
        -- the body is judged with the types that were written into it
        refine (body.check_blames c' hbody).judgeIn fun _ _ => .map (Context.checkBody_blames ?_)
        exact hbody.of_bare (congrArg Node.stmt (body.check_bare c'))
  | .call f args, span, slot, c, h => by
    have hchildren := @Node.children_call span slot f args
    have hf : (Node.expr f).All S := h.part _ hchildren (by simp)
    refine Visit.Blames.map (.andThen ((f.check_blames c hf).judge
      (Context.signature_blames hf.self h.self)) fun _ c => ?_)
    exact (checkArgs_blames args 1 _ c fun e he => h.part _ hchildren (by simp [he])).judge
      fun _ => .ok _
  | .get e x, _, _, c, h => by
    have hx : (Node.ident x).All S := h.part [.expr e, .ident x] rfl (by simp)
    refine (e.check_blames c (h.part [.expr e, .ident x] rfl (by simp))).map.judgeIn fun _ _ => ?_
    exact Context.typeOfMember_blames hx.self
  | .record name fields, span, slot, c, h => by
    have hchildren := @Node.children_record span slot name fields
    refine Visit.Blames.judge (.map (checkFields_blames fields [] c fun g hg => ⟨?_, ?_⟩)) fun _ => .ok _
    · exact h.part _ hchildren (List.mem_cons_of_mem _ (List.mem_flatMap.mpr ⟨g, hg, by simp⟩))
    · exact h.part _ hchildren (List.mem_cons_of_mem _ (List.mem_flatMap.mpr ⟨g, hg, by simp⟩))

theorem checkArgs_blames : ∀ (args : List Expr) (place : Nat) (ts : List Ty) (c : Checker),
    (∀ e ∈ args, (Node.expr e).All S) → Visit.Blames S (checkArgs place ts args c)
  | [], _, [], _, _ => .ok _
  | [], _, _ :: _, _, _ => .ok _
  | _ :: _, _, [], _, _ => .ok _
  | e :: es, place, t :: ts, c, h => by
    obtain ⟨he, hes⟩ := List.forall_mem_cons.mp h
    refine Visit.Blames.map (.andThen ((e.check_blames c he).judgeIn fun _ _ => ?_) fun _ c => ?_)
    · exact .ite (.ok _) (.error he.self)
    · exact checkArgs_blames es (place + 1) ts c hes

theorem checkFields_blames : ∀ (fields : List (Ident × Expr)) (seen : List String) (c : Checker),
    (∀ f ∈ fields, (Node.ident f.1).All S ∧ (Node.expr f.2).All S) →
    Visit.Blames S (checkFields seen fields c)
  | [], _, _, _ => .ok _
  | (x, e) :: fs, seen, c, h => by
    obtain ⟨⟨hx, he⟩, hfs⟩ := List.forall_mem_cons.mp h
    rw [checkFields]
    split
    · exact .fault hx.self
    · refine Visit.Blames.map ((e.check_blames c he).andThen fun _ c => ?_)
      exact (checkFields_blames fs (x.name :: seen) c hfs).judge fun _ => .ok _

/-- The check of a statement blames a node of it. -/
theorem Stmt.check_blames : ∀ (s : Stmt) (c : Checker), (Node.stmt s).All S →
    Visit.Blames S (s.check c)
  | .expr e _, _, h =>
    (e.check_blames _ (h.part [.expr e] rfl (by simp))).map.judge fun _ => .ok _
  | .let_ x type none _, c, h => by
    have hx : (Node.ident x).All S := h.part [.ident x, .type type] rfl (by simp)
    have htype : (Node.type type).All S := h.part [.ident x, .type type] rfl (by simp)
    rw [Stmt.check]
    split
    next f hf => exact .fault (Context.readType_blames htype f hf)
    next =>
      split
      next hh =>
        obtain rfl := Checker.declare_error hh
        exact .fault hx.self
      next => exact .ok _
  | .let_ x type (some e) _, c, h => by
    have hx : (Node.ident x).All S := h.part [.ident x, .type type, .expr e] rfl (by simp)
    have htype : (Node.type type).All S := h.part [.ident x, .type type, .expr e] rfl (by simp)
    have he : (Node.expr e).All S := h.part [.ident x, .type type, .expr e] rfl (by simp)
    rw [Stmt.check]
    split
    next f hf => exact .fault (Context.readType_blames htype f hf)
    next =>
      split
      next hh =>
        obtain rfl := Checker.declare_error hh
        exact .fault hx.self
      next =>
        refine Visit.Blames.map ((e.check_blames _ he).judgeIn fun _ _ => ?_)
        exact .ite (.ok _) (.error h.self)
  | .block body _, _, h =>
    Visit.Blames.map (.inScope (checkAll_blames body _ fun _ hs =>
      h.part _ (Node.children_block body) (List.mem_map_of_mem hs)))
  | .if_ e s none _, _, h => by
    have he : (Node.expr e).All S := h.part [.expr e, .stmt s] rfl (by simp)
    refine Visit.Blames.map (.andThen ((e.check_blames _ he).judge fun _ => ?_) fun _ c => ?_)
    · exact .ite (.ok _) (.error he.self)
    · exact s.check_blames c (h.part [.expr e, .stmt s] rfl (by simp))
  | .if_ e s (some t) _, _, h => by
    have he : (Node.expr e).All S := h.part [.expr e, .stmt s, .stmt t] rfl (by simp)
    refine Visit.Blames.map (.andThen ((e.check_blames _ he).judge fun _ => ?_) fun _ c =>
      .andThen ?_ fun _ c => ?_)
    · exact .ite (.ok _) (.error he.self)
    · exact s.check_blames c (h.part [.expr e, .stmt s, .stmt t] rfl (by simp))
    · exact t.check_blames c (h.part [.expr e, .stmt s, .stmt t] rfl (by simp))
  | .while_ e s _, _, h => by
    have he : (Node.expr e).All S := h.part [.expr e, .stmt s] rfl (by simp)
    refine Visit.Blames.map (.andThen ((e.check_blames _ he).judge fun _ => ?_) fun _ c => ?_)
    · exact .ite (.ok _) (.error he.self)
    · exact s.check_blames c (h.part [.expr e, .stmt s] rfl (by simp))
  | .struct x fields span, c, h => by
    have hchildren := @Node.children_struct span x fields
    have hx : (Node.ident x).All S := h.part _ hchildren (by simp)
    rw [Stmt.check]
    split
    next hh =>
      rintro f ⟨⟩
      refine Checker.declareRecord_blames hx.self (fun p hp => ?_) hh
      exact h.part _ hchildren (by simp [hp])
    next => exact .ok _
  | .return_ none _, _, h => .fault h.self
  | .return_ (some e) _, _, h =>
    (e.check_blames _ (h.part [.expr e] rfl (by simp))).map.judge fun _ => .ok _

theorem checkAll_blames : ∀ (ss : List Stmt) (c : Checker), (∀ s ∈ ss, (Node.stmt s).All S) →
    Visit.Blames S (checkAll ss c)
  | [], _, _ => .ok _
  | s :: ss, c, h => by
    obtain ⟨hs, hss⟩ := List.forall_mem_cons.mp h
    exact Visit.Blames.map ((s.check_blames c hs).andThen fun _ c => checkAll_blames ss c hss)

end

end Walk

end RecordLang
