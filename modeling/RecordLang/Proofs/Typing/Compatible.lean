import RecordLang.Proofs.Typing.Meaning

/-!
# Acceptance as an order

Acceptance is a partial order on types, and in every context that a checker can come to a preorder
whose classes are the types that resolve to one type (`accepts_is_partial_order`).

Functions take part in this order with their parameters in the same direction as their results. So
a function may be accepted where its parameter type asks for more fields than the declared one. It
then takes every argument of the declared type only if the two parameter types resolve to one type
(`Checker.Reachable.parameter_takes_iff`), and else an argument may lack a field that the body reads
(`Program.widerParameter_accepted`).
-/

namespace RecordLang

namespace Context

variable {Γ : Context} {t u v : Ty}

/-! ### Acceptance in a context -/

theorem accepts_trans (h : Γ.accepts t u = true) (h' : Γ.accepts u v = true) :
    Γ.accepts t v = true :=
  Ty.accepts_trans h h'

/-- Two ordered types accept each other exactly if they mean the same. -/
theorem Ordered.accepts_both_iff (h : Γ.Ordered) (ht : t.Ordered) (hu : u.Ordered) :
    Γ.accepts t u = true ∧ Γ.accepts u t = true ↔ Γ.resolve t = Γ.resolve u := by
  constructor
  · rintro ⟨htu, hut⟩
    exact (h.resolve ht).accepts_antisymm (h.resolve hu) htu hut
  · intro he
    unfold accepts
    rw [he]
    exact ⟨(h.resolve hu).accepts_self, (h.resolve hu).accepts_self⟩

/-- A function of one parameter is accepted if its parameter and its result are. -/
theorem accepts_function {param param' result result' : Ty} :
    Γ.accepts (.function [param] result) (.function [param'] result') = true ↔
      Γ.accepts param param' = true ∧ Γ.accepts result result' = true := by
  rw [accepts, resolve_function, resolve_function, Ty.function_accepts]
  constructor
  · rintro ⟨_, _, he, hp, hr⟩
    cases he
    exact ⟨(List.forall₂_cons.mp hp).1, hr⟩
  · rintro ⟨hp, hr⟩
    exact ⟨_, _, rfl, .cons hp .nil, hr⟩

/-- What is accepted where a record is expected is a record with all its fields. -/
theorem fields_of_accepts {fields : List (String × Ty)} (h : Γ.accepts t u = true)
    (ht : Γ.resolve t = .record fields) :
    ∃ fields', Γ.resolve u = .record fields' ∧
      ∀ f ∈ fields, ∃ v, fields'.lookup f.1 = some v ∧ f.2.accepts v = true := by
  rw [accepts, ht] at h
  exact Ty.record_accepts.mp h

end Context

/-! ### An order on types -/

/-- Acceptance is a partial order on types, whose records have their fields in order. In every
context that a checker can come to, where the resolution of known types comes to an end, it is a
preorder, and two types accept each other exactly if they resolve to the same type. The types that a
check finds have their fields in order. -/
theorem accepts_is_partial_order :
    (∀ t : Ty, t.Ordered → t.accepts t = true) ∧
    (∀ t u v : Ty, t.accepts u = true → u.accepts v = true → t.accepts v = true) ∧
    (∀ t u : Ty, t.Ordered → u.Ordered → (t.accepts u = true ∧ u.accepts t = true ↔ t = u)) ∧
    ∀ c : Checker, c.Reachable →
      (∀ t, c.context.Knows t → ∀ u, Resolves c.context t u ↔ u = c.context.resolve t) ∧
      (∀ t, t.Ordered → c.context.accepts t t = true) ∧
      (∀ t u v, c.context.accepts t u = true → c.context.accepts u v = true →
        c.context.accepts t v = true) ∧
      (∀ t u, t.Ordered → u.Ordered →
        (c.context.accepts t u = true ∧ c.context.accepts u t = true ↔
          c.context.resolve t = c.context.resolve u)) ∧
      ∀ (e : Expr) (t : Ty), (e.check c).result = .ok t → t.Ordered := by
  refine ⟨fun t ht => ht.accepts_self, fun t u v => Ty.accepts_trans, ?_, ?_⟩
  · intro t u ht hu
    constructor
    · rintro ⟨htu, hut⟩
      exact ht.accepts_antisymm hu htu hut
    · rintro rfl
      exact ⟨ht.accepts_self, ht.accepts_self⟩
  · intro c hc
    have hΓ := hc.ordered
    refine ⟨fun t ht u => hc.wellFormed.resolves_iff ht, fun t ht => hΓ.accepts_self ht,
      fun t u v => Context.accepts_trans, fun t u ht hu => hΓ.accepts_both_iff ht hu, ?_⟩
    intro e t he
    exact (e.check_sound c he).1.ordered hΓ

/-- The name of a record and the record with its field accept each other, and stand below a record
with more fields. -/
theorem Program.nestedRecords_ordered :
    let Γ := (Program.nestedRecords.check .new).state.context
    let p : Ty := .named "P" false
    let plain : Ty := .record [("n", .int)]
    let wide : Ty := .record [("m", .function [p] .bool), ("n", .int)]
    plain.Ordered ∧ wide.Ordered ∧ plain.accepts wide = true ∧ wide.accepts plain = false ∧
      p ≠ plain ∧ Γ.accepts p plain = true ∧ Γ.accepts plain p = true ∧
      Γ.accepts p wide = true := by
  intro Γ p plain wide
  have hp : p.Ordered := .named "P" false
  have hplain : plain.Ordered :=
    .record (List.pairwise_singleton _ _) (List.forall_mem_singleton.mpr (.named _ _))
  have hwide : wide.Ordered := by
    refine .record (List.pairwise_pair.mpr (by decide)) (List.forall_mem_cons.mpr ⟨?_, ?_⟩)
    · exact .function (List.forall_mem_singleton.mpr hp) (.named _ _)
    · exact List.forall_mem_singleton.mpr (.named _ _)
  obtain ⟨-, -, -, hc⟩ := accepts_is_partial_order
  obtain ⟨-, -, trans, both, -⟩ := hc _ (.program .new Program.nestedRecords)
  obtain ⟨hl, hr⟩ := (both p plain hp hplain).mpr rfl
  exact ⟨hplain, hwide, rfl, rfl, by decide, hl, hr, trans p plain wide hl rfl⟩

/-! ### Parameters -/

/-- A function is accepted at a declared function type if the type `own` of its parameter is
accepted where the declared one is expected. It then takes whatever the declared type admits exactly
if the two types mean the same; in that case an argument has every field that the body may read.
What `own` admits, the declared type admits in any case. -/
theorem Checker.Reachable.parameter_takes_iff {c : Checker} (h : c.Reachable)
    {declared own result result' : Ty} (hdeclared : declared.Ordered) (hown : own.Ordered)
    (known : c.context.Knows declared)
    (accepted : c.context.accepts (.function [declared] result) (.function [own] result') = true) :
    ((∀ t, t.Ordered → c.context.Knows t → c.context.accepts declared t = true →
        c.context.accepts own t = true) ↔ c.context.resolve declared = c.context.resolve own) ∧
    (c.context.resolve declared = c.context.resolve own →
      ∀ t, c.context.accepts declared t = true → c.context.accepts own t = true ∧
        ∀ fields, c.context.resolve own = .record fields →
          ∃ fields', c.context.resolve t = .record fields' ∧
            ∀ f ∈ fields, ∃ u, fields'.lookup f.1 = some u ∧ f.2.accepts u = true) ∧
    ∀ t, c.context.accepts own t = true → c.context.accepts declared t = true := by
  have hΓ := h.ordered
  have hparam := (Context.accepts_function.mp accepted).1
  -- types with one meaning admit the same
  have same : c.context.resolve declared = c.context.resolve own →
      ∀ t, c.context.accepts declared t = true → c.context.accepts own t = true := by
    intro he t ht
    exact Context.accepts_trans ((hΓ.accepts_both_iff hown hdeclared).mpr he.symm).1 ht
  refine ⟨⟨fun takes => ?_, fun he t _ _ => same he t⟩, fun he t ht => ?_, fun t ht => ?_⟩
  · -- the declared type admits itself
    have hself := takes declared hdeclared known (hΓ.accepts_self hdeclared)
    exact (hΓ.accepts_both_iff hdeclared hown).mp ⟨hparam, hself⟩
  · have hown := same he t ht
    exact ⟨hown, fun fields hf => Context.fields_of_accepts hown hf⟩
  · exact Context.accepts_trans hparam ht

/-- A function on the fields of `P` takes every value of `P`, with further fields too. -/
theorem Program.nestedRecords_takes :
    let c := (Program.nestedRecords.check .new).state
    let p : Ty := .named "P" false
    let plain : Ty := .record [("n", .int)]
    let wide : Ty := .record [("m", .bool), ("n", .int)]
    c.Reachable ∧ c.context.Knows p ∧
      c.context.accepts (.function [p] .int) (.function [plain] .int) = true ∧
      c.context.accepts p wide = true ∧ c.context.accepts plain wide = true := by
  intro c p plain wide
  have h : c.Reachable := .program .new _
  have hp : c.context.Knows p := Context.knows_named.mpr rfl
  have hplain : plain.Ordered :=
    .record (List.pairwise_singleton _ _) (List.forall_mem_singleton.mpr (.named _ _))
  have htakes := @Checker.Reachable.parameter_takes_iff c h p plain .int .int (.named "P" false)
    hplain hp rfl
  exact ⟨h, hp, rfl, rfl, (htakes.2.1 rfl wide rfl).1⟩

/-- A function that reads a field of `Q`, under a type that declares its parameter as `P`, and a
call with a value of `P`:
`struct P { x: int } struct Q { x: int, y: int } let g: (Q) -> int = fn(q: Q): int => q.y`
`let f: (P) -> int = g let p: P let a: int = f(p)`. -/
def Program.widerParameter : Program :=
  let name (x : String) : Ident := ⟨x, default⟩
  let type (x : String) : TypeExpr := .named x false default
  let typed (x t : String) : TypedName := ⟨name x, type t, default⟩
  let on (x : String) : TypeExpr := .function [type x] (type "int") default
  let var (x : String) : Expr := .new (.variable x) default
  let body : Stmt := .expr (.new (.get (var "q") (name "y")) default) default
  ⟨[.struct (name "P") [typed "x" "int"] default,
    .struct (name "Q") [typed "x" "int", typed "y" "int"] default,
    .let_ (name "g") (on "Q") (some (.new (.function [typed "q" "Q"] (type "int") body) default))
      default,
    .let_ (name "f") (on "P") (some (var "g")) default,
    .let_ (name "p") (type "P") none default,
    .let_ (name "a") (type "int") (some (.new (.call (var "f") [var "p"]) default)) default],
    default⟩

/-- A function does not take every argument of the type it is accepted at: the one that reads `y` is
accepted where a function on `P` is declared, and there it is called with a value of `P`, which its
own parameter type does not admit and which has no `y`. -/
theorem Program.widerParameter_accepted :
    let c := (Program.widerParameter.check .new).state
    let p : Ty := .named "P" false
    let q : Ty := .named "Q" false
    (Program.widerParameter.check .new).result = .ok () ∧ c.Reachable ∧
      c.context.Knows p ∧ c.context.Knows q ∧
      c.context.accepts (.function [p] .int) (.function [q] .int) = true ∧
      c.context.accepts p p = true ∧ c.context.accepts q p = false ∧
      c.context.resolve p = .record [("x", .int)] ∧
      c.context.resolve q = .record [("x", .int), ("y", .int)] := by
  intro c p q
  have hp : c.context.Knows p := Context.knows_named.mpr rfl
  have hq : c.context.Knows q := Context.knows_named.mpr rfl
  exact ⟨rfl, .program .new _, hp, hq, rfl, rfl, rfl, rfl, rfl⟩

end RecordLang
