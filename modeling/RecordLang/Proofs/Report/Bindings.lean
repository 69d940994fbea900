import RecordLang.Command.Run
import RecordLang.Proofs.Typing.Member
import RecordLang.Proofs.Typing.Mismatch
import RecordLang.Proofs.Verdict

/-!
# Listed bindings

The report on a source that passes the check can list the variables that are declared outside all
blocks. There is one entry for each such declaration, in the order of the text and under distinct
names. The type in an entry is that of the initial value, or the declared type if there is none
(`Stmt.Lists`). The variable itself always has the declared type, which accepts the type in the
entry but need not be the same (`bindings_list_values`): a record that is written out is listed with
its fields.
-/

namespace RecordLang

/-! ### Variables of a scope -/

namespace Context

variable {Γ Δ : Context} {x : String} {t u : Ty}

theorem findVariable_of_current (hx : Γ.current.findSome? (Entry.variableOf x) = some t) :
    Γ.findVariable x = some t := by
  rw [findVariable, ← List.takeWhile_append_dropWhile (p := fun e => !e.isScope) (l := Γ.entries),
    List.findSome?_append, ← current, hx]; rfl

/-- In `Δ` the variable has just been declared with the type, and `Γ` comes later in that scope. -/
def Since (Γ Δ : Context) (x : String) (t : Ty) : Prop :=
  ∃ Θ ds, Allows Θ (.variable x t) ∧ Δ = Θ.extend [.variable x t] ∧ Δ.Admits ds ∧ Γ = Δ.extend ds

/-- A variable keeps its type as long as its scope is not left. -/
theorem Since.findVariable (h : Γ.Since Δ x t) : Γ.findVariable x = some t := by
  obtain ⟨Θ, ds, hx, rfl, hds, rfl⟩ := h
  refine findVariable_of_current ?_
  rw [hds.variable_current, hx.current]
  simp [Entry.variableOf]

theorem Since.suffix (h : Γ.Since Δ x t) : Δ.entries <:+ Γ.entries := by
  obtain ⟨Θ, ds, -, rfl, -, rfl⟩ := h
  exact List.suffix_append ..

theorem Since.wellFormed (h : Γ.Since Δ x t) (hΓ : Γ.WellFormed) : Δ.WellFormed := by
  obtain ⟨Θ, ds, hx, rfl, -, rfl⟩ := h
  have hΘ := (hΓ.allows (show (extend _ ds).entries = ds.reverse ++ .variable x t :: Θ.entries from
    rfl)).1
  exact hΘ.declare hx

theorem Since.knows (h : Γ.Since Δ x t) : Δ.Knows t := by
  obtain ⟨Θ, ds, hx, rfl, -, -⟩ := h
  have hadmits : Θ.Admits [.variable x t] := ⟨hx, Context.admits_nil⟩
  exact hadmits.knows hx.1

/-- With a reference to a record put in, a name is a record; any other name stays as it is. -/
theorem WellFormed.resolve_named (h : Γ.WellFormed) (name : String) (optional : Bool) :
    Γ.resolve (.named name optional) = .named name optional ∨
      ∃ fields, Γ.resolve (.named name optional) = .record fields := by
  cases optional with
  | true => exact .inl (Γ.resolve_optional name)
  | false =>
    cases hb : Ty.isBuiltin name with
    | true => exact .inl (Γ.resolve_builtin hb false)
    | false =>
      cases hx : Γ.findRecord name with
      | none => exact .inl (resolve_unknown hx)
      | some schema =>
        obtain ⟨fields, rfl⟩ := h.schema_eq_record hx
        rw [h.resolve_reference hb hx, resolve_record]
        exact .inr ⟨_, rfl⟩

end Context

section Written

variable {Γ : Context}

mutual

/-- A written type without references to records accepts no other type. -/
theorem TypeExpr.eq_of_accepts (h : Γ.WellFormed) : ∀ (type : TypeExpr) {u : Ty},
    type.ty.Resolved → Γ.accepts type.ty u = true → u = type.ty
  | .named name optional _, u, hr, ha => by
    rw [Context.accepts, hr.resolve] at ha
    have hu : Γ.resolve u = .named name optional := Ty.named_accepts.mp ha
    cases u with
    | named n q =>
      rcases h.resolve_named n q with hn | ⟨fields, hn⟩
      · exact hn.symm.trans hu
      · cases hn.symm.trans hu
    | function params result => cases (Γ.resolve_function params result).symm.trans hu
    | record fields => cases (Γ.resolve_record fields).symm.trans hu
  | .function params result _, u, hr, ha => by
    rw [Context.accepts, hr.resolve] at ha
    obtain ⟨hps, hres⟩ := Ty.resolved_function.mp hr
    obtain ⟨us, v, hu, hus, hv⟩ := Ty.function_accepts.mp ha
    cases u with
    | named n q =>
      rcases h.resolve_named n q with hn | ⟨fields, hn⟩
      · cases hn.symm.trans hu
      · cases hn.symm.trans hu
    | record fields => cases (Γ.resolve_record fields).symm.trans hu
    | function params' result' =>
      rw [Γ.resolve_function, Ty.function.injEq] at hu
      obtain ⟨rfl, rfl⟩ := hu
      have hparams := TypeExpr.eq_of_acceptsAll h params hps (List.forall₂_map_right_iff.mp hus)
      have hresult : result' = result.ty := by
        refine result.eq_of_accepts h hres ?_
        rwa [Context.accepts, hres.resolve]
      rw [hparams, hresult, TypeExpr.ty]

theorem TypeExpr.eq_of_acceptsAll (h : Γ.WellFormed) : ∀ (types : List TypeExpr) {us : List Ty},
    (∀ t ∈ TypeExpr.tys types, t.Resolved) →
    List.Forall₂ (fun t u => t.accepts (Γ.resolve u) = true) (TypeExpr.tys types) us →
      us = TypeExpr.tys types
  | [], _, _, .nil => rfl
  | type :: types, u :: us, hr, .cons ha has => by
    obtain ⟨ht, hts⟩ := List.forall_mem_cons.mp hr
    have hfirst : u = type.ty := by
      refine type.eq_of_accepts h ht ?_
      rwa [Context.accepts, ht.resolve]
    rw [hfirst, TypeExpr.eq_of_acceptsAll h types hts has, TypeExpr.tys]

end

end Written

/-! ### Entries -/

namespace Stmt

variable {t : Stmt} {c : Checker} {ds : List Entry}

/-- The statement declares a variable. -/
def isLet : Stmt → Bool
  | let_ .. => true
  | _ => false

/-- The entry for the declaration of a variable, seen from a later context `Γ`: it has the name, and
the type that the initial value has where the variable has just been declared. Without an initial
value it has the declared type. -/
inductive Lists (Γ : Context) : Stmt → Binding → Prop
  | declared {x : Ident} {type : TypeExpr} {span : Span} {Δ : Context}
      (since : Γ.Since Δ x.name type.ty) :
      Lists Γ (.let_ x type none span) ⟨x.name, type.ty⟩
  | initialized {x : Ident} {type : TypeExpr} {e : Expr} {span : Span} {Δ : Context} {u : Ty}
      (since : Γ.Since Δ x.name type.ty) (value : HasType .any Δ e u)
      (fits : Δ.accepts type.ty u = true) :
      Lists Γ (.let_ x type (some e) span) ⟨x.name, u⟩

theorem Lists.declarations {Γ : Context} {b : Binding} (h : t.Lists Γ b) :
    ∃ T, t.declarations = [.variable b.name T] := by
  cases h <;> exact ⟨_, rfl⟩

/-- The variable has the declared type. It accepts the listed type, and has the same text only if it
is the same type. That is so if no name in it refers to a record. -/
theorem Lists.shows {Γ : Context} {b : Binding} (h : t.Lists Γ b) (hΓ : Γ.WellFormed)
    (hlegible : Γ.Legible) (hw : (Node.stmt t).Worded) :
    ∃ T, Γ.findVariable b.name = some T ∧ Γ.accepts T b.type = true ∧
      (b.type.render = T.render ↔ b.type = T) ∧ (T.Resolved → b.type = T) := by
  cases h with
  | declared since =>
    have hx := since.findVariable
    exact ⟨_, hx, hlegible.ordered.accepts_self (hlegible.findVariable hx).ordered,
      ⟨fun _ => rfl, fun _ => rfl⟩, fun _ => rfl⟩
  | @initialized x type e span Δ u since value fits =>
    have hx := since.findVariable
    have hΔ : Δ.Legible := fun d hd => hlegible d (since.suffix.subset hd)
    have hu : u.Legible := value.legible hΔ
      (hw.part [.ident x, .type type, .expr e] rfl (by simp))
    have haccepts : Γ.accepts type.ty u = true :=
      hΓ.accepts_inner (since.wellFormed hΓ) since.suffix since.knows.sees fits
    refine ⟨type.ty, hx, haccepts, ⟨fun hr => ?_, fun he => congrArg Ty.render he⟩, fun hr => ?_⟩
    · exact Ty.render_inj hu.spelled (hlegible.findVariable hx).spelled hr
    · exact type.eq_of_accepts hΓ hr haccepts

theorem isLet_bare (t : Stmt) : t.bare.isLet = t.isLet := by
  cases t with
  | let_ _ _ value _ => cases value <;> rfl
  | if_ _ _ whenFalse _ => cases whenFalse <;> rfl
  | return_ value _ => cases value <;> rfl
  | _ => rfl

theorem isLet_check (t : Stmt) (c : Checker) : (t.check c).nodes.isLet = t.isLet := by
  rw [← isLet_bare, t.check_bare, isLet_bare]

theorem binding?_of_not_isLet (h : t.isLet = false) : t.binding? = none := by
  cases t with
  | let_ => cases h
  | _ => rfl

/-- A declaration that passes is listed, from whatever comes later in its scope. -/
theorem check_lists (hlet : t.isLet = true) (h : (t.check c).result = .ok ())
    (hds : (t.check c).state.context.Admits ds) : ∃ b, (t.check c).nodes.binding? = some b ∧
      t.Lists ((t.check c).state.context.extend ds) b := by
  cases t with
  | let_ x type value span =>
    by_cases hx : c.context.Allows (.variable x.name type.ty)
    · have hsince : ∀ ds, (c.context.extend [.variable x.name type.ty]).Admits ds →
          ((c.context.extend [.variable x.name type.ty]).extend ds).Since
            (c.context.extend [.variable x.name type.ty]) x.name type.ty :=
        fun ds hds => ⟨c.context, ds, hx, rfl, hds, rfl⟩
      cases value with
      | none =>
        rw [check_let_none hx] at hds ⊢
        exact ⟨_, rfl, .declared (hsince ds hds)⟩
      | some e =>
        rw [check_let_some hx] at h hds ⊢
        rw [Visit.map_result] at h
        obtain ⟨u, hu, hfit⟩ := Visit.judgeIn_eq_ok.mp h
        rw [Visit.map_state, Visit.judgeIn_state, e.check_context] at hds ⊢
        rw [e.check_context, Context.checkInitial_eq_ok] at hfit
        obtain ⟨hany, hwritten⟩ := e.check_sound _ hu
        refine ⟨⟨x.name, u⟩, ?_, .initialized (hsince ds hds) hany hfit⟩
        rw [Visit.map_nodes, Visit.judgeIn_nodes, binding?, Option.bind_some, hwritten.type_eq,
          Option.getD_some]
    · obtain ⟨f, hf⟩ := check_let_of_refused hx value span
      rw [hf] at h
      cases h
  | _ => cases hlet

end Stmt

section Walk

variable {t : Stmt} {ss : List Stmt} {c : Checker}

/-- A statement that passes adds its entry, if it has one, to those of the statements after it. -/
theorem bindings_checkAll_cons (h : (t.check c).result = .ok ()) :
    (checkAll (t :: ss) c).nodes.filterMap Stmt.binding? =
      (t.check c).nodes.binding?.toList ++
        (checkAll ss (t.check c).state).nodes.filterMap Stmt.binding? := by
  rw [checkAll, Visit.map_nodes, Visit.andThen_of_ok h]
  show ((t.check c).nodes :: (checkAll ss (t.check c).state).nodes).filterMap Stmt.binding? = _
  rw [List.filterMap_cons]
  cases (t.check c).nodes.binding? <;> rfl

/-- Statements that pass one after another: each declaration among them is listed, from the context
at the end. -/
theorem checkAll_lists (h : (checkAll ss c).result = .ok ()) :
    List.Forall₂ (Stmt.Lists (checkAll ss c).state.context) (ss.filter Stmt.isLet)
      ((checkAll ss c).nodes.filterMap Stmt.binding?) := by
  induction ss generalizing c with
  | nil => exact .nil
  | cons t ss ih =>
    obtain ⟨⟨⟩, ht, hss⟩ := Visit.andThen_eq_ok.mp h
    have hrest := ih hss
    obtain ⟨hadmits, hcontext⟩ := (checkAll_declares ss (t.check c).state).ok hss
    rw [bindings_checkAll_cons ht, checkAll, Visit.map_state, Visit.andThen_of_ok ht]
    cases hlet : t.isLet with
    | false =>
      have hnone := Stmt.binding?_of_not_isLet ((t.isLet_check c).trans hlet)
      rw [List.filter_cons_of_neg (by simp [hlet]), hnone]
      exact hrest
    | true =>
      obtain ⟨b, hb, hlists⟩ := Stmt.check_lists hlet ht hadmits
      rw [List.filter_cons_of_pos hlet, hb]
      rw [← hcontext] at hlists
      exact .cons hlists hrest

/-- The listed names are distinct, and new in the scope in which the statements are checked. -/
theorem checkAll_names_new (h : (checkAll ss c).result = .ok ()) :
    (((checkAll ss c).nodes.filterMap Stmt.binding?).map Binding.name).Nodup ∧
      ∀ b ∈ (checkAll ss c).nodes.filterMap Stmt.binding?,
        c.context.current.findSome? (Entry.variableOf b.name) = none := by
  induction ss generalizing c with
  | nil => exact ⟨List.nodup_nil, fun _ hb => absurd hb List.not_mem_nil⟩
  | cons t ss ih =>
    obtain ⟨⟨⟩, ht, hss⟩ := Visit.andThen_eq_ok.mp h
    obtain ⟨hnodup, hnew⟩ := ih hss
    obtain ⟨hadmits, hcontext⟩ := (t.check_declares c).ok ht
    rw [t.declaredAll_parts] at hadmits hcontext
    rw [bindings_checkAll_cons ht]
    -- what is new after the first statement is new before it, and not declared by it
    have hbefore : ∀ x, (t.check c).state.context.current.findSome? (Entry.variableOf x) = none →
        c.context.current.findSome? (Entry.variableOf x) = none ∧
          t.declarations.findSome? (Entry.variableOf x) = none := by
      intro x hx
      rw [hcontext, hadmits.variable_current] at hx
      exact Option.or_eq_none_iff.mp hx
    cases hlet : t.isLet with
    | false =>
      have hnone := Stmt.binding?_of_not_isLet ((t.isLet_check c).trans hlet)
      rw [hnone]
      exact ⟨hnodup, fun b hb => (hbefore b.name (hnew b hb)).1⟩
    | true =>
      obtain ⟨b, hb, hlists⟩ := Stmt.check_lists hlet ht Context.admits_nil
      obtain ⟨T, hdeclares⟩ := hlists.declarations
      rw [hdeclares] at hadmits
      rw [hb, Option.toList_some, List.singleton_append, List.map_cons, List.nodup_cons,
        List.forall_mem_cons]
      refine ⟨⟨fun hm => ?_, hnodup⟩, hadmits.1.2, fun b hb => (hbefore b.name (hnew b hb)).1⟩
      obtain ⟨b', hb', hname⟩ := List.mem_map.mp hm
      have hagain := (hbefore b'.name (hnew b' hb')).2
      simp [hdeclares, hname, Entry.variableOf] at hagain

end Walk

/-! ### Reports -/

/-- A source that passes was read without faults, and its program has the types that were found. -/
theorem analyze_checked {s : Source} (h : (analyze s).typeChecked = true) :
    ∃ p, s.parse = (some p, .empty) ∧ (p.check .new).result = .ok () ∧
      (analyze s).program = some (p.check .new).nodes := by
  rw [analyze] at h ⊢
  cases hclean : s.parse.2.nonempty with
  | true =>
    rcases hparse : s.parse with ⟨_ | p, ds⟩
    · rw [hparse] at h
      cases h
    · rw [hparse] at h hclean
      simp only [hclean] at h
      cases h
  | false =>
    obtain ⟨-, p, hparse⟩ := Source.parse_eq_of_clean hclean
    have hempty : (Capped.empty : Diagnostics).nonempty = false := rfl
    rw [hparse] at h ⊢
    simp only [hempty] at h ⊢
    rcases hresult : (p.check .new).result with (f | _) | _
    · rw [hresult] at h
      cases h
    · rw [hresult] at h
      cases h
    · exact ⟨p, rfl, hresult, rfl⟩

/-- Entries are listed only for a source that passes the check. -/
theorem typeChecked_of_bindings {d : Bool} {s : Source}
    (h : (FileReport.ofSource d s).bindings ≠ []) : (analyze s).typeChecked = true := by
  by_contra hfaults
  rw [Bool.not_eq_true] at hfaults
  refine h ?_
  rw [FileReport.ofSource]
  simp only [hfaults, Bool.and_false, Bool.false_eq_true, if_false]
  split <;> rfl

/-- For a source that passes the check, one entry is listed for each declaration of a variable
outside all blocks, in their order and under distinct names. At the end of the check the variable of
that name has the declared type. The entry shows the type of the initial value, if there is one,
which the declared type accepts; so its text is that of the variable's type exactly if the two types
are the same. They are the same if no name in the variable's type refers to a record. -/
theorem bindings_list_values (s : Source) (h : (analyze s).typeChecked = true) :
    ∃ p, s.parse = (some p, .empty) ∧ (p.check .new).result = .ok () ∧
      let Γ := (p.check .new).state.context
      let listed := (FileReport.ofSource true s).bindings
      (listed.map Binding.name).Nodup ∧
      List.Forall₂ (fun t b => t.Lists Γ b ∧
        ∃ T, Γ.findVariable b.name = some T ∧ Γ.accepts T b.type = true ∧
          (b.type.render = T.render ↔ b.type = T) ∧ (T.Resolved → b.type = T))
        (p.body.filter Stmt.isLet) listed := by
  obtain ⟨p, hparse, hresult, hprogram⟩ := analyze_checked h
  have hp : (parse s.lex.tokens).program = some p := congrArg Prod.fst hparse
  have hlisted : (FileReport.ofSource true s).bindings =
      (checkAll p.body .new).nodes.filterMap Stmt.binding? := by
    simp only [FileReport.ofSource, hprogram, h, Bool.and_true, if_true]
    rw [Program.bindings, p.check_nodes]
  have hreachable : (p.check .new).state.Reachable := .program .new p
  have hsources : (p.check .new).state.FromSources := .check .new hp
  refine ⟨p, hparse, hresult, ?_⟩
  rw [p.check_result] at hresult
  intro Γ listed
  have hforall := checkAll_lists hresult
  rw [← hlisted, ← p.check_context] at hforall
  refine ⟨?_, ?_⟩
  · show ((FileReport.ofSource true s).bindings.map Binding.name).Nodup
    rw [hlisted]
    exact (checkAll_names_new hresult).1
  · have hworded : ∀ t ∈ p.body.filter Stmt.isLet, (Node.stmt t).Worded := fun t ht =>
      parse_worded hp t (List.mem_of_mem_filter ht)
    refine ((List.forall₂_and_left _ _).mpr ⟨hworded, hforall⟩).imp ?_
    rintro t b ⟨hw, hlists⟩
    exact ⟨hlists, hlists.shows hreachable.wellFormed hsources.legible hw⟩

/-- A point, the same point under another name, and one of its coordinates. -/
def Source.namedPoints : Source :=
  ⟨"points",
    "struct P \x7b x: int \x7d\nlet p: P = P \x7b x: 1 \x7d\nlet q: P = p\nlet n: int = q.x"⟩

theorem Source.namedPoints_bindings :
    (FileReport.ofSource true .namedPoints).bindings.map (fun b => (b.name, b.type.render)) =
      [("p", "\x7b x: int \x7d"), ("q", "P"), ("n", "int")] := by
  decide +kernel

/-- The point that is written out is listed with its fields, and the others with the types that they
were declared with. -/
theorem Source.namedPoints_listed :
    (analyze .namedPoints).typeChecked = true ∧
      let listed := (FileReport.ofSource true .namedPoints).bindings
      listed.map (fun b => (b.name, b.type.render)) =
        [("p", "\x7b x: int \x7d"), ("q", "P"), ("n", "int")] ∧
      ∃ p : Program, (p.check .new).result = .ok () ∧
        List.Forall₂ (fun t b => t.Lists (p.check .new).state.context b ∧
            ∃ T, (p.check .new).state.context.findVariable b.name = some T ∧
              (b.type.render = T.render ↔ b.type = T))
          (p.body.filter Stmt.isLet) listed := by
  have hchecked : (analyze .namedPoints).typeChecked = true := by
    refine typeChecked_of_bindings (d := true) fun hnil => ?_
    have hlisted := Source.namedPoints_bindings
    rw [hnil] at hlisted
    cases hlisted
  refine ⟨hchecked, namedPoints_bindings, ?_⟩
  obtain ⟨p, -, hresult, -, hlisted⟩ := bindings_list_values .namedPoints hchecked
  refine ⟨p, hresult, hlisted.imp ?_⟩
  rintro t b ⟨hlists, T, hx, -, htext, -⟩
  exact ⟨hlists, T, hx, htext⟩

/-- The variable `p` has the type `P`, and the entry for it shows another text. -/
theorem Source.namedPoints_not_by_name :
    (Source.namedPoints.parse.1.bind fun p => (p.check .new).state.context.findVariable "p") =
        some (.named "P" false) ∧
      (Ty.named "P" false).render = "P" ∧
      ((FileReport.ofSource true .namedPoints).bindings.find? fun b => b.name == "p").map
        (fun b => b.type.render) = some "\x7b x: int \x7d" := by
  refine ⟨by decide +kernel, by decide, ?_⟩
  let entry := fun b : Binding => (b.name, b.type.render)
  calc ((FileReport.ofSource true .namedPoints).bindings.find? fun b => b.name == "p").map
        (fun b => b.type.render)
      = (((FileReport.ofSource true .namedPoints).bindings.map entry).find?
          fun e => e.1 == "p").map Prod.snd := by rw [List.find?_map, Option.map_map]; rfl
    _ = some "\x7b x: int \x7d" := by rw [namedPoints_bindings]; rfl

end RecordLang
