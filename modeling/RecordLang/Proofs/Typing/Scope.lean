import RecordLang.Proofs.Typing.Visit

/-!
# What a check leaves in its scope

An expression leaves the context as it was, however its check ends. A statement adds declarations to
the current scope and touches nothing else. `Stmt.parts` is what a statement checks in its own
scope, in order; a check goes through the parts and stops at the first that fails, so what it has
declared then are the declarations before that part and, if the part is a variable whose initial
value failed, this variable (`Declares`).
-/

namespace RecordLang

/-! ### Parts of a statement -/

/-- Something that is checked in the scope of a statement: a condition, or a statement that is not
made of others in the same scope. -/
inductive StmtPart where
  | condition (keyword : Keyword) (e : Expr)
  | simple (s : Stmt)

namespace Stmt

/-- What a statement checks in its own scope, in order. -/
def parts : Stmt → List StmtPart
  | if_ e s none _ => .condition .if_ e :: s.parts
  | if_ e s (some t) _ => .condition .if_ e :: (s.parts ++ t.parts)
  | while_ e s _ => .condition .while_ e :: s.parts
  | s => [.simple s]

/-- What a statement declares in its own scope, outside blocks and functions, in order. -/
def declarations : Stmt → List Entry
  | let_ x type _ _ => [.variable x.name type.ty]
  | struct x fields _ => [.record x.name (TypedName.schema fields)]
  | if_ _ s none _ => s.declarations
  | if_ _ s (some t) _ => s.declarations ++ t.declarations
  | while_ _ s _ => s.declarations
  | expr .. | block .. | return_ .. => []

end Stmt

namespace StmtPart

/-- What a part declares if it does not fail. -/
def declared : StmtPart → List Entry
  | condition .. => []
  | simple s => s.declarations

/-- How the check of a part ends. -/
def result : StmtPart → Checker → Except Halt Unit
  | condition keyword e, c => ((e.check c).judge (Context.checkCondition keyword e.span)).result
  | simple s, c => (s.check c).result

/-- The part fails when it is checked in the context. -/
def Fails (p : StmtPart) (Γ : Context) (h : Halt) : Prop :=
  ∃ c : Checker, c.context = Γ ∧ p.result c = .error h

/-- What a failing part has declared: a variable that could be declared, so that its initial value
is what failed, and otherwise nothing. -/
inductive Leaves (Γ : Context) : StmtPart → List Entry → Prop
  | initial {x : Ident} {type : TypeExpr} {e : Expr} {span : Span}
      (allowed : Γ.Allows (.variable x.name type.ty)) :
      Leaves Γ (simple (.let_ x type (some e) span)) [.variable x.name type.ty]
  | nothing {p : StmtPart}
      (refused : ∀ x type e span, p = simple (.let_ x type (some e) span) →
        ¬ Γ.Allows (.variable x.name type.ty)) :
      Leaves Γ p []

/-- What a list of parts declares. -/
def declaredAll (ps : List StmtPart) : List Entry := ps.flatMap declared

@[simp] theorem declaredAll_nil : declaredAll [] = [] := rfl

@[simp] theorem declaredAll_append (ps qs : List StmtPart) :
    declaredAll (ps ++ qs) = declaredAll ps ++ declaredAll qs :=
  List.flatMap_append

@[simp] theorem declaredAll_cons (p : StmtPart) (ps : List StmtPart) :
    declaredAll (p :: ps) = p.declared ++ declaredAll ps :=
  List.flatMap_cons

end StmtPart

open StmtPart (declaredAll)

theorem Stmt.declaredAll_parts : ∀ s : Stmt, declaredAll s.parts = s.declarations
  | .if_ e s none span => by simp [parts, declarations, StmtPart.declared, s.declaredAll_parts]
  | .if_ e s (some t) span => by
    simp [parts, declarations, StmtPart.declared, s.declaredAll_parts, t.declaredAll_parts]
  | .while_ e s span => by simp [parts, declarations, StmtPart.declared, s.declaredAll_parts]
  | .expr .. => by simp [parts, declarations, StmtPart.declared]
  | .let_ .. => by simp [parts, declarations, StmtPart.declared]
  | .block .. => by simp [parts, declarations, StmtPart.declared]
  | .struct .. => by simp [parts, declarations, StmtPart.declared]
  | .return_ .. => by simp [parts, declarations, StmtPart.declared]

/-! ### Visits that declare -/

/-- The visit goes through the parts in order, starting in `Γ`: it ends well with all that they
declare, or at a part that fails with what was declared before it and what this part leaves. -/
structure Declares {ν : Type} (Γ : Context) (ps : List StmtPart) (v : Visit ν Unit) : Prop where
  ok : v.result = .ok () →
    Γ.Admits (declaredAll ps) ∧ v.state.context = Γ.extend (declaredAll ps)
  error : ∀ h, v.result = .error h → ∃ before p after left, ps = before ++ p :: after ∧
    p.Fails (Γ.extend (declaredAll before)) h ∧ p.Leaves (Γ.extend (declaredAll before)) left ∧
    Γ.Admits (declaredAll before ++ left) ∧
    v.state.context = Γ.extend (declaredAll before ++ left)

namespace Declares

variable {ν μ : Type} {Γ : Context} {ps qs : List StmtPart} {v : Visit ν Unit}

/-- However the visit ends, the context has grown by admitted declarations. -/
theorem exists_extend (h : Declares Γ ps v) : ∃ ds, Γ.Admits ds ∧ v.state.context = Γ.extend ds := by
  cases hv : v.result with
  | ok u => exact ⟨_, h.ok hv⟩
  | error e =>
    obtain ⟨before, p, after, left, -, -, -, had, hc⟩ := h.error e hv
    exact ⟨_, had, hc⟩

theorem map (f : ν → μ) (h : Declares Γ ps v) : Declares Γ ps (v.map f) := ⟨h.ok, h.error⟩

/-- Two visits one after the other. -/
theorem andThen {others : μ} {next : Unit → Checker → Visit μ Unit} (h : Declares Γ ps v)
    (hn : ∀ c, c.context = Γ.extend (declaredAll ps) →
      Declares (Γ.extend (declaredAll ps)) qs (next () c)) :
    Declares Γ (ps ++ qs) (v.andThen others next) := by
  cases hv : v.result with
  | error e =>
    obtain ⟨before, p, after, left, rfl, hf, hl, had, hc⟩ := h.error e hv
    rw [Visit.andThen_of_error hv]
    refine ⟨nofun, fun e' he => ?_⟩
    cases he
    exact ⟨before, p, after ++ qs, left, by simp, hf, hl, had, hc⟩
  | ok u =>
    obtain ⟨had, hc⟩ := h.ok hv
    obtain ⟨ok, error⟩ := hn _ hc
    rw [Visit.andThen_of_ok hv]
    refine ⟨fun hok => ?_, fun e he => ?_⟩
    · obtain ⟨had', hc'⟩ := ok hok
      rw [StmtPart.declaredAll_append, Context.admits_append, ← Context.extend_extend]
      exact ⟨⟨had, had'⟩, hc'⟩
    · obtain ⟨before, p, after, left, rfl, hf, hl, had', hc'⟩ := error e he
      refine ⟨ps ++ before, p, after, left, by simp, ?_, ?_, ?_, ?_⟩
      · simpa using hf
      · simpa using hl
      · rw [StmtPart.declaredAll_append, List.append_assoc, Context.admits_append]
        exact ⟨had, had'⟩
      · simpa using hc'

/-- A single part that fails without a trace, and declares what it should if it does not fail. -/
theorem single {p : StmtPart} {c : Checker} (hc : c.context = Γ) (hr : v.result = p.result c)
    (ok : v.result = .ok () → Γ.Admits p.declared ∧ v.state.context = Γ.extend p.declared)
    (error : ∀ h, v.result = .error h → ∃ left, p.Leaves Γ left ∧ Γ.Admits left ∧
      v.state.context = Γ.extend left) : Declares Γ [p] v := by
  refine ⟨by simpa using ok, fun h hv => ?_⟩
  obtain ⟨left, hl, had, hx⟩ := error h hv
  exact ⟨[], p, [], left, rfl, ⟨c, hc, hr ▸ hv⟩, hl, had, hx⟩

/-- A single part that declares nothing and leaves the context as it was. -/
theorem steady {p : StmtPart} {c : Checker} (hc : c.context = Γ) (hr : v.result = p.result c)
    (hd : p.declared = []) (hp : ∀ x type e span, p ≠ .simple (.let_ x type (some e) span))
    (hx : v.state.context = Γ) : Declares Γ [p] v := by
  refine single hc hr (fun _ => by simpa [hd] using hx) fun _ _ => ?_
  exact ⟨[], .nothing fun x type e span he => absurd he (hp x type e span), trivial, hx⟩

/-- A condition that leaves the context as it was. -/
theorem condition (c : Checker) (event : Event) (keyword : Keyword) {e : Expr}
    (hx : (e.check (c.note event)).state.context = c.context) :
    Declares c.context [.condition keyword e]
      ((e.check (c.note event)).judge (Context.checkCondition keyword e.span)) :=
  steady (c.note_context event) rfl rfl nofun (by rw [Visit.judge_state, hx])

end Declares

/-! ### Declarations of variables -/

namespace Stmt

variable {c : Checker} {x : Ident} {type : TypeExpr}

/-- The state after a variable was declared. -/
def afterLet (c : Checker) (x : Ident) (type : TypeExpr) (span : Span) : Checker :=
  { c.note (.statement span.line "let") with
    context := c.context.extend [.variable x.name type.ty] }

/-- A variable that may not be declared is a fault, and nothing is declared. -/
theorem check_let_of_refused (h : ¬ c.context.Allows (.variable x.name type.ty))
    (value : Option Expr) (span : Span) :
    ∃ f, (Stmt.let_ x type value span).check c =
      .done (.let_ x type value span) (.error f) (c.note (.statement span.line "let")) := by
  have key : (∃ f, c.context.readType type = .error f) ∨ c.context.readType type = .ok type.ty ∧
      ∃ f, (c.note (.statement span.line "let")).declare x.name type.ty
        ⟨.variableDeclared x.name, x.span⟩ = .error f := by
    cases hr : c.context.readType type with
    | error f => exact .inl ⟨f, rfl⟩
    | ok t =>
      obtain ⟨hk, rfl⟩ := Context.readType_eq_ok.mp hr
      refine .inr ⟨rfl, ?_⟩
      cases hd : (c.note (.statement span.line "let")).declare x.name type.ty
        ⟨.variableDeclared x.name, x.span⟩ with
      | error f => exact ⟨f, rfl⟩
      | ok c' => exact absurd ⟨hk, (Checker.declare_eq_ok.mp hd).1⟩ h
  rcases key with ⟨f, hr⟩ | ⟨hr, f, hd⟩
  · refine ⟨.fault f, ?_⟩
    cases value <;> simp only [Stmt.check, Checker.note_context, hr]
  · refine ⟨f, ?_⟩
    cases value <;> simp only [Stmt.check, Checker.note_context, hr, hd]

theorem declare_of_allows (h : c.context.Allows (.variable x.name type.ty)) (span : Span)
    (fault : TypeFault) : (c.note (.statement span.line "let")).declare x.name type.ty fault =
      .ok (afterLet c x type span) :=
  Checker.declare_eq_ok.mpr ⟨h.2, rfl⟩

theorem check_let_none (h : c.context.Allows (.variable x.name type.ty)) (span : Span) :
    (Stmt.let_ x type none span).check c =
      .done (.let_ x type none span) (.ok ()) (afterLet c x type span) := by
  have hr := Context.readType_eq_ok.mpr ⟨h.1, rfl⟩
  simp only [Stmt.check, Checker.note_context, hr, declare_of_allows h]

theorem check_let_some (h : c.context.Allows (.variable x.name type.ty)) (e : Expr) (span : Span) :
    (Stmt.let_ x type (some e) span).check c =
      ((e.check (afterLet c x type span)).judgeIn fun Γ actual =>
        Γ.checkInitial span type.ty actual).map fun e => .let_ x type (some e) span := by
  have hr := Context.readType_eq_ok.mpr ⟨h.1, rfl⟩
  simp only [Stmt.check, Checker.note_context, hr, declare_of_allows h]

end Stmt

/-! ### The walk -/

mutual

/-- An expression leaves the context as it was. -/
theorem Expr.check_context : ∀ (e : Expr) (c : Checker), (e.check c).state.context = c.context
  | .mk form span slot, c => by
    rw [Expr.check, Visit.record_state]
    exact form.check_context span c

theorem Form.check_context : ∀ (form : Form) (span : Span) (c : Checker),
    (form.check span c).state.context = c.context
  | .literal l, span, c => rfl
  | .variable x, span, c => rfl
  | .group e, span, c => e.check_context c
  | .unary op e, span, c => by
    rw [Form.check, Visit.judge_state]
    exact e.check_context c
  | .binary l op r, span, c => by
    rw [Form.check, Visit.map_state]
    refine Visit.andThen_context (l.check_context c) fun left c' hc => ?_
    rw [Visit.judgeIn_state, r.check_context, hc]
  | .logical l op r, span, c => by
    rw [Form.check, Visit.map_state]
    refine Visit.andThen_context ?_ fun left c' hc => ?_
    · rw [Visit.judge_state, l.check_context]
    · rw [Visit.judge_state, r.check_context, hc]
  | .function params result body, span, c => by
    rw [Form.check]
    split
    · rfl
    · rfl
    next types type hp hr =>
      obtain ⟨hk, rfl⟩ := Context.readParams_eq_ok.mp hp
      simp only [Visit.map_state, Visit.inScope_state, Checker.exit_context]
      split
      next h hd => rfl
      next c₁ hd =>
        -- the body is checked after the parameters, and the scope of both is left
        obtain ⟨hnd, hn, rfl⟩ := Checker.declareParams_eq_ok.mp hd
        obtain ⟨ds, had, hc⟩ := (body.check_declares _).exists_extend
        rw [Visit.judgeIn_state, hc]
        simp only [Checker.enter_context, Context.extend_extend] at had ⊢
        refine Context.Admits.exit_enter (Context.admits_append.mpr ⟨?_, had⟩)
        exact Context.admits_params hk hnd hn
  | .call f args, span, c => by
    rw [Form.check, Visit.map_state]
    refine Visit.andThen_context ?_ fun sig c' hc => ?_
    · rw [Visit.judge_state, f.check_context]
    · rw [Visit.judge_state, checkArgs_context, hc]
  | .get e x, span, c => by
    rw [Form.check, Visit.judgeIn_state]
    exact e.check_context c
  | .record name fields, span, c => by
    rw [Form.check, Visit.judge_state]
    exact checkFields_context fields [] c

theorem checkArgs_context : ∀ (args : List Expr) (place : Nat) (ts : List Ty) (c : Checker),
    (checkArgs place ts args c).state.context = c.context
  | [], place, ts, c => by cases ts <;> rfl
  | e :: es, place, [], c => rfl
  | e :: es, place, t :: ts, c => by
    rw [checkArgs, Visit.map_state]
    refine Visit.andThen_context ?_ fun _ c' hc => ?_
    · rw [Visit.judgeIn_state, e.check_context]
    · rw [checkArgs_context, hc]

theorem checkFields_context : ∀ (fields : List (Ident × Expr)) (seen : List String) (c : Checker),
    (checkFields seen fields c).state.context = c.context
  | [], seen, c => rfl
  | (x, e) :: fs, seen, c => by
    rw [checkFields]
    split
    · rfl
    · rw [Visit.map_state]
      refine Visit.andThen_context (e.check_context c) fun _ c' hc => ?_
      rw [Visit.judge_state, checkFields_context, hc]

/-- A statement goes through its parts. -/
theorem Stmt.check_declares : ∀ (s : Stmt) (c : Checker), Declares c.context s.parts (s.check c)
  | .expr e span, c => by
    refine .steady rfl rfl rfl nofun ?_
    rw [Stmt.check, Visit.judge_state, Visit.map_state, e.check_context]; rfl
  | .let_ x type none span, c => by
    by_cases h : c.context.Allows (.variable x.name type.ty)
    · refine .single rfl rfl (fun _ => ⟨⟨h, trivial⟩, ?_⟩) fun f hf => ?_
      · rw [Stmt.check_let_none h]; rfl
      · rw [Stmt.check_let_none h] at hf; cases hf
    · obtain ⟨f, hf⟩ := Stmt.check_let_of_refused h none span
      refine .single rfl rfl (fun ok => ?_) fun f' hf' => ?_
      · rw [hf] at ok; cases ok
      · exact ⟨[], .nothing nofun, trivial, by rw [hf]; rfl⟩
  | .let_ x type (some e) span, c => by
    by_cases h : c.context.Allows (.variable x.name type.ty)
    · -- the variable stays declared, whether its initial value passes or not
      have hc : ((Stmt.let_ x type (some e) span).check c).state.context =
          c.context.extend [.variable x.name type.ty] := by
        rw [Stmt.check_let_some h, Visit.map_state, Visit.judgeIn_state, e.check_context]; rfl
      exact .single rfl rfl (fun _ => ⟨⟨h, trivial⟩, hc⟩)
        fun f hf => ⟨_, .initial h, ⟨h, trivial⟩, hc⟩
    · obtain ⟨f, hf⟩ := Stmt.check_let_of_refused h (some e) span
      refine .single rfl rfl (fun ok => ?_) fun f' hf' => ⟨[], .nothing ?_, trivial, ?_⟩
      · rw [hf] at ok; cases ok
      · rintro _ _ _ _ ⟨⟩; exact h
      · rw [hf]; rfl
  | .block body span, c => by
    refine .steady rfl rfl rfl nofun ?_
    obtain ⟨ds, had, hc⟩ :=
      (checkAll_declares body (c.note (.statement span.line "block")).enter).exists_extend
    rw [Stmt.check, Visit.map_state, Visit.inScope_state, Checker.exit_context, hc]
    exact had.exit_enter
  | .if_ e s none span, c => by
    rw [Stmt.check]
    refine .map _ (.andThen (.condition c _ _ (e.check_context _)) fun c' hc => ?_)
    exact hc ▸ s.check_declares c'
  | .if_ e s (some t) span, c => by
    rw [Stmt.check]
    refine .map _ (.andThen (.condition c _ _ (e.check_context _)) fun c' hc => ?_)
    exact hc ▸ (s.check_declares c').andThen fun c'' hc' => hc' ▸ t.check_declares c''
  | .while_ e s span, c => by
    rw [Stmt.check]
    refine .map _ (.andThen (.condition c _ _ (e.check_context _)) fun c' hc => ?_)
    exact hc ▸ s.check_declares c'
  | .struct x fields span, c => by
    rw [Stmt.check]
    cases hd : (c.note (.statement span.line "struct")).declareRecord x fields with
    | error h =>
      refine .single (c := c) rfl (by simp [StmtPart.result, Stmt.check, hd]) nofun fun _ _ => ?_
      exact ⟨[], .nothing nofun, trivial, rfl⟩
    | ok c' =>
      obtain ⟨hx, hn, hk, rfl⟩ := Checker.declareRecord_eq_ok.mp hd
      refine .single (c := c) rfl (by simp [StmtPart.result, Stmt.check, hd]) (fun _ => ?_) nofun
      refine ⟨⟨⟨⟨_, rfl⟩, Context.knows_ofFields ?_, hx⟩, trivial⟩, rfl⟩
      exact List.forall_mem_map.mpr hk
  | .return_ none span, c => .steady rfl rfl rfl nofun rfl
  | .return_ (some e) span, c => by
    refine .steady rfl rfl rfl nofun ?_
    rw [Stmt.check, Visit.judge_state, Visit.map_state, e.check_context]; rfl

theorem checkAll_declares : ∀ (ss : List Stmt) (c : Checker),
    Declares c.context (ss.flatMap Stmt.parts) (checkAll ss c)
  | [], c => ⟨fun _ => ⟨trivial, rfl⟩, nofun⟩
  | s :: ss, c => by
    rw [checkAll, List.flatMap_cons]
    exact ((s.check_declares c).andThen fun c' hc => hc ▸ checkAll_declares ss c').map _

end

/-! ### What is left -/

/-- What was declared before a failing part, with what this leaves, is where the declarations of all
parts begin. -/
theorem StmtPart.Leaves.prefix_declared {Γ : Context} {p : StmtPart} {left : List Entry}
    (h : p.Leaves Γ left) (before after : List StmtPart) :
    declaredAll before ++ left <+: declaredAll (before ++ p :: after) := by
  rw [declaredAll_append, declaredAll_cons]
  refine List.prefix_append_right_inj _ |>.mpr ?_
  cases h with
  | initial => exact List.prefix_append ..
  | nothing => exact List.nil_prefix

/-- A check keeps to its scope. An expression leaves the context as it was. A statement leaves the
scopes around the current one as they were and adds declarations to the current one, where all that
was found is found still. What it adds are its declarations if it ends well; else those of the parts
before the one that fails, and of this part only a variable whose initial value failed. -/
theorem check_keeps_scopes :
    (∀ (e : Expr) (c : Checker), (e.check c).state.context = c.context) ∧
    ∀ (s : Stmt) (c : Checker), ∃ added : List Entry,
      (s.check c).state.context.depth = c.context.depth ∧
      Context.outer? (s.check c).state.context.entries = Context.outer? c.context.entries ∧
      (s.check c).state.context.current = added.reverse ++ c.context.current ∧
      (∀ x, (s.check c).state.context.current.findSome? (Entry.variableOf x) =
        (c.context.current.findSome? (Entry.variableOf x)).or
          (added.findSome? (Entry.variableOf x))) ∧
      (∀ x, (s.check c).state.context.current.findSome? (Entry.recordOf x) =
        (c.context.current.findSome? (Entry.recordOf x)).or
          (added.findSome? (Entry.recordOf x))) ∧
      added <+: s.declarations ∧
      ((s.check c).result = .ok () → added = s.declarations) ∧
      ∀ h, (s.check c).result = .error h → ∃ before p after left,
        s.parts = before ++ p :: after ∧ added = declaredAll before ++ left ∧
        p.Fails (c.context.extend (declaredAll before)) h ∧
        p.Leaves (c.context.extend (declaredAll before)) left := by
  refine ⟨Expr.check_context, fun s c => ?_⟩
  have hs := s.check_declares c
  -- the two ways to end have in common that the context grows by something admitted
  have frame : ∀ added, c.context.Admits added →
      (s.check c).state.context = c.context.extend added → _ := fun added had hc =>
    And.intro (hc ▸ had.depth) <| And.intro (hc ▸ had.outer?) <| And.intro (hc ▸ had.current) <|
      And.intro (hc ▸ had.variable_current) (hc ▸ had.record_current)
  cases hr : (s.check c).result with
  | ok u =>
    obtain ⟨had, hc⟩ := hs.ok hr
    rw [s.declaredAll_parts] at had hc
    obtain ⟨hd, ho, hcur, hv, hrec⟩ := frame _ had hc
    exact ⟨s.declarations, hd, ho, hcur, hv, hrec, List.prefix_rfl, fun _ => rfl, nofun⟩
  | error h =>
    obtain ⟨before, p, after, left, hp, hf, hl, had, hc⟩ := hs.error h hr
    obtain ⟨hd, ho, hcur, hv, hrec⟩ := frame _ had hc
    refine ⟨_, hd, ho, hcur, hv, hrec, ?_, nofun, fun h' hh => ?_⟩
    · rw [← s.declaredAll_parts, hp]
      exact hl.prefix_declared before after
    · cases hh
      exact ⟨before, p, after, left, hp, rfl, hf, hl⟩

end RecordLang
