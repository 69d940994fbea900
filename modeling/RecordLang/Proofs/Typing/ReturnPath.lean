import RecordLang.Proofs.Typing.Soundness

/-!
# Every path returns

`Stmt.Path` is the control flow of a statement when every condition may go either way and a loop may
run any number of times; expressions are not entered, so an inner function has no part in it. The
check of a function body looks only at the last statement of a block and at all the returns in it,
wherever they stand. The main statement is that this is enough: no path through the block of an
accepted function ends without a return, and every return has a value that the result type accepts.
-/

namespace RecordLang

/-- How a path through a statement ends: behind the statement, or at a return. -/
inductive Ending where
  | completed
  | returned (value : Option Expr) (span : Span)

namespace Stmt

/-! ### Paths -/

/-- There is a path through the statement that ends so. -/
inductive Path : Stmt → Ending → Prop
  | expr (e : Expr) (span : Span) : Path (.expr e span) .completed
  | let_ (x : Ident) (type : TypeExpr) (value : Option Expr) (span : Span) :
      Path (.let_ x type value span) .completed
  | struct (x : Ident) (fields : List TypedName) (span : Span) :
      Path (.struct x fields span) .completed
  | return_ (value : Option Expr) (span : Span) : Path (.return_ value span) (.returned value span)
  | blockEnd (span : Span) : Path (.block [] span) .completed
  | blockNext {s : Stmt} {ss : List Stmt} {span : Span} {ending : Ending}
      (first : Path s .completed) (rest : Path (.block ss span) ending) :
      Path (.block (s :: ss) span) ending
  | blockReturn {s : Stmt} {value : Option Expr} {place : Span} (ss : List Stmt) (span : Span)
      (first : Path s (.returned value place)) : Path (.block (s :: ss) span) (.returned value place)
  | ifTrue {s : Stmt} {ending : Ending} (e : Expr) (other : Option Stmt) (span : Span)
      (branch : Path s ending) : Path (.if_ e s other span) ending
  | ifFalse {s' : Stmt} {ending : Ending} (e : Expr) (s : Stmt) (span : Span)
      (branch : Path s' ending) : Path (.if_ e s (some s') span) ending
  | ifSkip (e : Expr) (s : Stmt) (span : Span) : Path (.if_ e s none span) .completed
  | whileEnd (e : Expr) (s : Stmt) (span : Span) : Path (.while_ e s span) .completed
  | whileNext {e : Expr} {s : Stmt} {span : Span} {ending : Ending} (first : Path s .completed)
      (rest : Path (.while_ e s span) ending) : Path (.while_ e s span) ending
  | whileReturn {s : Stmt} {value : Option Expr} {place : Span} (e : Expr) (span : Span)
      (first : Path s (.returned value place)) : Path (.while_ e s span) (.returned value place)

mutual

/-- Through every statement there is a path. -/
theorem exists_path : ∀ s : Stmt, ∃ ending, s.Path ending
  | .expr e span => ⟨_, .expr e span⟩
  | .let_ x type value span => ⟨_, .let_ x type value span⟩
  | .struct x fields span => ⟨_, .struct x fields span⟩
  | .return_ value span => ⟨_, .return_ value span⟩
  | .block body span => exists_path_block body span
  | .if_ e s other span =>
    have ⟨_, h⟩ := exists_path s
    ⟨_, .ifTrue e other span h⟩
  | .while_ e s span => ⟨_, .whileEnd e s span⟩

theorem exists_path_block : ∀ (body : List Stmt) (span : Span),
    ∃ ending, (Stmt.block body span).Path ending
  | [], span => ⟨_, .blockEnd span⟩
  | s :: ss, span =>
    match exists_path s with
    | ⟨.completed, h⟩ =>
      have ⟨_, hs⟩ := exists_path_block ss span
      ⟨_, .blockNext h hs⟩
    | ⟨.returned .., h⟩ => ⟨_, .blockReturn ss span h⟩

end

theorem not_completed_of_isReturn {s : Stmt} (h : s.isReturn = true) : ¬ s.Path .completed := by
  intro hp
  cases s with
  | return_ => cases hp
  | expr | let_ | block | if_ | while_ | struct => cases h

end Stmt

/-- No path goes past a block that ends with a return. -/
theorem EndsWithReturn.not_completed {body : List Stmt} {span : Span} (h : EndsWithReturn body) :
    ¬ (Stmt.block body span).Path .completed := by
  obtain ⟨last, hl, hr⟩ := h
  induction body with
  | nil => cases hl
  | cons s ss ih =>
    -- such a path goes past the first statement and then through the others
    rintro (_ | _ | _ | _ | _ | ⟨hs, hss⟩)
    cases ss with
    | nil =>
      cases hl
      exact Stmt.not_completed_of_isReturn hr hs
    | cons s' ss => exact ih (by rwa [List.getLast?_cons_cons] at hl) hss

/-! ### Returns in a statement -/

namespace Stmt

/-- The statement `r` stands in another one, outside inner functions. -/
inductive Within (r : Stmt) : Stmt → Prop
  | self : Within r r
  | block {s : Stmt} {body : List Stmt} (span : Span) (mem : s ∈ body) (h : Within r s) :
      Within r (.block body span)
  | ifTrue {s : Stmt} (e : Expr) (other : Option Stmt) (span : Span) (h : Within r s) :
      Within r (.if_ e s other span)
  | ifFalse {s' : Stmt} (e : Expr) (s : Stmt) (span : Span) (h : Within r s') :
      Within r (.if_ e s (some s') span)
  | while_ {s : Stmt} (e : Expr) (span : Span) (h : Within r s) : Within r (.while_ e s span)

variable {s : Stmt} {value : Option Expr} {place : Span}

/-- A path ends at a return that stands in the statement. -/
theorem Path.within {ending : Ending} (h : s.Path ending) (he : ending = .returned value place) :
    Within (.return_ value place) s := by
  induction h with
  | expr | let_ | struct | blockEnd | ifSkip | whileEnd => cases he
  | return_ =>
    cases he
    exact .self
  | blockNext _ _ _ ih =>
    -- what stands in the rest of a block, and is not the rest itself, stands in the block
    obtain _ | ⟨_, hmem, h⟩ := ih he
    exact .block _ (List.mem_cons_of_mem _ hmem) h
  | blockReturn ss span _ ih => exact .block span List.mem_cons_self (ih he)
  | ifTrue e other span _ ih => exact .ifTrue e other span (ih he)
  | ifFalse e s span _ ih => exact .ifFalse e s span (ih he)
  | whileNext _ _ _ ih => exact ih he
  | whileReturn e span _ ih => exact .while_ e span (ih he)

/-- Every return that stands in a statement is listed, with the type on its value. -/
theorem Within.mem_returns (h : Within (.return_ value place) s) :
    (value.bind Expr.type, place) ∈ s.returns := by
  induction h with
  | self => exact List.mem_singleton.mpr rfl
  | block span hmem _ ih =>
    rw [returns, returnsAll_eq_flatMap]
    exact List.mem_flatMap.mpr ⟨_, hmem, ih⟩
  | ifTrue e other span _ ih =>
    cases other with
    | none => exact ih
    | some s' => exact List.mem_append_left _ ih
  | ifFalse e s span _ ih => exact List.mem_append_right _ ih
  | while_ e span _ ih => exact ih

end Stmt

/-! ### Accepted bodies -/

theorem Form.eq_function_of_bare {form : Form} {params : List TypedName} {result : TypeExpr}
    {body : Stmt} (h : form.bare = .function params result body) :
    ∃ body', form = .function params result body' ∧ body'.bare = body := by
  cases form with
  | function params' result' body' =>
    obtain ⟨rfl, rfl, rfl⟩ := Form.function.inj h
    exact ⟨body', rfl, rfl⟩
  | literal | «variable» | group | unary | binary | logical | call | get | record => cases h

theorem FormTyped.body {R : SlotRule} {Γ : Context} {params : List TypedName} {result : TypeExpr}
    {body : Stmt} {t : Ty} : FormTyped R Γ (.function params result body) t →
      BodyTyped R (Γ.enter.extend (params.map TypedName.entry)) result.ty body
  | .function _ _ _ h => h

/-- In a body with its types, the result type accepts all that is returned. -/
theorem BodyTyped.returns_accepted {Γ : Context} {result : Ty} {body : Stmt}
    (h : BodyTyped .written Γ result body) :
    ∀ r ∈ body.returns, ∃ t, r.1 = some t ∧ Γ.accepts result t = true := by
  cases h with
  | expr => exact nofun
  | return_ value fits =>
    exact List.forall_mem_singleton.mpr ⟨_, value.type_eq, fits⟩
  | block typed _ fits => exact (Stmt.forall_returnsAll typed).mpr fits

theorem BodyTyped.value_accepted {Γ : Context} {result : Ty} {body : Stmt} {value : Option Expr}
    {place : Span} (h : BodyTyped .written Γ result body)
    (hr : Stmt.Within (.return_ value place) body) :
    ∃ v t, value = some v ∧ v.type = some t ∧ Γ.accepts result t = true := by
  obtain ⟨t, ht, fits⟩ := h.returns_accepted _ hr.mem_returns
  obtain ⟨v, hv, ht⟩ := Option.bind_eq_some_iff.mp ht
  exact ⟨v, t, hv, ht, fits⟩

theorem BodyTyped.expr_accepted {Γ : Context} {result : Ty} {v : Expr} {span : Span}
    (h : BodyTyped .written Γ result (.expr v span)) :
    ∃ t, v.type = some t ∧ Γ.accepts result t = true := by
  obtain ⟨value, fits⟩ := h
  exact ⟨_, value.type_eq, fits⟩

theorem BodyTyped.not_completed {R : SlotRule} {Γ : Context} {result : Ty} {body : List Stmt}
    {span : Span} (h : BodyTyped R Γ result (.block body span)) :
    ¬ (Stmt.block body span).Path .completed := by
  cases h with
  | block _ ends _ => exact ends.not_completed

/-! ### Refused bodies -/

theorem Stmt.Closes.declarations {s : Stmt} (h : s.Closes) : s.declarations = [] := by
  cases s with
  | expr | return_ | block => rfl
  | let_ | if_ | while_ | struct => exact h.elim

/-- A run over a list that fails has gone well up to the element at which it fails. -/
theorem exists_of_forM_eq_error {α ε : Type} {f : α → Except ε Unit} {as : List α} {e : ε}
    (h : as.forM f = .error e) : ∃ before a after, as = before ++ a :: after ∧
      (∀ b ∈ before, f b = .ok ()) ∧ f a = .error e := by
  induction as with
  | nil => cases h
  | cons a as ih =>
    cases ha : f a with
    | error e' =>
      have he : (f a >>= fun _ => as.forM f) = .error e := h
      rw [ha] at he
      cases he
      exact ⟨[], a, as, rfl, nofun, ha⟩
    | ok u =>
      have he : (f a >>= fun _ => as.forM f) = .error e := h
      rw [ha] at he
      obtain ⟨before, b, after, rfl, hok, hb⟩ := ih he
      exact ⟨a :: before, b, after, rfl, List.forall_mem_cons.mpr ⟨ha, hok⟩, hb⟩

/-- What a statement with its types gives back has types. -/
theorem StmtTyped.results_types {Γ : Context} {s : Stmt} {ts : List Ty}
    (h : StmtTyped .written Γ s ts) : ∀ r ∈ s.results, ∃ t, r.1 = some t := by
  have hr : ∀ r ∈ s.returns, ∃ t, r.1 = some t := by
    intro r hr
    have hmem := List.mem_map_of_mem (f := Prod.fst) hr
    rw [Stmt.returns_types h] at hmem
    obtain ⟨t, -, he⟩ := List.mem_map.mp hmem
    exact ⟨t, he.symm⟩
  cases h with
  | expr value => exact List.forall_mem_singleton.mpr ⟨_, value.type_eq⟩
  | declared | initialized | block | if_ | ifElse | while_ | struct | return_ => exact hr

/-- A body with its types that gives back a value at its end is refused at the first value that the
result type does not accept. -/
theorem Context.checkBody_eq_error {Γ Δ : Context} {result : Ty} {s : Stmt} {ts : List Ty}
    {f : TypeFault} (typed : StmtTyped .written Δ s ts) (hs : s.Closes)
    (h : Γ.checkBody result s = .error f) : ∃ before t place after,
      s.results = before ++ (some t, place) :: after ∧
      (∀ r ∈ before, ∃ u, r.1 = some u ∧ Γ.accepts result u = true) ∧
      Γ.accepts result t = false ∧ f = ⟨.returnMismatch result t, place⟩ := by
  rw [checkBody_of_closes hs] at h
  obtain ⟨before, ⟨actual, place⟩, after, he, hok, hf⟩ := exists_of_forM_eq_error h
  obtain ⟨t, rfl⟩ := typed.results_types (actual, place) (by simp [he])
  refine ⟨before, t, place, after, he, fun r hr => checkReturned_eq_ok.mp (hok r hr), ?_⟩
  cases ha : Γ.accepts result t with
  | true => simp [checkReturned, ha] at hf
  | false => exact ⟨rfl, by simpa [checkReturned, ha, eq_comm] using hf⟩

/-! ### Functions -/

/-- The check of a function body accepts a function only if every path through its block returns and
every return in it, reached or not, has a value that the result type accepts. A body that is well
typed but refused either does not give back a value at its end, or gives back one that is not
accepted, and the first of these is what is reported. -/
theorem function_returns_on_every_path (c : Checker) :
    (∀ (params : List TypedName) (result : TypeExpr) (body : Stmt) (span : Span) (slot : Option Ty)
      (t : Ty), ((Expr.mk (.function params result body) span slot).check c).result = .ok t →
      ∃ body', ((Expr.mk (.function params result body) span slot).check c).nodes =
          .mk (.function params result body') span (some t) ∧
        body'.bare = body.bare ∧
        (∀ stmts place, body' = .block stmts place → (∃ ending, body'.Path ending) ∧
          ∀ ending, body'.Path ending → ∃ v place, ending = .returned (some v) place) ∧
        (∀ value place, Stmt.Within (.return_ value place) body' → ∃ v u, value = some v ∧
          v.type = some u ∧
          (c.context.enter.extend (params.map TypedName.entry)).accepts result.ty u = true) ∧
        ∀ v place, body' = .expr v place → ∃ u, v.type = some u ∧
          (c.context.enter.extend (params.map TypedName.entry)).accepts result.ty u = true) ∧
    ∀ (body : Stmt) (result : Ty) (f : TypeFault), (body.check c).result = .ok () →
      (body.check c).state.context.checkBody result (body.check c).nodes = .error f →
      (f.code = .missingReturn ↔ ¬ body.Closes) ∧ f.code ≠ .emptyReturn ∧
      (body.Closes → ∃ before t place after,
        (body.check c).nodes.results = before ++ (some t, place) :: after ∧
        (∀ r ∈ before, ∃ u, r.1 = some u ∧ c.context.accepts result u = true) ∧
        c.context.accepts result t = false ∧ f = ⟨.returnMismatch result t, place⟩) := by
  constructor
  · intro params result body span slot t h
    obtain ⟨hf, rfl⟩ := Visit.record_eq_ok.mp h
    obtain ⟨body', hn, hbare⟩ :=
      Form.eq_function_of_bare (Form.check_bare (.function params result body) span c)
    obtain ⟨-, hw⟩ := Form.check_sound _ span c hf
    have hbody := FormTyped.body (hn ▸ hw)
    refine ⟨body', ?_, hbare, ?_, fun value place => hbody.value_accepted, ?_⟩
    · rw [Expr.check, Visit.record_nodes_of_ok hf, hn]
    · rintro stmts place rfl
      refine ⟨Stmt.exists_path _, fun ending hp => ?_⟩
      cases ending with
      | completed => exact absurd hp hbody.not_completed
      | returned value place =>
        obtain ⟨v, -, rfl, -⟩ := hbody.value_accepted (hp.within rfl)
        exact ⟨v, place, rfl⟩
    · rintro v place rfl
      exact hbody.expr_accepted
  · intro body result f hok hf
    by_cases hs : body.Closes
    · obtain ⟨ts, -, typed⟩ := body.check_sound c hok
      -- such a body declares nothing in the scope that it is checked in
      have hc : (body.check c).state.context = c.context := by
        rw [((body.check_declares c).ok hok).2, body.declaredAll_parts, hs.declarations,
          Context.extend_nil]
      rw [hc] at hf
      obtain ⟨before, t, place, after, he, hbefore, ht, rfl⟩ :=
        Context.checkBody_eq_error typed ((body.check_closes c).mpr hs) hf
      have hmissing : Code.returnMismatch ≠ .missingReturn := by decide
      have hempty : Code.returnMismatch ≠ .emptyReturn := by decide
      exact ⟨iff_of_false hmissing (not_not_intro hs), hempty, fun _ =>
        ⟨before, t, place, after, he, hbefore, ht, rfl⟩⟩
    · obtain ⟨f', hf', hcode⟩ := Context.checkBody_of_not_closes
        (body.check c).state.context result (mt (body.check_closes c).mp hs)
      obtain rfl : f = f' := Except.error.inj (hf.symm.trans hf')
      exact ⟨iff_of_true hcode hs, by rw [hcode]; decide, fun h => absurd h hs⟩

/-- A function that may return early: `fn(b: bool): int => { if b { return 1 } return 0 }`. -/
def Expr.earlyReturn : Expr :=
  let at_ : Span := default
  let type (x : String) : TypeExpr := .named x false at_
  let return_ (n : Int) : Stmt := .return_ (some (.new (.literal (.int n)) at_)) at_
  let branch : Stmt := .if_ (.new (.variable "b") at_) (.block [return_ 1] at_) none at_
  let param : TypedName := ⟨⟨"b", at_⟩, type "bool", at_⟩
  .new (.function [param] (type "int") (.block [branch, return_ 0] at_)) at_

theorem Expr.earlyReturn_returns :
    (Expr.earlyReturn.check .new).result = .ok (.function [.bool] .int) ∧
      ∃ params result body span slot,
        (Expr.earlyReturn.check .new).nodes = .mk (.function params result body) span slot ∧
        ¬ body.Path .completed := by
  refine ⟨rfl, ?_⟩
  obtain ⟨body, hn, -, hp, -⟩ := (function_returns_on_every_path .new).1 _ _ _ _ none _
    (rfl : (Expr.earlyReturn.check .new).result = .ok (.function [.bool] .int))
  refine ⟨_, _, body, _, _, hn, fun hc => ?_⟩
  cases hn
  obtain ⟨v, place, he⟩ := (hp _ _ rfl).2 _ hc
  cases he

end RecordLang
