import Mathlib.Data.List.Forall2
import RecordLang.Proofs.Typing.Agreement

/-!
# Slots are written once and in order

`postorder` lists the expressions of a tree, each behind its parts, which is the order in which a
check comes to them. A check fills slots from the front of this list and stops somewhere: it never
changes a type that is there, and no slot is filled while an earlier one is empty. It ends well only
if all slots were empty and are now filled, and halts at a visited node only if one was filled
(`Expr.check_fills`, `Stmt.check_fills`).
-/

namespace RecordLang

mutual

/-- The expressions in an expression, itself included, each behind its parts. -/
def Expr.postorder : Expr → List Expr
  | .mk form span type => form.postorder ++ [.mk form span type]

def Form.postorder : Form → List Expr
  | .literal _ => []
  | .variable _ => []
  | .group e => e.postorder
  | .unary _ e => e.postorder
  | .binary l _ r => l.postorder ++ r.postorder
  | .logical l _ r => l.postorder ++ r.postorder
  | .function _ _ body => body.postorder
  | .call f args => f.postorder ++ postorderArgs args
  | .get e _ => e.postorder
  | .record _ fields => postorderFields fields

def postorderArgs : List Expr → List Expr
  | [] => []
  | e :: es => e.postorder ++ postorderArgs es

def postorderFields : List (Ident × Expr) → List Expr
  | [] => []
  | (_, e) :: fs => e.postorder ++ postorderFields fs

/-- The expressions in a statement, each behind its parts. -/
def Stmt.postorder : Stmt → List Expr
  | .expr e _ => e.postorder
  | .let_ _ _ none _ => []
  | .let_ _ _ (some e) _ => e.postorder
  | .block body _ => postorderAll body
  | .if_ e s none _ => e.postorder ++ s.postorder
  | .if_ e s (some t) _ => e.postorder ++ (s.postorder ++ t.postorder)
  | .while_ e s _ => e.postorder ++ s.postorder
  | .struct .. => []
  | .return_ none _ => []
  | .return_ (some e) _ => e.postorder

def postorderAll : List Stmt → List Expr
  | [] => []
  | s :: ss => s.postorder ++ postorderAll ss

end

/-- The expressions in a program, each behind its parts. -/
def Program.postorder (p : Program) : List Expr := postorderAll p.body

/-! ### Slots of a list of nodes -/

/-- The same expression but for slots, and the type is still there if there was one. -/
def Expr.Keeps (e e' : Expr) : Prop := e'.bare = e.bare ∧ ∀ t, e.type = some t → e'.type = some t

/-- The same expressions but for slots, and all types are still there. -/
def Keeps : List Expr → List Expr → Prop := List.Forall₂ Expr.Keeps

/-- No slot is filled while an earlier one is empty. -/
def InOrder (es : List Expr) : Prop := es.Pairwise fun d e => e.type ≠ none → d.type ≠ none

/-- All slots are empty. -/
def Unfilled (es : List Expr) : Prop := ∀ e ∈ es, e.type = none

/-- All slots are filled. -/
def Filled (es : List Expr) : Prop := ∀ e ∈ es, e.type ≠ none

section Lists

variable {es es' ds ds' : List Expr}

theorem Keeps.refl (es : List Expr) : Keeps es es :=
  List.forall₂_same.mpr fun _ _ => ⟨rfl, fun _ => id⟩

theorem Keeps.trans {es'' : List Expr} (h : Keeps es es') (h' : Keeps es' es'') :
    Keeps es es'' := by
  induction h generalizing es'' with
  | nil => exact h'
  | cons h _ ih =>
    cases h' with
    | cons h₁ h' => exact .cons ⟨h₁.1.trans h.1, fun t ht => h₁.2 t (h.2 t ht)⟩ (ih h')

theorem Keeps.append (h : Keeps es es') (h' : Keeps ds ds') : Keeps (es ++ ds) (es' ++ ds') :=
  List.rel_append h h'

theorem Keeps.filled (h : Keeps es es') (hes : Filled es) : Filled es' := by
  induction h with
  | nil => exact hes
  | @cons e e' _ _ h _ ih =>
    obtain ⟨he, hes⟩ := List.forall_mem_cons.mp hes
    obtain ⟨t, ht⟩ := Option.ne_none_iff_exists'.mp he
    refine List.forall_mem_cons.mpr ⟨?_, ih hes⟩
    rw [h.2 t ht]
    exact Option.some_ne_none t

theorem inOrder_append : InOrder (es ++ ds) ↔
    InOrder es ∧ InOrder ds ∧ ((∃ d ∈ ds, d.type ≠ none) → Filled es) := by
  rw [InOrder, List.pairwise_append]
  refine and_congr_right fun _ => and_congr_right fun _ => ?_
  constructor
  · rintro h ⟨d, hd, ht⟩ e he
    exact h e he d hd ht
  · intro h e he d hd ht
    exact h ⟨d, hd, ht⟩ e he

theorem Unfilled.inOrder (h : Unfilled es) : InOrder es :=
  List.pairwise_of_forall_mem_list fun _ _ e he ht => absurd (h e he) ht

theorem unfilled_append : Unfilled (es ++ ds) ↔ Unfilled es ∧ Unfilled ds := List.forall_mem_append

theorem filled_append : Filled (es ++ ds) ↔ Filled es ∧ Filled ds := List.forall_mem_append

end Lists

/-! ### Declarations fail with faults -/

namespace Checker

variable {c : Checker} {h : Halt}

theorem declare_error {x : String} {t : Ty} {f : TypeFault} (hh : c.declare x t f = .error h) :
    h = .fault f := by
  rw [declare] at hh
  split at hh
  · cases hh
  · exact (Except.error.inj hh).symm

theorem declareParams_error {params : List TypedName} {types : List Ty}
    (hh : c.declareParams params types = .error h) : ∃ f, h = .fault f := by
  induction params generalizing c types with
  | nil => cases hh
  | cons p ps ih =>
    cases types with
    | nil => cases hh
    | cons t ts =>
      rw [declareParams] at hh
      split at hh
      next => exact ih hh
      next hd =>
        cases hh
        exact ⟨_, declare_error hd⟩

theorem declareRecord_error {x : Ident} {fields : List TypedName}
    (hh : c.declareRecord x fields = .error h) : ∃ f, h = .fault f := by
  rw [declareRecord] at hh
  split at hh
  · cases hh
    exact ⟨_, rfl⟩
  · split at hh
    · cases hh
      exact ⟨_, rfl⟩
    · split at hh <;> cases hh

end Checker

/-! ### What a visit does to slots -/

namespace Visit

variable {v : Visit Form Ty} {span : Span}

theorem record_of_error {e : Halt} {slot : Option Ty} (h : v.result = .error e) :
    v.record span slot = ⟨.mk v.nodes span slot, .error e, v.state⟩ := by
  simp [record, h]

theorem record_of_empty {t : Ty} (h : v.result = .ok t) :
    v.record span none = ⟨.mk v.nodes span (some t), .ok t, v.state⟩ := by
  simp [record, h]

theorem record_of_filled {t u : Ty} (h : v.result = .ok t) :
    v.record span (some u) = ⟨.mk v.nodes span (some u), .error .revisited, v.state⟩ := by
  simp [record, h]

end Visit

/-- A visit that fills slots in order, where `L` lists the expressions in its nodes. -/
structure Visit.Fills {ν α : Type} (L : ν → List Expr) (before : ν) (v : Visit ν α) : Prop where
  keeps : Keeps (L before) (L v.nodes)
  ordered : InOrder (L before) → InOrder (L v.nodes)
  ok : ∀ a, v.result = .ok a → Unfilled (L before) ∧ Filled (L v.nodes)
  revisited : v.result = .error .revisited → ∃ e ∈ L before, e.type ≠ none

namespace Visit.Fills

variable {ν μ α β : Type} {L : ν → List Expr} {M : μ → List Expr} {n : ν} {m : μ}
  {v : Visit ν α}

/-- Nodes without expressions. -/
theorem none {result : Except Halt α} {c : Checker} (h : L n = [])
    (hr : result ≠ .error .revisited) : Fills L n (.done n result c) := by
  refine ⟨.refl _, id, fun a _ => ?_, fun h => absurd h hr⟩
  show Unfilled (L n) ∧ Filled (L n)
  rw [h]
  exact ⟨fun e he => absurd he List.not_mem_nil, fun e he => absurd he List.not_mem_nil⟩

/-- A fault that is found before any expression is looked at. -/
theorem fault {f : TypeFault} {c : Checker} :
    Fills L n (.done n (.error (.fault f)) c : Visit ν α) :=
  ⟨.refl _, id, fun _ h => (by cases h), fun h => (by cases h)⟩

theorem map {F : ν → μ} (h : Fills L n v) (hm : M m = L n) (hF : ∀ n, M (F n) = L n) :
    Fills M m (v.map F) := by
  refine ⟨?_, ?_, ?_, ?_⟩
  · rw [map_nodes, hF, hm]
    exact h.keeps
  · rw [map_nodes, hF, hm]
    exact h.ordered
  · rw [map_result, map_nodes, hF, hm]
    exact h.ok
  · rw [map_result, hm]
    exact h.revisited

theorem judge {f : α → Except TypeFault β} (h : Fills L n v) : Fills L n (v.judge f) := by
  refine ⟨?_, ?_, fun b hb => ?_, fun hb => ?_⟩
  · rw [judge_nodes]
    exact h.keeps
  · rw [judge_nodes]
    exact h.ordered
  · obtain ⟨a, ha, -⟩ := judge_eq_ok.mp hb
    rw [judge_nodes]
    exact h.ok a ha
  · refine h.revisited ?_
    rw [Visit.judge] at hb
    split at hb
    next e he => exact he.trans (congrArg Except.error (Except.error.inj hb))
    next a ha => cases hf : f a <;> rw [hf] at hb <;> cases hb

theorem judgeIn {f : Context → α → Except TypeFault β} (h : Fills L n v) :
    Fills L n (v.judgeIn f) :=
  h.judge

theorem andThen {next : α → Checker → Visit μ β} (h : Fills L n v)
    (hnext : ∀ a c, v.result = .ok a → Fills M m (next a c)) :
    Fills (fun p => L p.1 ++ M p.2) (n, m) (v.andThen m next) := by
  cases hv : v.result with
  | error e =>
    rw [andThen_of_error hv]
    refine ⟨h.keeps.append (.refl _), fun ho => ?_, fun _ hb => (by cases hb), fun hb => ?_⟩
    · -- the second part is as it was; if it has a type, the first had all of them
      obtain ⟨h₁, h₂, h₃⟩ := inOrder_append.mp ho
      exact inOrder_append.mpr ⟨h.ordered h₁, h₂, fun ht => h.keeps.filled (h₃ ht)⟩
    · obtain rfl := Except.error.inj hb
      obtain ⟨e, he, ht⟩ := h.revisited hv
      exact ⟨e, List.mem_append_left _ he, ht⟩
  | ok a =>
    obtain ⟨hempty, hfilled⟩ := h.ok a hv
    have hrest := hnext a v.state hv
    rw [andThen_of_ok hv]
    refine ⟨h.keeps.append hrest.keeps, fun ho => ?_, fun b hb => ?_, fun hb => ?_⟩
    · obtain ⟨h₁, h₂, -⟩ := inOrder_append.mp ho
      exact inOrder_append.mpr ⟨h.ordered h₁, hrest.ordered h₂, fun _ => hfilled⟩
    · obtain ⟨hempty', hfilled'⟩ := hrest.ok b hb
      exact ⟨unfilled_append.mpr ⟨hempty, hempty'⟩, filled_append.mpr ⟨hfilled, hfilled'⟩⟩
    · obtain ⟨e, he, ht⟩ := hrest.revisited hb
      exact ⟨e, List.mem_append_right _ he, ht⟩

theorem inScope {c : Checker} {f : Checker → Visit ν α} (h : Fills L n (f c.enter)) :
    Fills L n (Visit.inScope c f) :=
  ⟨h.keeps, h.ordered, h.ok, h.revisited⟩

/-- The slot of a node comes behind those of its parts. -/
theorem record {form : Form} {v : Visit Form Ty} (h : Fills Form.postorder form v)
    (hbare : v.nodes.bare = form.bare) (span : Span) (slot : Option Ty) :
    Fills Expr.postorder (.mk form span slot) (v.record span slot) := by
  have hsame : ∀ slot', (∀ t, slot = some t → slot' = some t) →
      Keeps [.mk form span slot] [.mk v.nodes span slot'] := by
    intro slot' hslot
    refine .cons ⟨?_, hslot⟩ .nil
    rw [Expr.bare, Expr.bare, hbare]
  -- with an unchanged slot, a type there says that the parts had theirs
  have hkept : InOrder (Expr.postorder (.mk form span slot)) →
      InOrder (Expr.postorder (.mk v.nodes span slot)) := by
    intro ho
    obtain ⟨h₁, -, h₃⟩ := inOrder_append.mp ho
    refine inOrder_append.mpr ⟨h.ordered h₁, List.pairwise_singleton _ _, ?_⟩
    rintro ⟨e, he, ht⟩
    obtain rfl := List.mem_singleton.mp he
    exact h.keeps.filled (h₃ ⟨_, List.mem_singleton_self _, ht⟩)
  cases hv : v.result with
  | error e =>
    rw [record_of_error hv]
    refine ⟨h.keeps.append (hsame slot fun _ => id), hkept, fun _ hb => (by cases hb), fun hb => ?_⟩
    obtain ⟨e, he, ht⟩ := h.revisited (hv.trans hb)
    exact ⟨e, List.mem_append_left _ he, ht⟩
  | ok t =>
    obtain ⟨hempty, hfilled⟩ := h.ok t hv
    cases slot with
    | none =>
      rw [record_of_empty hv]
      refine ⟨h.keeps.append (hsame _ fun _ hn => (by cases hn)), fun ho => ?_, fun _ _ => ⟨?_, ?_⟩,
        fun hb => (by cases hb)⟩
      · obtain ⟨h₁, -, -⟩ := inOrder_append.mp ho
        exact inOrder_append.mpr ⟨h.ordered h₁, List.pairwise_singleton _ _, fun _ => hfilled⟩
      · exact unfilled_append.mpr ⟨hempty, List.forall_mem_singleton.mpr rfl⟩
      · exact filled_append.mpr ⟨hfilled, List.forall_mem_singleton.mpr (Option.some_ne_none t)⟩
    | some u =>
      rw [record_of_filled hv]
      refine ⟨h.keeps.append (hsame _ fun _ => id), hkept, fun _ hb => (by cases hb), fun _ => ?_⟩
      exact ⟨_, List.mem_append_right _ (List.mem_singleton_self _), Option.some_ne_none u⟩

end Visit.Fills

/-! ### The walk -/

mutual

/-- The check of an expression fills slots in order. -/
theorem Expr.check_fills : ∀ (e : Expr) (c : Checker),
    Visit.Fills Expr.postorder e (e.check c)
  | .mk form span slot, c => (form.check_fills span c).record (form.check_bare span c) span slot

theorem Form.check_fills : ∀ (form : Form) (span : Span) (c : Checker),
    Visit.Fills Form.postorder form (form.check span c)
  | .literal l, _, _ => .none rfl (by simp)
  | .variable x, span, c => by
    refine .none rfl ?_
    cases c.context.typeOfVariable x span <;> simp [Except.mapError]
  | .group e, _, c => (e.check_fills c).map rfl fun _ => rfl
  | .unary _ e, _, c => Visit.Fills.judge (Visit.Fills.map (e.check_fills c) rfl fun _ => rfl)
  | .binary l _ r, _, c => by
    rw [Form.check]
    refine Visit.Fills.map (Visit.Fills.andThen (l.check_fills c) ?_) rfl fun _ => rfl
    intro _ c _
    exact (r.check_fills c).judgeIn
  | .logical l _ r, _, c => by
    rw [Form.check]
    refine Visit.Fills.map (Visit.Fills.andThen (l.check_fills c).judge ?_)
      rfl fun _ => rfl
    intro _ c _
    exact (r.check_fills c).judge
  | .function params result body, _, c => by
    rw [Form.check]
    split
    · exact .fault
    · exact .fault
    · refine Visit.Fills.map (Visit.Fills.inScope (L := Stmt.postorder) ?_) rfl fun _ => rfl
      split
      next h hh =>
        obtain ⟨f, rfl⟩ := Checker.declareParams_error hh
        exact .fault
      next => exact (body.check_fills _).judgeIn
  | .call f args, span, c => by
    rw [Form.check]
    refine Visit.Fills.map
      (Visit.Fills.andThen (M := postorderArgs) (f.check_fills c).judge ?_) rfl fun _ => rfl
    rintro ⟨params, result⟩ c hsig
    obtain ⟨t, -, hs⟩ := Visit.judge_eq_ok.mp hsig
    obtain ⟨-, hlen⟩ := Context.signature_eq_ok.mp hs
    exact (checkArgs_fills args c hlen).judge
  | .get e x, _, c => by
    rw [Form.check]
    exact Visit.Fills.judgeIn (Visit.Fills.map (e.check_fills c) rfl fun _ => rfl)
  | .record _ fields, _, c =>
    Visit.Fills.judge (Visit.Fills.map (checkFields_fills fields [] c) rfl fun _ => rfl)

theorem checkArgs_fills : ∀ (args : List Expr) {place : Nat} {ts : List Ty} (c : Checker),
    ts.length = args.length → Visit.Fills postorderArgs args (checkArgs place ts args c)
  | [], _, [], _, _ => .none rfl (by simp)
  | e :: es, _, t :: ts, c, hlen =>
    Visit.Fills.map (Visit.Fills.andThen (e.check_fills c).judgeIn fun _ c _ =>
      checkArgs_fills es c (Nat.succ.inj hlen)) rfl fun _ => rfl

theorem checkFields_fills : ∀ (fields : List (Ident × Expr)) (seen : List String) (c : Checker),
    Visit.Fills postorderFields fields (checkFields seen fields c)
  | [], _, _ => .none rfl (by simp)
  | (x, e) :: fs, seen, c => by
    rw [checkFields]
    split
    · exact .fault
    · exact Visit.Fills.map (Visit.Fills.andThen (e.check_fills c) fun _ c _ =>
        (checkFields_fills fs (x.name :: seen) c).judge) rfl fun _ => rfl

/-- The check of a statement fills slots in order. -/
theorem Stmt.check_fills : ∀ (s : Stmt) (c : Checker), Visit.Fills Stmt.postorder s (s.check c)
  | .expr e _, _ => Visit.Fills.judge (Visit.Fills.map (e.check_fills _) rfl fun _ => rfl)
  | .let_ x type none span, c => by
    rw [Stmt.check]
    split
    · exact .fault
    · split
      next h hh =>
        obtain rfl := Checker.declare_error hh
        exact .fault
      next => exact .none rfl (by simp)
  | .let_ x type (some e) span, c => by
    rw [Stmt.check]
    split
    · exact .fault
    · split
      next h hh =>
        obtain rfl := Checker.declare_error hh
        exact .fault
      next => exact Visit.Fills.map (e.check_fills _).judgeIn rfl fun _ => rfl
  | .block body _, _ =>
    Visit.Fills.map (Visit.Fills.inScope (checkAll_fills body _)) rfl fun _ => rfl
  | .if_ e s none _, _ =>
    Visit.Fills.map (Visit.Fills.andThen (e.check_fills _).judge fun _ c _ => s.check_fills c)
      rfl fun _ => rfl
  | .if_ e s (some t) _, _ =>
    Visit.Fills.map (Visit.Fills.andThen (e.check_fills _).judge fun _ c _ =>
      (s.check_fills c).andThen fun _ c _ => t.check_fills c) rfl fun _ => rfl
  | .while_ e s _, _ =>
    Visit.Fills.map (Visit.Fills.andThen (e.check_fills _).judge fun _ c _ => s.check_fills c)
      rfl fun _ => rfl
  | .struct x fields span, c => by
    rw [Stmt.check]
    split
    next h hh =>
      obtain ⟨f, rfl⟩ := Checker.declareRecord_error hh
      exact .fault
    next => exact .none rfl (by simp)
  | .return_ none _, _ => .fault
  | .return_ (some e) _, _ => Visit.Fills.judge (Visit.Fills.map (e.check_fills _) rfl fun _ => rfl)

theorem checkAll_fills : ∀ (ss : List Stmt) (c : Checker),
    Visit.Fills postorderAll ss (checkAll ss c)
  | [], _ => .none rfl (by simp)
  | s :: ss, c =>
    Visit.Fills.map (Visit.Fills.andThen (s.check_fills c) fun _ c _ => checkAll_fills ss c)
      rfl fun _ => rfl

end

theorem Program.check_fills (p : Program) (c : Checker) :
    Visit.Fills Program.postorder p (p.check c) := by
  have h := checkAll_fills p.body c
  refine ⟨?_, ?_, ?_, ?_⟩
  · rw [Program.check_nodes]
    exact h.keeps
  · rw [Program.check_nodes]
    exact h.ordered
  · rw [Program.check_result, Program.check_nodes]
    exact h.ok
  · rw [Program.check_result]
    exact h.revisited

end RecordLang
