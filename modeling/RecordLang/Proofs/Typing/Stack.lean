import Mathlib.Logic.Function.Basic
import RecordLang.Proofs.Typing.Context

/-!
# Contexts as stacks of scopes

A context answers requests: to enter or leave a scope, to declare a variable or a record, to look
one up, and for its depth. `ScopeStack` is the plain meaning of this: a stack of frames, each with
its variables and its records, of which the lowest is never taken off. Every sequence of requests
gets the same answers from a context and from a stack (`Context.answers_eq_stack`), no record is
ever visible twice (`ScopeStack.run_unique`), and a scope that was entered and left again has no
effect on later answers (`ScopeStack.run_block`).
-/

namespace RecordLang

/-! ### Requests and answers -/

/-- What may be asked of something that keeps scopes. -/
inductive ScopeOp where
  | enter
  | exit
  | declare (x : String) (t : Ty)
  | declareRecord (x : String) (schema : Ty)
  | findVariable (x : String)
  | findRecord (x : String)
  | depth

/-- What is answered to a request. -/
inductive ScopeAnswer where
  | done
  | declared (accepted : Bool)
  | found (type : Option Ty)
  | depth (n : Nat)
  deriving DecidableEq

namespace ScopeOp

/-- Whether a scope is entered or left. -/
def movesScope : ScopeOp → Bool
  | enter | exit => true
  | _ => false

/-- Requests in which every scope that is entered is left, and no other. -/
inductive Balanced : List ScopeOp → Prop
  | nil : Balanced []
  | stay {op : ScopeOp} {ops : List ScopeOp} (stays : op.movesScope = false) (rest : Balanced ops) :
      Balanced (op :: ops)
  | block {inner ops : List ScopeOp} (inside : Balanced inner) (rest : Balanced ops) :
      Balanced (.enter :: (inner ++ .exit :: ops))

section Run

variable {σ τ : Type} {step : σ → ScopeOp → ScopeAnswer × σ} {step' : τ → ScopeOp → ScopeAnswer × τ}

/-- The answers to requests made one after another, and the state they lead to. -/
def run (step : σ → ScopeOp → ScopeAnswer × σ) (s : σ) : List ScopeOp → List ScopeAnswer × σ
  | [] => ([], s)
  | op :: ops => ((step s op).1 :: (run step (step s op).2 ops).1, (run step (step s op).2 ops).2)

theorem run_cons_state (s : σ) (op : ScopeOp) (ops : List ScopeOp) :
    (run step s (op :: ops)).2 = (run step (step s op).2 ops).2 := rfl

theorem run_append_state (s : σ) (ops ops' : List ScopeOp) :
    (run step s (ops ++ ops')).2 = (run step (run step s ops).2 ops').2 := by
  induction ops generalizing s with
  | nil => rfl
  | cons op ops ih => exact ih (step s op).2

theorem run_append_answers (s : σ) (ops ops' : List ScopeOp) :
    (run step s (ops ++ ops')).1 = (run step s ops).1 ++ (run step (run step s ops).2 ops').1 := by
  induction ops generalizing s with
  | nil => rfl
  | cons op ops ih => exact congrArg ((step s op).1 :: ·) (ih (step s op).2)

theorem length_run (s : σ) (ops : List ScopeOp) : (run step s ops).1.length = ops.length := by
  induction ops generalizing s with
  | nil => rfl
  | cons op ops ih => simp [run, ih]

/-- The answers to later requests are those of the state that the earlier ones lead to. -/
theorem drop_run (s : σ) (ops later : List ScopeOp) :
    (run step s (ops ++ later)).1.drop ops.length = (run step (run step s ops).2 later).1 := by
  rw [run_append_answers]
  exact List.drop_left' (length_run s ops)

/-- What is kept by every step is kept by a run. -/
theorem run_induction {P : σ → Prop} (h : ∀ s op, P s → P (step s op).2) {s : σ} (hs : P s)
    (ops : List ScopeOp) : P (run step s ops).2 := by
  induction ops generalizing s with
  | nil => exact hs
  | cons op ops ih => exact ih (h s op hs)

/-- Two machines answer alike if a view of the one as the other is kept by every step. -/
theorem run_view (view : σ → τ) (h : ∀ s op, (step s op).1 = (step' (view s) op).1 ∧
      view (step s op).2 = (step' (view s) op).2) (s : σ) (ops : List ScopeOp) :
    (run step s ops).1 = (run step' (view s) ops).1 ∧
      view (run step s ops).2 = (run step' (view s) ops).2 := by
  induction ops generalizing s with
  | nil => exact ⟨rfl, rfl⟩
  | cons op ops ih =>
    obtain ⟨hanswer, hview⟩ := h s op
    obtain ⟨hanswers, hend⟩ := ih (step s op).2
    simp only [run, hanswer, hanswers, hend, hview, and_self]

end Run

end ScopeOp

/-! ### Stacks -/

/-- The types of the variables of one scope, and its records. -/
structure Frame where
  values : String → Option Ty
  records : String → Option Ty

def Frame.empty : Frame := ⟨fun _ => none, fun _ => none⟩

/-- Scopes, the innermost first. There is always one. -/
structure ScopeStack where
  top : Frame
  below : List Frame

namespace ScopeStack

variable {s : ScopeStack} {x : String} {schema : Ty} {ops : List ScopeOp}

def empty : ScopeStack := ⟨.empty, []⟩

def frames (s : ScopeStack) : List Frame := s.top :: s.below

def enter (s : ScopeStack) : ScopeStack := ⟨.empty, s.frames⟩

/-- Takes the innermost scope off, unless it is the last. -/
def exit (s : ScopeStack) : ScopeStack :=
  match s.below with
  | [] => s
  | f :: fs => ⟨f, fs⟩

def findVariable (s : ScopeStack) (x : String) : Option Ty := s.frames.findSome? (·.values x)

def addVariable (s : ScopeStack) (x : String) (t : Ty) : ScopeStack :=
  { s with top := { s.top with values := Function.update s.top.values x (some t) } }

/-- Declares a variable, unless the innermost scope has one of the name. -/
def declare (s : ScopeStack) (x : String) (t : Ty) : Bool × ScopeStack :=
  if (s.top.values x).isSome then (false, s) else (true, s.addVariable x t)

def findRecord (s : ScopeStack) (x : String) : Option Ty := s.frames.findSome? (·.records x)

def addRecord (s : ScopeStack) (x : String) (schema : Ty) : ScopeStack :=
  { s with top := { s.top with records := Function.update s.top.records x (some schema) } }

/-- Declares a record, unless any scope has one of the name. -/
def declareRecord (s : ScopeStack) (x : String) (schema : Ty) : Bool × ScopeStack :=
  if (s.findRecord x).isSome then (false, s) else (true, s.addRecord x schema)

def step (s : ScopeStack) : ScopeOp → ScopeAnswer × ScopeStack
  | .enter => (.done, s.enter)
  | .exit => (.done, s.exit)
  | .declare x t => (.declared (s.declare x t).1, (s.declare x t).2)
  | .declareRecord x schema =>
    (.declared (s.declareRecord x schema).1, (s.declareRecord x schema).2)
  | .findVariable x => (.found (s.findVariable x), s)
  | .findRecord x => (.found (s.findRecord x), s)
  | .depth => (.depth s.below.length, s)

/-! ### What is found -/

theorem findVariable_addVariable (s : ScopeStack) (x y : String) (t : Ty) :
    (s.addVariable y t).findVariable x = if x = y then some t else s.findVariable x := by
  by_cases h : x = y <;> simp [findVariable, addVariable, frames, List.findSome?_cons, h]

theorem findRecord_addRecord (s : ScopeStack) (x y : String) (schema : Ty) :
    (s.addRecord y schema).findRecord x = if x = y then some schema else s.findRecord x := by
  by_cases h : x = y <;> simp [findRecord, addRecord, frames, List.findSome?_cons, h]

/-! ### Scopes that are left again -/

theorem step_below {op : ScopeOp} (h : op.movesScope = false) : (s.step op).2.below = s.below := by
  cases op with
  | enter | exit => cases h
  | findVariable | findRecord | depth => rfl
  | declare x t =>
    show (s.declare x t).2.below = _
    unfold declare
    split <;> rfl
  | declareRecord x schema =>
    show (s.declareRecord x schema).2.below = _
    unfold declareRecord
    split <;> rfl

theorem run_below (h : ScopeOp.Balanced ops) (s : ScopeStack) :
    (ScopeOp.run step s ops).2.below = s.below := by
  induction h generalizing s with
  | nil => rfl
  | stay stays _ ih => rw [ScopeOp.run_cons_state, ih, step_below stays]
  | block _ _ ihi ih =>
    -- the scope is taken off again, and the frame beneath it is on top as before
    rw [ScopeOp.run_cons_state, ScopeOp.run_append_state, ScopeOp.run_cons_state, ih]
    show (exit _).below = s.below
    rw [exit, ihi]; rfl

/-- A scope that is entered and left leaves the stack as it was. -/
theorem run_block (h : ScopeOp.Balanced ops) (s : ScopeStack) :
    (ScopeOp.run step s (.enter :: (ops ++ [.exit]))).2 = s := by
  rw [ScopeOp.run_cons_state, ScopeOp.run_append_state]
  show exit _ = s
  rw [exit, run_below h]; rfl

/-- Later answers are those that would have been given without the scope. -/
theorem answers_after_block (s : ScopeStack) (before : List ScopeOp) {inner : List ScopeOp}
    (h : ScopeOp.Balanced inner) (later : List ScopeOp) :
    (ScopeOp.run step s (before ++ ScopeOp.enter :: (inner ++ ScopeOp.exit :: later))).1.drop
        (before.length + inner.length + 2) =
      (ScopeOp.run step s (before ++ later)).1.drop before.length := by
  have hsplit : before ++ ScopeOp.enter :: (inner ++ ScopeOp.exit :: later) =
      (before ++ ScopeOp.enter :: (inner ++ [.exit])) ++ later := by simp
  have hlength : before.length + inner.length + 2 =
      (before ++ ScopeOp.enter :: (inner ++ [.exit])).length := by
    simp only [List.length_append, List.length_cons, List.length_nil]
    omega
  have hstate : (ScopeOp.run step s (before ++ ScopeOp.enter :: (inner ++ [.exit]))).2 =
      (ScopeOp.run step s before).2 := by
    rw [ScopeOp.run_append_state, run_block h]
  rw [hsplit, hlength, ScopeOp.drop_run, ScopeOp.drop_run, hstate]

/-! ### Records are visible once -/

/-- Every record is bound in at most one of the visible scopes. -/
def Unique (s : ScopeStack) : Prop := ∀ x, s.frames.countP (fun f => (f.records x).isSome) ≤ 1

theorem countP_eq_zero_of_findRecord (h : s.findRecord x = none) :
    s.below.countP (fun f => (f.records x).isSome) = 0 := by
  rw [findRecord, frames, List.findSome?_eq_none_iff] at h
  refine List.countP_eq_zero.mpr fun f hf => ?_
  rw [h f (List.mem_cons_of_mem _ hf)]
  exact Bool.false_ne_true

theorem Unique.addRecord (h : s.Unique) (hx : s.findRecord x = none) :
    (s.addRecord x schema).Unique := by
  intro y
  rw [frames, List.countP_cons]
  by_cases hy : y = x
  · -- the record is now on top, and there was none below
    subst hy
    have hz := countP_eq_zero_of_findRecord hx
    show s.below.countP _ + _ ≤ 1
    split <;> omega
  · have htop : ((s.addRecord x schema).top.records y) = s.top.records y :=
      Function.update_of_ne hy _ _
    have hs := h y
    rw [frames, List.countP_cons] at hs
    rw [htop]
    exact hs

theorem Unique.step (h : s.Unique) (op : ScopeOp) : (s.step op).2.Unique := by
  cases op with
  | findVariable | findRecord | depth => exact h
  | enter =>
    intro x
    have hx := h x
    show (Frame.empty :: s.frames).countP _ ≤ 1
    rwa [List.countP_cons_of_neg (by simp [Frame.empty])]
  | exit =>
    intro x
    have hx := h x
    show (exit s).frames.countP _ ≤ 1
    rw [exit]
    split
    · exact hx
    next f fs hbelow =>
      rw [frames, hbelow, List.countP_cons] at hx
      exact Nat.le_trans (Nat.le_add_right _ _) hx
  | declare x t =>
    show (s.declare x t).2.Unique
    unfold declare
    split
    · exact h
    · exact h
  | declareRecord x schema =>
    show (s.declareRecord x schema).2.Unique
    unfold declareRecord
    split
    · exact h
    next hx => exact h.addRecord (Option.not_isSome_iff_eq_none.mp hx)

theorem run_unique (ops : List ScopeOp) : (ScopeOp.run step empty ops).2.Unique := by
  refine ScopeOp.run_induction (fun s op h => h.step op) ?_ ops
  intro x
  simp [frames, empty, Frame.empty]

end ScopeStack

/-! ### Contexts -/

namespace Context

def step (Γ : Context) : ScopeOp → ScopeAnswer × Context
  | .enter => (.done, Γ.enter)
  | .exit => (.done, Γ.exit)
  | .declare x t =>
    match Γ.declare x t with
    | some Δ => (.declared true, Δ)
    | none => (.declared false, Γ)
  | .declareRecord x schema =>
    match Γ.declareRecord x schema with
    | some Δ => (.declared true, Δ)
    | none => (.declared false, Γ)
  | .findVariable x => (.found (Γ.findVariable x), Γ)
  | .findRecord x => (.found (Γ.findRecord x), Γ)
  | .depth => (.depth Γ.depth, Γ)

/-- The stack that a list of entries stands for. -/
def stackOf : List Entry → ScopeStack
  | [] => .empty
  | .scope :: es => (stackOf es).enter
  | .variable x t :: es => (stackOf es).addVariable x t
  | .record x schema :: es => (stackOf es).addRecord x schema

/-- The stack of scopes that a context stands for. -/
def stack (Γ : Context) : ScopeStack := stackOf Γ.entries

theorem findVariable_stackOf (es : List Entry) (x : String) :
    (stackOf es).findVariable x = es.findSome? (Entry.variableOf x) := by
  induction es with
  | nil => rfl
  | cons e es ih =>
    rw [List.findSome?_cons, ← ih]
    rcases e with _ | ⟨y, t⟩ | ⟨y, schema⟩
    · rfl
    · rw [stackOf, ScopeStack.findVariable_addVariable, Entry.variableOf]
      split <;> rfl
    · rfl

theorem findRecord_stackOf (es : List Entry) (x : String) :
    (stackOf es).findRecord x = es.findSome? (Entry.recordOf x) := by
  induction es with
  | nil => rfl
  | cons e es ih =>
    rw [List.findSome?_cons, ← ih]
    rcases e with _ | ⟨y, t⟩ | ⟨y, schema⟩
    · rfl
    · rfl
    · rw [stackOf, ScopeStack.findRecord_addRecord, Entry.recordOf]
      split <;> rfl

/-- The variables of the current scope are those on top. -/
theorem top_stackOf (es : List Entry) (x : String) : (stackOf es).top.values x =
    (es.takeWhile fun e => !e.isScope).findSome? (Entry.variableOf x) := by
  induction es with
  | nil => rfl
  | cons e es ih =>
    rcases e with _ | ⟨y, t⟩ | ⟨y, schema⟩
    · rfl
    · rw [List.takeWhile_cons_of_pos rfl, List.findSome?_cons, ← ih, Entry.variableOf]
      by_cases h : x = y <;> simp [stackOf, ScopeStack.addVariable, h]
    · exact ih

theorem length_below_stackOf (es : List Entry) :
    (stackOf es).below.length = es.countP Entry.isScope := by
  induction es with
  | nil => rfl
  | cons e es ih =>
    rcases e with _ | ⟨y, t⟩ | ⟨y, schema⟩
    · rw [List.countP_cons_of_pos rfl, ← ih]; rfl
    · exact ih
    · exact ih

theorem exit_stackOf (es : List Entry) :
    (stackOf es).exit = ((outer? es).map stackOf).getD (stackOf es) := by
  have key : (stackOf es).below = ((outer? es).map fun os => (stackOf os).frames).getD [] := by
    induction es with
    | nil => rfl
    | cons e es ih =>
      rcases e with _ | _ | _
      · rfl
      · exact ih
      · exact ih
  rw [ScopeStack.exit, key]
  cases outer? es with
  | none => rfl
  | some os => rfl

/-- A request gets the same answer from a context as from its stack, and leads to the same stack. -/
theorem step_stack (Γ : Context) (op : ScopeOp) : (Γ.step op).1 = (Γ.stack.step op).1 ∧
    (Γ.step op).2.stack = (Γ.stack.step op).2 := by
  cases op with
  | enter => exact ⟨rfl, rfl⟩
  | exit =>
    refine ⟨rfl, ?_⟩
    show Γ.exit.stack = Γ.stack.exit
    rw [stack, stack, exit_stackOf, exit]
    cases outer? Γ.entries with
    | none => rfl
    | some os => rfl
  | declare x t =>
    have htop : Γ.stack.top.values x = Γ.current.findSome? (Entry.variableOf x) := top_stackOf _ x
    simp only [step, ScopeStack.step, declare, ScopeStack.declare, htop]
    cases Γ.current.findSome? (Entry.variableOf x) with
    | none => exact ⟨rfl, rfl⟩
    | some u => exact ⟨rfl, rfl⟩
  | declareRecord x schema =>
    have hfound : Γ.stack.findRecord x = Γ.findRecord x := findRecord_stackOf _ x
    simp only [step, ScopeStack.step, declareRecord, ScopeStack.declareRecord, hfound]
    cases Γ.findRecord x with
    | none => exact ⟨rfl, rfl⟩
    | some u => exact ⟨rfl, rfl⟩
  | findVariable x => exact ⟨congrArg ScopeAnswer.found (findVariable_stackOf _ x).symm, rfl⟩
  | findRecord x => exact ⟨congrArg ScopeAnswer.found (findRecord_stackOf _ x).symm, rfl⟩
  | depth => exact ⟨congrArg ScopeAnswer.depth (length_below_stackOf _).symm, rfl⟩

/-- Requests get the same answers from a context as from a stack of scopes. -/
theorem answers_eq_stack (ops : List ScopeOp) :
    (ScopeOp.run step empty ops).1 = (ScopeOp.run ScopeStack.step .empty ops).1 :=
  (ScopeOp.run_view stack step_stack empty ops).1

end Context

end RecordLang
