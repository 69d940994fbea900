import RecordLang.Proofs.Typing.Stack

/-!
# An arena of scopes

The scopes of a context may be kept in an arena, where each has the index of its parent and lookups
follow the parents outward from the current scope. Indices could be out of range and parents could
go round, so all that an arena does may fail. It does not: after any requests the current scope is
the last one, the parent of a scope is the one before it, and the answers are those of a context
(`Arena.refines_stack`).
-/

namespace RecordLang

/-- A scope of an arena. -/
structure Scope where
  parent : Option Nat
  values : Std.HashMap String Ty
  records : Std.HashMap String Ty

namespace Scope

/-- A scope in which nothing is declared. -/
def fresh (parent : Option Nat) : Scope := ⟨parent, ∅, ∅⟩

def addVariable (s : Scope) (x : String) (t : Ty) : Scope :=
  { s with values := s.values.insert x t }

def addRecord (s : Scope) (x : String) (schema : Ty) : Scope :=
  { s with records := s.records.insert x schema }

/-- What is declared in a scope. -/
def frame (s : Scope) : Frame := ⟨fun x => s.values[x]?, fun x => s.records[x]?⟩

theorem getElem?_insert (m : Std.HashMap String Ty) (x : String) (t : Ty) :
    (fun y => (m.insert x t)[y]?) = Function.update (fun y => m[y]?) x (some t) := by
  funext y
  rw [Std.HashMap.getElem?_insert, Function.update_apply]
  by_cases h : x = y
  · simp [h]
  · simp [h, Ne.symm h]

theorem frame_addVariable (s : Scope) (x : String) (t : Ty) : (s.addVariable x t).frame =
    { s.frame with values := Function.update s.frame.values x (some t) } :=
  congrArg (Frame.mk · s.frame.records) (getElem?_insert s.values x t)

theorem frame_addRecord (s : Scope) (x : String) (schema : Ty) : (s.addRecord x schema).frame =
    { s.frame with records := Function.update s.frame.records x (some schema) } :=
  congrArg (Frame.mk s.frame.values) (getElem?_insert s.records x schema)

end Scope

/-- Scopes that are addressed by index, and the index of the current one. -/
structure Arena where
  scopes : Array Scope
  current : Nat

namespace Arena

def new : Arena := ⟨#[.fresh none], 0⟩

/-- The scopes from an index outward to one without a parent. There are none if an index is out of
range, or if the parents lead past more scopes than the bound. -/
def walk (a : Arena) : Nat → Nat → Option (List Scope)
  | 0, _ => none
  | n + 1, i => do
    let s ← a.scopes[i]?
    match s.parent with
    | none => return [s]
    | some j => return s :: (← a.walk n j)

/-- The visible scopes, the innermost first. A walk past more scopes than there are would come to
one of them again, and never end. -/
def chain (a : Arena) : Option (List Scope) := a.walk a.scopes.size a.current

def depth (a : Arena) : Option Nat := return (← a.chain).length - 1

def enter (a : Arena) : Arena :=
  let scopes := a.scopes.push (.fresh (some a.current))
  ⟨scopes, scopes.size - 1⟩

/-- Discards the current scope and returns to its parent. The outermost scope is never left. -/
def exit (a : Arena) : Option Arena := do
  let s ← a.scopes[a.current]?
  match s.parent with
  | none => return a
  | some p => return ⟨a.scopes.take a.current, p⟩

/-- Puts a scope at the place of the current one. -/
def setCurrent (a : Arena) (s : Scope) : Arena :=
  { a with scopes := a.scopes.setIfInBounds a.current s }

def findVariable (a : Arena) (x : String) : Option (Option Ty) :=
  return (← a.chain).findSome? (·.values[x]?)

def declare (a : Arena) (x : String) (t : Ty) : Option (Bool × Arena) := do
  let s ← a.scopes[a.current]?
  if s.values.contains x then return (false, a)
  else return (true, a.setCurrent (s.addVariable x t))

def findRecord (a : Arena) (x : String) : Option (Option Ty) :=
  return (← a.chain).findSome? (·.records[x]?)

def declareRecord (a : Arena) (x : String) (schema : Ty) : Option (Bool × Arena) := do
  if (← a.findRecord x).isSome then return (false, a)
  else
    let s ← a.scopes[a.current]?
    return (true, a.setCurrent (s.addRecord x schema))

def step (a : Arena) : ScopeOp → Option (ScopeAnswer × Arena)
  | .enter => some (.done, a.enter)
  | .exit => a.exit.map fun b => (.done, b)
  | .declare x t => (a.declare x t).map fun (accepted, b) => (.declared accepted, b)
  | .declareRecord x schema =>
    (a.declareRecord x schema).map fun (accepted, b) => (.declared accepted, b)
  | .findVariable x => (a.findVariable x).map fun type => (.found type, a)
  | .findRecord x => (a.findRecord x).map fun type => (.found type, a)
  | .depth => a.depth.map fun n => (.depth n, a)

/-- The answers to requests made one after another, and the arena they lead to. -/
def run (a : Arena) : List ScopeOp → Option (List ScopeAnswer × Arena)
  | [] => some ([], a)
  | op :: ops => do
    let (answer, b) ← a.step op
    let (answers, b) ← b.run ops
    return (answer :: answers, b)

/-! ### The last scope -/

section Last

variable (base : Array Scope) (cur cur' : Scope)

theorem setCurrent_push :
    setCurrent ⟨base.push cur, base.size⟩ cur' = ⟨base.push cur', base.size⟩ := by
  refine congrArg (Arena.mk · base.size) (Array.toList_inj.mp ?_)
  simp

theorem exit_push : exit ⟨base.push cur, base.size⟩ =
    some (cur.parent.elim ⟨base.push cur, base.size⟩ fun p => ⟨base, p⟩) := by
  cases hp : cur.parent with
  | none => simp [exit, hp]
  | some p => simp [exit, hp]

end Last

/-! ### Links -/

/-- The index before this one, if there is one. -/
def before : Nat → Option Nat
  | 0 => none
  | i + 1 => some i

/-- The current scope is the last, and the parent of a scope is the one before it. -/
structure Linked (a : Arena) : Prop where
  last : a.current + 1 = a.scopes.size
  parent : ∀ i s, a.scopes[i]? = some s → s.parent = before i

variable {a : Arena} {base : Array Scope} {cur cur' : Scope} {s : ScopeStack} {i n : Nat}

namespace Linked

theorem walk (h : a.Linked) (hi : i < a.scopes.size) (hn : i < n) :
    a.walk n i = some (a.scopes.toList.take (i + 1)).reverse := by
  have hget := Array.getElem?_eq_getElem hi
  have hparent := h.parent i _ hget
  obtain _ | n := n
  · omega
  induction i generalizing n with
  | zero =>
    rw [Arena.walk, hget]
    simp [hparent, before, List.take_add_one, hget]
  | succ i ih =>
    obtain _ | n := n
    · omega
    have hi' : i < a.scopes.size := by omega
    have hget' := Array.getElem?_eq_getElem hi'
    have hrest := ih hi' hget' (h.parent i _ hget') n (by omega)
    rw [Arena.walk, hget, List.take_add_one, List.reverse_append]
    simp [hparent, before, hrest, hget]

/-- The walk outward comes to an end, and passes all scopes. -/
theorem chain (h : a.Linked) : a.chain = some a.scopes.toList.reverse := by
  have hlast := h.last
  rw [Arena.chain, h.walk (by omega) (by omega), hlast, ← Array.length_toList, List.take_length]

theorem enter (h : a.Linked) : a.enter.Linked := by
  refine ⟨by simp [Arena.enter], fun i s hs => ?_⟩
  simp only [Arena.enter, Array.getElem?_push] at hs
  split at hs
  next hi =>
    cases hs
    rw [hi, ← h.last]
    rfl
  next => exact h.parent i s hs

/-- A scope may be put at the place of the last one if it has the same parent. -/
theorem replace (h : Linked ⟨base.push cur, base.size⟩) (hp : cur'.parent = cur.parent) :
    Linked ⟨base.push cur', base.size⟩ := by
  refine ⟨by simp, fun i s hs => ?_⟩
  have hparent := h.parent i
  simp only [Array.getElem?_push] at hs hparent
  split at hs
  next hi =>
    cases hs
    rw [hp]
    exact hparent cur (if_pos hi)
  next hi => exact hparent s ((if_neg hi).trans hs)

/-- Without the last scope the others are linked. -/
theorem pop (h : Linked ⟨base.push cur, base.size⟩) (hi : i + 1 = base.size) :
    Linked ⟨base, i⟩ := by
  refine ⟨hi, fun j s hs => h.parent j s ?_⟩
  have hj : j < base.size := (Array.getElem?_eq_some_iff.mp hs).1
  show (base.push cur)[j]? = some s
  rw [Array.getElem?_push, if_neg (by omega), hs]

end Linked

/-! ### Arenas for stacks -/

/-- The scopes of the arena, from the last to the first, are those of the stack. -/
structure Models (a : Arena) (s : ScopeStack) : Prop extends a.Linked where
  frames : a.scopes.toList.reverse.map Scope.frame = s.frames

theorem models_push : Models ⟨base.push cur, base.size⟩ s ↔
    Linked ⟨base.push cur, base.size⟩ ∧ cur.frame = s.top ∧
      base.toList.reverse.map Scope.frame = s.below := by
  have hframes : (base.push cur).toList.reverse.map Scope.frame = s.frames ↔
      cur.frame = s.top ∧ base.toList.reverse.map Scope.frame = s.below := by
    simp [ScopeStack.frames]
  rw [← hframes]
  exact ⟨fun h => ⟨h.toLinked, h.frames⟩, fun h => ⟨h.1, h.2⟩⟩

theorem new_models : new.Models .empty := by
  refine ⟨⟨rfl, fun i s hs => ?_⟩, ?_⟩
  · obtain ⟨hi, rfl⟩ := Array.getElem?_eq_some_iff.mp hs
    obtain rfl : i = 0 := Nat.lt_one_iff.mp hi
    rfl
  · simp [new, Scope.frame, Scope.fresh, ScopeStack.frames, ScopeStack.empty, Frame.empty]

namespace Models

/-- There is a scope, and the current one is the last. -/
theorem exists_push (h : a.Models s) :
    ∃ (base : Array Scope) (cur : Scope), a = ⟨base.push cur, base.size⟩ := by
  obtain ⟨scopes, current⟩ := a
  have hlast : current + 1 = scopes.size := h.last
  obtain ⟨base, cur, rfl⟩ := Array.eq_push_of_size_ne_zero (by omega : scopes.size ≠ 0)
  rw [Array.size_push] at hlast
  obtain rfl : current = base.size := by omega
  exact ⟨base, cur, rfl⟩

theorem findVariable (h : a.Models s) (x : String) :
    a.findVariable x = some (s.findVariable x) := by
  rw [Arena.findVariable, h.chain, ScopeStack.findVariable, ← h.frames, List.findSome?_map]
  rfl

theorem findRecord (h : a.Models s) (x : String) : a.findRecord x = some (s.findRecord x) := by
  rw [Arena.findRecord, h.chain, ScopeStack.findRecord, ← h.frames, List.findSome?_map]
  rfl

theorem depth (h : a.Models s) : a.depth = some s.below.length := by
  have hlength := congrArg List.length h.frames
  rw [List.length_map, ScopeStack.frames, List.length_cons] at hlength
  rw [Arena.depth, h.chain]
  show some (a.scopes.toList.reverse.length - 1) = _
  rw [hlength]
  rfl

theorem enter (h : a.Models s) : a.enter.Models s.enter := by
  refine ⟨h.toLinked.enter, ?_⟩
  simp [Arena.enter, ScopeStack.enter, ScopeStack.frames, h.frames, Scope.frame, Scope.fresh,
    Frame.empty]

theorem exit (h : a.Models s) : ∃ b, a.exit = some b ∧ b.Models s.exit := by
  obtain ⟨base, cur, rfl⟩ := h.exists_push
  obtain ⟨hl, -, hbelow⟩ := models_push.mp h
  have hparent := hl.parent base.size cur Array.getElem?_push_size
  have hsize : base.size = s.below.length := by
    rw [← hbelow]
    simp
  rw [hsize] at hparent
  rw [exit_push, hparent]
  refine ⟨_, rfl, ?_⟩
  rw [ScopeStack.exit]
  cases hs : s.below with
  | nil => exact h
  | cons f fs =>
    rw [hs] at hsize hbelow
    exact ⟨hl.pop hsize.symm, hbelow⟩

/-- Something is declared in the current scope. -/
theorem replace (h : Models ⟨base.push cur, base.size⟩ s) (hp : cur'.parent = cur.parent) :
    Models ⟨base.push cur', base.size⟩ ⟨cur'.frame, s.below⟩ :=
  models_push.mpr ⟨h.toLinked.replace hp, rfl, (models_push.mp h).2.2⟩

theorem declare (h : a.Models s) (x : String) (t : Ty) :
    ∃ b, a.declare x t = some ((s.declare x t).1, b) ∧ b.Models (s.declare x t).2 := by
  obtain ⟨base, cur, rfl⟩ := h.exists_push
  obtain ⟨-, htop, -⟩ := models_push.mp h
  have hvalue : (s.top.values x).isSome = cur.values.contains x := by
    rw [← htop, Std.HashMap.contains_eq_isSome_getElem?]; rfl
  simp only [Arena.declare, ScopeStack.declare, Array.getElem?_push_size, Option.bind_eq_bind,
    Option.bind_some, hvalue, setCurrent_push]
  split
  · exact ⟨_, rfl, h⟩
  · refine ⟨_, rfl, ?_⟩
    have hnew := h.replace (rfl : (cur.addVariable x t).parent = cur.parent)
    rw [Scope.frame_addVariable, htop] at hnew
    exact hnew

theorem declareRecord (h : a.Models s) (x : String) (schema : Ty) :
    ∃ b, a.declareRecord x schema = some ((s.declareRecord x schema).1, b) ∧
      b.Models (s.declareRecord x schema).2 := by
  have hfound := h.findRecord x
  obtain ⟨base, cur, rfl⟩ := h.exists_push
  obtain ⟨-, htop, -⟩ := models_push.mp h
  simp only [Arena.declareRecord, ScopeStack.declareRecord, hfound, Array.getElem?_push_size,
    Option.bind_eq_bind, Option.bind_some, setCurrent_push]
  split
  · exact ⟨_, rfl, h⟩
  · refine ⟨_, rfl, ?_⟩
    have hnew := h.replace (rfl : (cur.addRecord x schema).parent = cur.parent)
    rw [Scope.frame_addRecord, htop] at hnew
    exact hnew

/-- A request is answered as by the stack, and leads to an arena for the stack it leads to. -/
theorem step (h : a.Models s) (op : ScopeOp) :
    ∃ b, a.step op = some ((s.step op).1, b) ∧ b.Models (s.step op).2 := by
  cases op with
  | enter => exact ⟨_, rfl, h.enter⟩
  | exit =>
    obtain ⟨b, hb, hm⟩ := h.exit
    exact ⟨b, by rw [Arena.step, hb]; rfl, hm⟩
  | declare x t =>
    obtain ⟨b, hb, hm⟩ := h.declare x t
    exact ⟨b, by rw [Arena.step, hb]; rfl, hm⟩
  | declareRecord x schema =>
    obtain ⟨b, hb, hm⟩ := h.declareRecord x schema
    exact ⟨b, by rw [Arena.step, hb]; rfl, hm⟩
  | findVariable x => exact ⟨a, by rw [Arena.step, h.findVariable x]; rfl, h⟩
  | findRecord x => exact ⟨a, by rw [Arena.step, h.findRecord x]; rfl, h⟩
  | depth => exact ⟨a, by rw [Arena.step, h.depth]; rfl, h⟩

theorem run (h : a.Models s) (ops : List ScopeOp) :
    ∃ b, a.run ops = some ((ScopeOp.run ScopeStack.step s ops).1, b) ∧
      b.Models (ScopeOp.run ScopeStack.step s ops).2 := by
  induction ops generalizing a s with
  | nil => exact ⟨a, rfl, h⟩
  | cons op ops ih =>
    obtain ⟨b, hb, hm⟩ := h.step op
    obtain ⟨c, hc, hm'⟩ := ih hm
    refine ⟨c, ?_, hm'⟩
    rw [Arena.run, hb]
    show (do let (answers, b) ← b.run ops; pure ((s.step op).1 :: answers, b)) = _
    rw [hc]
    rfl

theorem unique (h : a.Models s) (hs : s.Unique) (x : String) :
    a.scopes.toList.countP (fun s => s.records.contains x) ≤ 1 := by
  have hx := hs x
  rw [← h.frames, List.countP_map, List.countP_reverse] at hx
  refine Nat.le_trans (Nat.le_of_eq (List.countP_congr fun s _ => ?_)) hx
  rw [Std.HashMap.contains_eq_isSome_getElem?]
  rfl

end Models

/-- Any requests get from an arena the answers that they get from a context and from a stack of
scopes. No index is out of range on the way: the current scope is the last, the parent of a scope is
the one before it, and the walk outward passes all scopes and ends. No record is declared in two of
them. A scope that is entered and left again has no effect on the answers outside it. -/
theorem refines_stack (ops : List ScopeOp) :
    let answers := fun ops => (ScopeOp.run Context.step .empty ops).1
    answers ops = (ScopeOp.run ScopeStack.step .empty ops).1 ∧
    (∃ a, new.run ops = some (answers ops, a) ∧
      a.current + 1 = a.scopes.size ∧
      (∀ s, a.scopes[0]? = some s → s.parent = none) ∧
      (∀ i s, a.scopes[i + 1]? = some s → s.parent = some i) ∧
      a.chain = some a.scopes.toList.reverse ∧
      ∀ x, a.scopes.toList.countP (fun s => s.records.contains x) ≤ 1) ∧
    ∀ inner later, ScopeOp.Balanced inner →
      (answers (ops ++ .enter :: (inner ++ .exit :: later))).drop (ops.length + inner.length + 2) =
        (answers (ops ++ later)).drop ops.length := by
  intro answers
  refine ⟨Context.answers_eq_stack ops, ?_, ?_⟩
  · obtain ⟨a, ha, hm⟩ := new_models.run ops
    rw [← Context.answers_eq_stack] at ha
    exact ⟨a, ha, hm.last, hm.parent 0, fun i => hm.parent (i + 1), hm.chain,
      hm.unique (ScopeStack.run_unique ops)⟩
  · intro inner later h
    simp only [answers, Context.answers_eq_stack]
    exact ScopeStack.answers_after_block .empty ops h later

/-- A variable is hidden and a record declared in a scope, after a vain attempt to leave the
outermost one. Outside the scope neither is seen. -/
theorem hidden_then_left :
    let ops : List ScopeOp := [.declareRecord "P" (.record []), .exit, .declare "a" .int]
    let inner : List ScopeOp := [.declare "a" .bool, .declareRecord "P" .int, .enter,
      .declareRecord "Q" .int, .exit, .findVariable "a"]
    let later : List ScopeOp := [.findVariable "a", .findRecord "Q", .depth]
    ScopeOp.Balanced inner ∧
      (ScopeOp.run Context.step .empty (ops ++ .enter :: (inner ++ .exit :: later))).1.drop 11 =
        [.found (some .int), .found none, .depth 0] := by
  intro ops inner later
  have h : ScopeOp.Balanced inner :=
    .stay rfl (.stay rfl (.block (.stay rfl .nil) (.stay rfl .nil)))
  exact ⟨h, ((refines_stack ops).2.2 inner later h).trans rfl⟩

end Arena

end RecordLang
