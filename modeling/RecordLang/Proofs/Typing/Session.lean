import RecordLang.Proofs.Typing.Slots

/-!
# One checker, many calls

A session keeps trees and checks them one after another, each as often as wanted, with the checker
that the last call left. It stops at the first call that comes to a visited node. Whatever the calls
find, types stay where they are, and a node with a type has types on all nodes below it
(`Session.types_persist`).
-/

namespace RecordLang

/-! ### Nodes below a node -/

section Below

variable {d : Expr} {es ds : List Expr}

theorem postorder_sublist_append (h : d ∈ es → d.postorder.Sublist es)
    (h' : d ∈ ds → d.postorder.Sublist ds) (hd : d ∈ es ++ ds) : d.postorder.Sublist (es ++ ds) := by
  rcases List.mem_append.mp hd with hd | hd
  · exact (h hd).trans (List.sublist_append_left es ds)
  · exact (h' hd).trans (List.sublist_append_right es ds)

mutual

/-- With a node, all nodes below it are listed, in the same order. -/
theorem Expr.postorder_sublist : ∀ e : Expr, d ∈ e.postorder → d.postorder.Sublist e.postorder
  | .mk form span type => by
    intro hd
    rcases List.mem_append.mp hd with hd | hd
    · exact (form.postorder_sublist hd).trans (List.sublist_append_left _ _)
    · obtain rfl := List.mem_singleton.mp hd
      exact .refl _

theorem Form.postorder_sublist : ∀ form : Form,
    d ∈ form.postorder → d.postorder.Sublist form.postorder
  | .literal _, hd => absurd hd List.not_mem_nil
  | .variable _, hd => absurd hd List.not_mem_nil
  | .group e, hd => e.postorder_sublist hd
  | .unary _ e, hd => e.postorder_sublist hd
  | .binary l _ r, hd => postorder_sublist_append l.postorder_sublist r.postorder_sublist hd
  | .logical l _ r, hd => postorder_sublist_append l.postorder_sublist r.postorder_sublist hd
  | .function _ _ body, hd => body.postorder_sublist hd
  | .call f args, hd => postorder_sublist_append f.postorder_sublist (postorderArgs_sublist args) hd
  | .get e _, hd => e.postorder_sublist hd
  | .record _ fields, hd => postorderFields_sublist fields hd

theorem postorderArgs_sublist : ∀ args : List Expr,
    d ∈ postorderArgs args → d.postorder.Sublist (postorderArgs args)
  | [], hd => absurd hd List.not_mem_nil
  | e :: es, hd => postorder_sublist_append e.postorder_sublist (postorderArgs_sublist es) hd

theorem postorderFields_sublist : ∀ fields : List (Ident × Expr),
    d ∈ postorderFields fields → d.postorder.Sublist (postorderFields fields)
  | [], hd => absurd hd List.not_mem_nil
  | (_, e) :: fs, hd => postorder_sublist_append e.postorder_sublist (postorderFields_sublist fs) hd

theorem Stmt.postorder_sublist : ∀ s : Stmt, d ∈ s.postorder → d.postorder.Sublist s.postorder
  | .expr e _, hd => e.postorder_sublist hd
  | .let_ _ _ none _, hd => absurd hd List.not_mem_nil
  | .let_ _ _ (some e) _, hd => e.postorder_sublist hd
  | .block body _, hd => postorderAll_sublist body hd
  | .if_ e s none _, hd => postorder_sublist_append e.postorder_sublist s.postorder_sublist hd
  | .if_ e s (some t) _, hd =>
    postorder_sublist_append e.postorder_sublist
      (postorder_sublist_append s.postorder_sublist t.postorder_sublist) hd
  | .while_ e s _, hd => postorder_sublist_append e.postorder_sublist s.postorder_sublist hd
  | .struct .., hd => absurd hd List.not_mem_nil
  | .return_ none _, hd => absurd hd List.not_mem_nil
  | .return_ (some e) _, hd => e.postorder_sublist hd

theorem postorderAll_sublist : ∀ ss : List Stmt,
    d ∈ postorderAll ss → d.postorder.Sublist (postorderAll ss)
  | [], hd => absurd hd List.not_mem_nil
  | s :: ss, hd => postorder_sublist_append s.postorder_sublist (postorderAll_sublist ss) hd

end

/-- The slot of a node is the last of those below it. -/
theorem InOrder.filled_of_mem (h : InOrder es) (hd : d.postorder.Sublist es) (ht : d.type ≠ none) :
    Filled d.postorder := by
  have ho : InOrder d.postorder := List.Pairwise.sublist hd h
  obtain ⟨form, span, type⟩ := d
  obtain ⟨-, -, hparts⟩ := inOrder_append.mp ho
  exact filled_append.mpr ⟨hparts ⟨_, List.mem_singleton_self _, ht⟩, List.forall_mem_singleton.mpr ht⟩

end Below

/-- A node with a type has types on all nodes below it. -/
def Program.Settled (p : Program) : Prop := ∀ e ∈ p.postorder, e.type ≠ none → Filled e.postorder

theorem InOrder.settled {p : Program} (h : InOrder p.postorder) : p.Settled :=
  fun _ he ht => h.filled_of_mem (postorderAll_sublist p.body he) ht

/-! ### Sessions -/

/-- A checker and the trees it is used on. -/
structure Session where
  checker : Checker
  trees : List Program
  /-- The last call came to a visited node. -/
  stopped : Bool

namespace Session

/-- Checks the tree at the given place. -/
def call (s : Session) (i : Nat) : Session :=
  match s.stopped, s.trees[i]? with
  | false, some p =>
    let v := p.check s.checker
    ⟨v.state, s.trees.set i v.nodes, v.result = .error .revisited⟩
  | _, _ => s

/-- Calls one after another. -/
def run (s : Session) (is : List Nat) : Session := is.foldl call s

/-- What holds of the trees before and after some calls. -/
structure Later (s s' : Session) : Prop where
  keeps : ∀ (i : Nat) (p : Program), s.trees[i]? = some p →
    ∃ q, s'.trees[i]? = some q ∧ Keeps p.postorder q.postorder
  ordered : (∀ p ∈ s.trees, InOrder p.postorder) → ∀ p ∈ s'.trees, InOrder p.postorder

theorem Later.refl (s : Session) : Later s s := ⟨fun _ p hp => ⟨p, hp, .refl _⟩, id⟩

theorem Later.trans {s s' s'' : Session} (h : Later s s') (h' : Later s' s'') : Later s s'' := by
  refine ⟨?_, fun ho => h'.ordered (h.ordered ho)⟩
  intro i p hp
  obtain ⟨q, hq, hpq⟩ := h.keeps i p hp
  obtain ⟨r, hr, hqr⟩ := h'.keeps i q hq
  exact ⟨r, hr, hpq.trans hqr⟩

theorem call_later (s : Session) (i : Nat) : Later s (s.call i) := by
  rw [call]
  split
  next p hstop hp =>
    have hfills := p.check_fills s.checker
    have hi : i < s.trees.length := (List.getElem?_eq_some_iff.mp hp).1
    constructor
    · intro j q hq
      by_cases hij : i = j
      · subst hij
        obtain rfl : p = q := Option.some.inj (hp.symm.trans hq)
        exact ⟨_, List.getElem?_set_self hi, hfills.keeps⟩
      · exact ⟨q, (List.getElem?_set_ne hij).trans hq, .refl _⟩
    · intro ho q hq
      rcases List.mem_or_eq_of_mem_set hq with hq | rfl
      · exact ho q hq
      · exact hfills.ordered (ho p (List.mem_of_getElem? hp))
  next => exact .refl s

theorem run_later (s : Session) (is : List Nat) : Later s (s.run is) := by
  induction is generalizing s with
  | nil => exact .refl s
  | cons i is ih => exact (s.call_later i).trans (ih (s.call i))

/-- A check of a tree without types does not come to a visited node, and one that ends well has come
only to nodes without a type, and to all of them. In a session that starts with such trees, types
stay where they are, and a node with a type has types on all nodes below it. -/
theorem types_persist :
    (∀ (p : Program) (c : Checker),
      (Unfilled p.postorder → (p.check c).result ≠ .error .revisited) ∧
        ((p.check c).result = .ok () → Unfilled p.postorder ∧ Filled (p.check c).nodes.postorder)) ∧
      ∀ (c : Checker) (ps : List Program), (∀ p ∈ ps, Unfilled p.postorder) → ∀ is js : List Nat,
        let s := run ⟨c, ps, false⟩ is
        (∀ p ∈ s.trees, p.Settled) ∧
          ∀ (i : Nat) (p : Program), s.trees[i]? = some p →
            ∃ q, (s.run js).trees[i]? = some q ∧ Keeps p.postorder q.postorder := by
  refine ⟨fun p c => ⟨fun hp hr => ?_, (p.check_fills c).ok ()⟩, fun c ps hps is js => ⟨?_, ?_⟩⟩
  · obtain ⟨e, he, ht⟩ := (p.check_fills c).revisited hr
    exact ht (hp e he)
  · intro p hp
    exact ((run_later ⟨c, ps, false⟩ is).ordered (fun p hp => (hps p hp).inOrder) p hp).settled
  · exact (run_later _ js).keeps

/-- `-1 + true;` -/
def mismatch : Program :=
  let one : Expr := .new (.unary .neg (.new (.literal (.int 1)) default)) default
  ⟨[.expr (.new (.binary one .add (.new (.literal (.bool true)) default)) default) default], default⟩

theorem mismatch_checked_twice :
    let s := run ⟨.new, [mismatch], false⟩ [0]
    s.stopped = false ∧ (s.run [0]).stopped = true ∧ ∃ p q,
      s.trees[0]? = some p ∧ (s.run [0]).trees[0]? = some q ∧
      p.postorder.map Expr.type = [some .int, some .int, some .bool, none] ∧
      p.Settled ∧ Keeps p.postorder q.postorder := by
  have hempty : ∀ p ∈ [mismatch], Unfilled p.postorder := by
    simp [Unfilled, mismatch, Program.postorder, postorderAll, Stmt.postorder, Expr.new, Expr.postorder,
      Form.postorder, Expr.type]
  obtain ⟨hsettled, hkeeps⟩ := types_persist.2 .new [mismatch] hempty [0] [0]
  obtain ⟨p, hp⟩ : ∃ p, (run ⟨.new, [mismatch], false⟩ [0]).trees[0]? = some p := ⟨_, rfl⟩
  obtain ⟨q, hq, hpq⟩ := hkeeps 0 p hp
  refine ⟨rfl, rfl, p, q, hp, hq, ?_, hsettled p (List.mem_of_getElem? hp), hpq⟩
  cases hp
  rfl

end Session

end RecordLang
