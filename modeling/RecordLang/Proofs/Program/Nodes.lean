import Mathlib.Logic.Relation
import RecordLang.Proofs.Program.Written
import RecordLang.Proofs.Source.Lines

/-!
# Nodes and their tokens

Identifiers, written types, typed names, expressions and statements are the nodes of a tree. The
constituents of a node are its own tokens and the nodes right below it, in the order of the text.
A node stands on some tokens (`Node.Stands`) if its constituents are made of them one after another
and its span, like that of every node in it, runs from its first token to its last one. So the nodes
in it stand on segments of its tokens (`Node.Stands.below`), its span contains theirs
(`Span.Covers.within`), and those right below it follow each other (`MadeOf.siblings`).
-/

namespace RecordLang

inductive Node where
  | ident (x : Ident)
  | type (t : TypeExpr)
  | typedName (x : TypedName)
  | expr (e : Expr)
  | stmt (s : Stmt)

namespace Node

def span : Node → Span
  | ident x => x.span
  | type t => t.span
  | typedName x => x.span
  | expr e => e.span
  | stmt s => s.span

/-- The type that is written at the node; only expressions have one. -/
def slot : Node → Option Ty
  | expr e => e.type
  | _ => none

end Node

/-! ### Constituents -/

inductive Constituent where
  | token (k : Kind)
  /-- The name of a type, which may be the reserved word `null`. -/
  | typeName (name : String)
  | node (n : Node)
  /-- A token that may be left out. -/
  | optional (k : Kind)
  /-- Tokens that were passed over after a fault. -/
  | skipped

namespace Constituent

variable {α : Type}

def symbol (x : Symbol) : Constituent := token (.symbol x)

def keyword (x : Keyword) : Constituent := token (.keyword x)

/-- Items with commas between them; a comma may also follow the last one. -/
def items (item : α → List Constituent) : List α → List Constituent
  | [] => []
  | [a] => item a ++ [optional (.symbol .comma)]
  | a :: b :: as => item a ++ symbol .comma :: items item (b :: as)

/-- Statements and what was passed over around them. -/
def body (ss : List Stmt) : List Constituent :=
  skipped :: ss.flatMap fun s => [node (.stmt s), skipped]

def ident (x : Ident) : Constituent := node (.ident x)

def type (t : TypeExpr) : Constituent := node (.type t)

def expr (e : Expr) : Constituent := node (.expr e)

def stmt (s : Stmt) : Constituent := node (.stmt s)

def typedNames (xs : List TypedName) : List Constituent := items (fun x => [node (.typedName x)]) xs

def node? : Constituent → Option Node
  | node n => some n
  | _ => none

/-- The nodes among some constituents. -/
def nodes (cs : List Constituent) : List Node := cs.filterMap node?

theorem nodes_append (cs ds : List Constituent) : nodes (cs ++ ds) = nodes cs ++ nodes ds :=
  List.filterMap_append

theorem nodes_items (item : α → List Constituent) (as : List α) :
    nodes (items item as) = as.flatMap fun a => nodes (item a) := by
  fun_induction items item as with
  | case1 => rfl
  | case2 a => exact nodes_append _ _
  | case3 a b as ih => exact (nodes_append _ _).trans (congrArg (nodes (item a) ++ ·) ih)

theorem nodes_items_singleton (n : α → Node) (as : List α) :
    nodes (items (fun a => [node (n a)]) as) = as.map n := by
  rw [nodes_items]
  exact List.flatMap_pure_eq_map n as

theorem nodes_body (ss : List Stmt) : nodes (body ss) = ss.map Node.stmt := by
  have hall : nodes (ss.flatMap fun s => [node (.stmt s), skipped]) = ss.map Node.stmt := by
    induction ss with
    | nil => rfl
    | cons s ss ih => exact congrArg (Node.stmt s :: ·) ih
  exact hall

end Constituent

open Constituent in
def TypeExpr.constituents : TypeExpr → List Constituent
  | .named name marked _ => typeName name :: if marked then [symbol .question] else []
  | .function params result _ =>
    symbol .openParen :: (items (fun t => [type t]) params ++
      [symbol .closeParen, symbol .arrow, type result])

open Constituent in
def Form.constituents : Form → List Constituent
  | .literal l => [token l.kind]
  | .variable x => [token (.ident x)]
  | .group e => [symbol .openParen, expr e, symbol .closeParen]
  | .unary op e => [symbol op.symbol, expr e]
  | .binary l op r => [expr l, token (Operator.binary op).kind, expr r]
  | .logical l op r => [expr l, token (Operator.logical op).kind, expr r]
  | .function params result body =>
    keyword .fn :: symbol .openParen :: (typedNames params ++
      [symbol .closeParen, symbol .colon, type result, symbol .fatArrow, stmt body])
  | .call f args =>
    expr f :: symbol .openParen :: (items (fun e => [expr e]) args ++ [symbol .closeParen])
  | .get e x => [expr e, symbol .dot, ident x]
  | .record name fields =>
    ident name :: symbol .openBrace ::
      (items (fun f => [ident f.1, symbol .colon, expr f.2]) fields ++ [symbol .closeBrace])

open Constituent in
def Stmt.constituents : Stmt → List Constituent
  | .expr e _ => [Constituent.expr e]
  | .let_ x t none _ => [keyword .let_, ident x, symbol .colon, type t]
  | .let_ x t (some e) _ =>
    [keyword .let_, ident x, symbol .colon, type t, symbol .eq, Constituent.expr e]
  | .block ss _ => symbol .openBrace :: (body ss ++ [symbol .closeBrace])
  | .if_ e s none _ => [keyword .if_, Constituent.expr e, stmt s]
  | .if_ e s (some t) _ => [keyword .if_, Constituent.expr e, stmt s, keyword .else_, stmt t]
  | .while_ e s _ => [keyword .while_, Constituent.expr e, stmt s]
  | .struct x fields _ =>
    keyword .struct :: ident x :: symbol .openBrace :: (typedNames fields ++ [symbol .closeBrace])
  | .return_ none _ => [keyword .return_]
  | .return_ (some e) _ => [keyword .return_, Constituent.expr e]

namespace Node

/-- What a node is made of, in the order of the text. -/
def constituents : Node → List Constituent
  | ident x => [.token (.ident x.name)]
  | type t => t.constituents
  | typedName x => [.ident x.name, .symbol .colon, .type x.type]
  | expr e => e.form.constituents
  | stmt s => s.constituents

/-- The nodes right below a node, in the order of the text. -/
def children (n : Node) : List Node := Constituent.nodes n.constituents

/-- The second node is the first one or somewhere below it. -/
def Below : Node → Node → Prop := Relation.ReflTransGen fun n m => m ∈ n.children

section Children

open Constituent (nodes nodes_append nodes_items nodes_items_singleton nodes_body)

variable {span : Span} {slot : Option Ty}

theorem children_named (name : String) (marked : Bool) :
    (type (.named name marked span)).children = [] := by
  cases marked <;> rfl

theorem children_functionType (params : List TypeExpr) (result : TypeExpr) :
    (type (.function params result span)).children = params.map type ++ [type result] := by
  refine (nodes_append (Constituent.items _ params) _).trans ?_
  exact congrArg (· ++ [type result]) (nodes_items_singleton type params)

theorem children_function (params : List TypedName) (result : TypeExpr) (body : Stmt) :
    (expr (.mk (.function params result body) span slot)).children =
      params.map typedName ++ [type result, stmt body] := by
  refine (nodes_append (Constituent.typedNames params) _).trans ?_
  exact congrArg (· ++ [type result, stmt body]) (nodes_items_singleton typedName params)

theorem children_call (f : Expr) (args : List Expr) :
    (expr (.mk (.call f args) span slot)).children = expr f :: args.map expr := by
  refine congrArg (expr f :: ·) ((nodes_append (Constituent.items _ args) _).trans ?_)
  exact (congrArg (· ++ []) (nodes_items_singleton expr args)).trans (List.append_nil _)

theorem children_record (name : Ident) (fields : List (Ident × Expr)) :
    (expr (.mk (.record name fields) span slot)).children =
      ident name :: fields.flatMap fun f => [ident f.1, expr f.2] := by
  refine congrArg (ident name :: ·) ((nodes_append (Constituent.items _ fields) _).trans ?_)
  rw [nodes_items]
  exact List.append_nil _

theorem children_block (ss : List Stmt) : (stmt (.block ss span)).children = ss.map stmt := by
  refine (nodes_append (Constituent.body ss) _).trans ?_
  rw [nodes_body]
  exact List.append_nil _

theorem children_struct (x : Ident) (fields : List TypedName) :
    (stmt (.struct x fields span)).children = ident x :: fields.map typedName := by
  refine congrArg (ident x :: ·) ((nodes_append (Constituent.typedNames fields) _).trans ?_)
  exact (congrArg (· ++ []) (nodes_items_singleton typedName fields)).trans (List.append_nil _)

end Children

end Node

/-! ### Tokens in order -/

/-- The tokens follow each other in the text. -/
structure Ordered (ts : List Token) : Prop where
  before : ts.Pairwise fun t u => t.span.last < u.span.first
  forward : ∀ t ∈ ts, t.span.first ≤ t.span.last

namespace Position

variable {a b c : Position}

theorem le_refl (a : Position) : a ≤ a := .inr ⟨rfl, Nat.le_refl _⟩

theorem le_trans (hab : a ≤ b) (hbc : b ≤ c) : a ≤ c := by
  rw [le_def] at hab hbc ⊢
  omega

theorem le_of_lt (hab : a < b) : a ≤ b := by
  rw [lt_def] at hab
  rw [le_def]
  omega

end Position

theorem Span.merge_eq {a b : Span} (hfirst : a.first ≤ b.first) (hlast : a.last ≤ b.last) :
    a.merge b = ⟨a.first, b.last⟩ := by
  have hmin : min a.first b.first = a.first := if_pos hfirst
  have hmax : max a.last b.last = b.last := if_pos hlast
  rw [Span.merge, hmin, hmax]

namespace Ordered

variable {ts us vs : List Token} {t u : Token}

theorem segment (h : Ordered ts) (hus : us <:+: ts) : Ordered us :=
  ⟨h.before.sublist hus.sublist, fun t ht => h.forward t (hus.subset ht)⟩

theorem left (h : Ordered (ts ++ us)) : Ordered ts := h.segment (List.prefix_append ts us).isInfix

theorem right (h : Ordered (ts ++ us)) : Ordered us := h.segment (List.suffix_append ts us).isInfix

theorem lt_of_append (h : Ordered (ts ++ us)) (ht : t ∈ ts) (hu : u ∈ us) :
    t.span.last < u.span.first :=
  (List.pairwise_append.mp h.before).2.2 t ht u hu

/-- No token begins before the first one, and none ends behind the last one. -/
theorem bounds (h : Ordered ts) (ht : ts.head? = some t) (hu : ts.getLast? = some u) {v : Token}
    (hv : v ∈ ts) : t.span.first ≤ v.span.first ∧ v.span.last ≤ u.span.last := by
  have hchain : ∀ {a b : Token}, a.span.first ≤ a.span.last → b.span.first ≤ b.span.last →
      a.span.last < b.span.first → a.span.first ≤ b.span.first ∧ a.span.last ≤ b.span.last := by
    intro a b ha hb hab
    have hab := Position.le_of_lt hab
    exact ⟨Position.le_trans ha hab, Position.le_trans hab hb⟩
  constructor
  · obtain ⟨rest, rfl⟩ := List.head?_eq_some_iff.mp ht
    rcases List.mem_cons.mp hv with rfl | hv
    · exact Position.le_refl _
    · exact (hchain (h.forward _ List.mem_cons_self) (h.forward v (List.mem_cons_of_mem _ hv))
        ((List.pairwise_cons.mp h.before).1 v hv)).1
  · obtain ⟨rest, rfl⟩ := List.getLast?_eq_some_iff.mp hu
    rcases List.mem_append.mp hv with hv | hv
    · exact (hchain (h.left.forward v hv) (h.right.forward u (List.mem_singleton_self u))
        (h.lt_of_append hv (List.mem_singleton_self u))).2
    · obtain rfl := List.mem_singleton.mp hv
      exact Position.le_refl _

end Ordered

/-- The span runs from the first token to the last one, if they are in order. -/
def Span.Covers (s : Span) (ts : List Token) : Prop :=
  ∃ t u, ts.head? = some t ∧ ts.getLast? = some u ∧ (Ordered ts → s = ⟨t.span.first, u.span.last⟩)

namespace Span

/-- The first span is inside of the second one. -/
def Within (a b : Span) : Prop := b.first ≤ a.first ∧ a.last ≤ b.last

/-- The first span ends before the second one begins. -/
def Before (a b : Span) : Prop := a.last < b.first

variable {a b : Span} {ts us : List Token} {t u : Token}

theorem covers_token (t : Token) : t.span.Covers [t] := ⟨t, t, rfl, rfl, fun _ => rfl⟩

theorem covers_merge_ends (ht : ts.head? = some t) (hu : ts.getLast? = some u) :
    (t.span.merge u.span).Covers ts := by
  refine ⟨t, u, ht, hu, fun h => merge_eq ?_ ?_⟩
  · exact (h.bounds ht hu (List.mem_of_getLast? hu)).1
  · exact (h.bounds ht hu (List.mem_of_head? ht)).2

theorem Covers.merge (ha : a.Covers ts) (hb : b.Covers us) (between : List Token) :
    (a.merge b).Covers (ts ++ (between ++ us)) := by
  obtain ⟨t, u, ht, hu, ha⟩ := ha
  obtain ⟨t', u', ht', hu', hb⟩ := hb
  have hfirst : (ts ++ (between ++ us)).head? = some t := by
    rw [List.head?_append, ht, Option.some_or]
  have hlast : (ts ++ (between ++ us)).getLast? = some u' := by
    rw [List.getLast?_append, List.getLast?_append, hu', Option.some_or, Option.some_or]
  refine ⟨t, u', hfirst, hlast, fun h => ?_⟩
  obtain rfl := ha h.left
  obtain rfl := hb h.right.right
  refine merge_eq (h.bounds hfirst hlast ?_).1 (h.bounds hfirst hlast ?_).2
  · exact List.mem_append_right _ (List.mem_append_right _ (List.mem_of_head? ht'))
  · exact List.mem_append_left _ (List.mem_of_getLast? hu)

/-- The span of a segment is inside of that of the whole. -/
theorem Covers.within (ha : a.Covers us) (hb : b.Covers ts) (hus : us <:+: ts) (ho : Ordered ts) :
    a.Within b := by
  obtain ⟨t, u, ht, hu, ha⟩ := ha
  obtain ⟨t', u', ht', hu', hb⟩ := hb
  rw [Within, ha (ho.segment hus), hb ho]
  exact ⟨(ho.bounds ht' hu' (hus.subset (List.mem_of_head? ht))).1,
    (ho.bounds ht' hu' (hus.subset (List.mem_of_getLast? hu))).2⟩

end Span

/-! ### Constituents made of tokens -/

/-- The constituents are made of the tokens, one after another. No slot of a node is filled. -/
inductive MadeOf : List Constituent → List Token → Prop
  | nil : MadeOf [] []
  | token {k : Kind} {t : Token} {cs : List Constituent} {ts : List Token} (hk : t.kind = k)
      (h : MadeOf cs ts) : MadeOf (.token k :: cs) (t :: ts)
  | typeName {name : String} {t : Token} {cs : List Constituent} {ts : List Token}
      (hk : t.kind = .ident name ∨ name = "null" ∧ t.kind = .keyword .null) (h : MadeOf cs ts) :
      MadeOf (.typeName name :: cs) (t :: ts)
  | node {n : Node} {us : List Token} {cs : List Constituent} {ts : List Token}
      (hmade : MadeOf n.constituents us) (hspan : n.span.Covers us) (hslot : n.slot = none)
      (h : MadeOf cs ts) : MadeOf (.node n :: cs) (us ++ ts)
  | there {k : Kind} {t : Token} {cs : List Constituent} {ts : List Token} (hk : t.kind = k)
      (h : MadeOf cs ts) : MadeOf (.optional k :: cs) (t :: ts)
  | missing {k : Kind} {cs : List Constituent} {ts : List Token} (h : MadeOf cs ts) :
      MadeOf (.optional k :: cs) ts
  | skipped {cs : List Constituent} {ts : List Token} (us : List Token) (h : MadeOf cs ts) :
      MadeOf (.skipped :: cs) (us ++ ts)

/-- The node is made of the tokens, and its span covers them. -/
structure Node.Stands (n : Node) (ts : List Token) : Prop where
  made : MadeOf n.constituents ts
  covers : n.span.Covers ts
  slot : n.slot = none

namespace MadeOf

variable {cs ds : List Constituent} {ts us : List Token} {n m : Node}

theorem append (h : MadeOf cs ts) (h' : MadeOf ds us) : MadeOf (cs ++ ds) (ts ++ us) := by
  induction h with
  | nil => exact h'
  | token hk _ ih => exact .token hk ih
  | typeName hk _ ih => exact .typeName hk ih
  | node hmade hspan hslot _ _ ih =>
    rw [List.append_assoc]
    exact .node hmade hspan hslot ih
  | there hk _ ih => exact .there hk ih
  | missing _ ih => exact .missing ih
  | skipped vs _ ih =>
    rw [List.append_assoc]
    exact .skipped vs ih

theorem stands (hn : n.Stands us) (h : MadeOf cs ts) : MadeOf (.node n :: cs) (us ++ ts) :=
  .node hn.made hn.covers hn.slot h

theorem single (hn : n.Stands us) : MadeOf [.node n] us := by
  have h := stands hn .nil
  rwa [List.append_nil] at h

theorem skip (us : List Token) (h : MadeOf (.skipped :: cs) ts) :
    MadeOf (.skipped :: cs) (us ++ ts) := by
  cases h with
  | skipped vs h =>
    rw [← List.append_assoc]
    exact .skipped _ h

/-- Each node among the constituents stands on a segment of the tokens. -/
theorem segment (h : MadeOf cs ts) (hm : m ∈ Constituent.nodes cs) :
    ∃ us, us <:+: ts ∧ m.Stands us := by
  induction h with
  | nil => cases hm
  | token _ _ ih =>
    obtain ⟨us, hus, hm⟩ := ih hm
    exact ⟨us, hus.trans (List.suffix_cons _ _).isInfix, hm⟩
  | typeName _ _ ih =>
    obtain ⟨us, hus, hm⟩ := ih hm
    exact ⟨us, hus.trans (List.suffix_cons _ _).isInfix, hm⟩
  | @node n vs cs ts hmade hspan hslot _ _ ih =>
    rcases List.mem_cons.mp hm with rfl | hm
    · exact ⟨vs, (List.prefix_append vs ts).isInfix, hmade, hspan, hslot⟩
    · obtain ⟨us, hus, hm⟩ := ih hm
      exact ⟨us, hus.trans (List.suffix_append vs ts).isInfix, hm⟩
  | there _ _ ih =>
    obtain ⟨us, hus, hm⟩ := ih hm
    exact ⟨us, hus.trans (List.suffix_cons _ _).isInfix, hm⟩
  | missing _ ih => exact ih hm
  | skipped vs _ ih =>
    obtain ⟨us, hus, hm⟩ := ih hm
    exact ⟨us, hus.trans (List.suffix_append vs _).isInfix, hm⟩

end MadeOf

/-! ### Nodes in a node -/

namespace Node.Stands

variable {n m : Node} {ts us : List Token}

theorem span_eq (h : n.Stands ts) (ho : Ordered ts) :
    ∃ t u, ts.head? = some t ∧ ts.getLast? = some u ∧ n.span = ⟨t.span.first, u.span.last⟩ := by
  obtain ⟨t, u, ht, hu, hspan⟩ := h.covers
  exact ⟨t, u, ht, hu, hspan ho⟩

theorem below (h : n.Stands ts) (hm : n.Below m) : ∃ us, us <:+: ts ∧ m.Stands us := by
  induction hm with
  | refl => exact ⟨ts, List.infix_rfl, h⟩
  | tail _ hchild ih =>
    obtain ⟨us, hus, hn⟩ := ih
    obtain ⟨vs, hvs, hm⟩ := hn.made.segment hchild
    exact ⟨vs, hvs.trans hus, hm⟩

end Node.Stands

/-- The nodes among the constituents follow each other in the text. -/
theorem MadeOf.siblings {cs : List Constituent} {ts : List Token} (h : MadeOf cs ts)
    (ho : Ordered ts) :
    (Constituent.nodes cs).Pairwise fun n m => n.span.Before m.span := by
  induction h with
  | nil => exact .nil
  | token _ _ ih => exact ih (ho.segment (List.suffix_cons _ _).isInfix)
  | typeName _ _ ih => exact ih (ho.segment (List.suffix_cons _ _).isInfix)
  | @node n us cs ts hmade hspan hslot hrest _ ih =>
    refine .cons (fun m hm => ?_) (ih ho.right)
    -- the tokens of a later node are all behind those of this one
    obtain ⟨vs, hvs, hm⟩ := hrest.segment hm
    obtain ⟨t, u, ht, hu, hn⟩ := Node.Stands.span_eq ⟨hmade, hspan, hslot⟩ ho.left
    obtain ⟨t', u', ht', hu', hm⟩ := hm.span_eq (ho.right.segment hvs)
    rw [Span.Before, hn, hm]
    exact ho.lt_of_append (List.mem_of_getLast? hu) (hvs.subset (List.mem_of_head? ht'))
  | there _ _ ih => exact ih (ho.segment (List.suffix_cons _ _).isInfix)
  | missing _ ih => exact ih ho
  | skipped _ _ ih => exact ih ho.right

end RecordLang
