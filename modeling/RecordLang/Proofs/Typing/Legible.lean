import RecordLang.Proofs.Program.Spans
import RecordLang.Proofs.Ty.Rendered
import RecordLang.Proofs.Typing.Blame
import RecordLang.Proofs.Typing.Meaning

/-!
# Types that can be told by their texts

A type is legible if the names in it are words and its fields are in order. The trees that are read
have words for names (`parse_worded`). Where declarations are legible, the types of expressions in
such a tree are (`HasType.legible`), and so are the types of what its statements return
(`StmtTyped.legible`).
-/

namespace RecordLang

/-! ### Names in trees -/

namespace Node

variable {n m : Node}

/-- A name that the node itself is made of is a word. -/
def HasWord : Node → Prop
  | ident x => isWord x.name = true
  | type (.named name _ _) => isWord name = true
  | _ => True

/-- All names in the node are words. -/
def Worded (n : Node) : Prop := ∀ m, n.Below m → m.HasWord

theorem Worded.self (h : n.Worded) : n.HasWord := h n .refl

theorem Worded.child (h : n.Worded) (hm : m ∈ n.children) : m.Worded :=
  fun k hk => h k (hk.head hm)

theorem Worded.part (h : n.Worded) (ms : List Node) (hms : n.children = ms) (hm : m ∈ ms) :
    m.Worded :=
  h.child (hms ▸ hm)

theorem hasWord_bare (n : Node) : n.bare.HasWord ↔ n.HasWord := by
  cases n <;> exact Iff.rfl

/-- Nodes that differ in slots only have the same names in them. -/
theorem Worded.of_bare (h : n.Worded) (hbare : m.bare = n.bare) : m.Worded := by
  intro k hk
  have hk' := hk.bare
  rw [hbare] at hk'
  obtain ⟨l, hl, heq⟩ := exists_below_of_bare hk'
  rw [← hasWord_bare, heq, hasWord_bare]
  exact h l hl

/-- A node that stands on tokens takes its name from them. -/
theorem Stands.hasWord {ts : List Token} (h : n.Stands ts)
    (hwords : ∀ t ∈ ts, ∀ w, t.kind = .ident w → isWord w = true) : n.HasWord := by
  have hmade := h.made
  cases n with
  | ident x =>
    cases hmade with
    | token hk _ => exact hwords _ List.mem_cons_self _ hk
  | type t =>
    cases t with
    | named name marked span =>
      cases hmade with
      | typeName hk _ =>
        rcases hk with hk | ⟨rfl, -⟩
        · exact hwords _ List.mem_cons_self _ hk
        · show isWord "null" = true
          decide
    | function => trivial
  | typedName | expr | stmt => trivial

end Node

/-- The names in a tree that was read from a text are words. -/
theorem parse_worded {bytes : List UInt8} {p : Program}
    (h : (parse (lex bytes).tokens).program = some p) : ∀ s ∈ p.body, (Node.stmt s).Worded := by
  intro s hs n hn
  obtain ⟨passed, d, hmoves, hmade, -⟩ := parse_places h
  obtain ⟨us, hus, hstands⟩ := hmade.stands_of_has ⟨s, hs, hn⟩
  obtain ⟨ks, hks, -⟩ := lex_kinds bytes
  obtain ⟨ts, last, htokens, -, hlast⟩ := List.map_eq_append_iff.mp hks
  obtain ⟨t, rfl, ht⟩ := List.map_eq_singleton_iff.mp hlast
  have hall := hmoves.tokens
  rw [htokens, Cursor.tokens_ofTokens ht, ← htokens] at hall
  refine hstands.hasWord fun u hu w hw => ?_
  have hmem : u ∈ (lex bytes).tokens := by
    rw [hall]
    exact List.mem_append_left _ (hus.subset hu)
  exact lex_words hmem hw

/-! ### Legible types -/

namespace Ty

variable {t : Ty}

/-- The names in the type are words, and the fields of its records are in order. -/
structure Legible (t : Ty) : Prop where
  spelled : t.Spelled
  ordered : t.Ordered

theorem legible_builtin {name : String} (h : isBuiltin name = true) (optional : Bool) :
    (named name optional).Legible := by
  have hwords : builtins.all isWord = true := by decide
  refine ⟨.named optional ?_, .named name optional⟩
  exact List.all_eq_true.mp hwords name (List.contains_iff_mem.mp h)

theorem Legible.params {params : List Ty} {result : Ty} (h : (function params result).Legible) :
    ∀ t ∈ params, t.Legible := by
  obtain _ | ⟨hspelled, -⟩ := h.spelled
  obtain _ | ⟨hordered, -⟩ := h.ordered
  exact fun t ht => ⟨hspelled t ht, hordered t ht⟩

theorem Legible.result {params : List Ty} {result : Ty} (h : (function params result).Legible) :
    result.Legible := by
  obtain _ | ⟨-, hspelled⟩ := h.spelled
  obtain _ | ⟨-, hordered⟩ := h.ordered
  exact ⟨hspelled, hordered⟩

theorem Legible.fields {fields : List (String × Ty)} (h : (record fields).Legible) :
    ∀ f ∈ fields, f.2.Legible := by
  obtain _ | _ | ⟨-, hspelled⟩ := h.spelled
  obtain _ | _ | ⟨-, hordered⟩ := h.ordered
  exact fun f hf => ⟨hspelled f hf, hordered f hf⟩

theorem spelled_ofFields {fields : List (String × Ty)} (hwords : ∀ f ∈ fields, isWord f.1 = true)
    (h : ∀ f ∈ fields, f.2.Spelled) : (ofFields fields).Spelled :=
  .record (fun f hf => hwords f (mem_of_mem_insertFields hf))
    fun f hf => h f (mem_of_mem_insertFields hf)

theorem legible_ofFields {fields : List (String × Ty)} (hwords : ∀ f ∈ fields, isWord f.1 = true)
    (h : ∀ f ∈ fields, f.2.Legible) : (ofFields fields).Legible :=
  ⟨spelled_ofFields hwords fun f hf => (h f hf).spelled,
    ordered_ofFields fun f hf => (h f hf).ordered⟩

end Ty

section Trees

variable {fields : List TypedName}

mutual

theorem TypeExpr.spelled_ty : ∀ t : TypeExpr, (Node.type t).Worded → t.ty.Spelled
  | .named _ optional _, h => .named optional h.self
  | .function params result span, h => by
    have hchildren := @Node.children_functionType span params result
    refine .function (TypeExpr.spelled_tys params fun t ht => ?_) (result.spelled_ty ?_)
    · exact h.part _ hchildren (by simp [ht])
    · exact h.part _ hchildren (by simp)

theorem TypeExpr.spelled_tys : ∀ ts : List TypeExpr, (∀ t ∈ ts, (Node.type t).Worded) →
    ∀ t ∈ TypeExpr.tys ts, t.Spelled
  | [], _ => fun _ ht => absurd ht List.not_mem_nil
  | t :: ts, h => by
    obtain ⟨ht, hts⟩ := List.forall_mem_cons.mp h
    exact List.forall_mem_cons.mpr ⟨t.spelled_ty ht, TypeExpr.spelled_tys ts hts⟩

end

theorem TypeExpr.legible_ty (t : TypeExpr) (h : (Node.type t).Worded) : t.ty.Legible :=
  ⟨t.spelled_ty h, t.ordered_ty⟩

theorem TypedName.legible_type {x : TypedName} (h : (Node.typedName x).Worded) :
    x.type.ty.Legible :=
  x.type.legible_ty (h.part [.ident x.name, .type x.type] rfl (by simp))

theorem TypedName.legible_schema (h : ∀ f ∈ fields, (Node.typedName f).Worded) :
    (TypedName.schema fields).Legible := by
  refine Ty.legible_ofFields (List.forall_mem_map.mpr fun f hf => ?_)
    (List.forall_mem_map.mpr fun f hf => legible_type (h f hf))
  have hname : (Node.ident f.name).Worded :=
    (h f hf).part [.ident f.name, .type f.type] rfl (by simp)
  exact hname.self

end Trees

/-! ### Legible declarations -/

namespace Context

variable {Γ Δ : Context} {t schema : Ty} {name : String}

/-- The types of all declarations are legible. -/
def Legible (Γ : Context) : Prop := ∀ d ∈ Γ.entries, ∀ t, d.type? = some t → t.Legible

theorem Legible.ordered (h : Γ.Legible) : Γ.Ordered := fun d hd t ht => (h d hd t ht).ordered

theorem legible_empty : Context.empty.Legible := fun _ hd => absurd hd List.not_mem_nil

theorem Legible.findVariable (h : Γ.Legible) (hx : Γ.findVariable name = some t) : t.Legible := by
  obtain ⟨d, hd, hdx⟩ := List.exists_of_findSome?_eq_some hx
  exact h d hd t (Entry.type?_of_variableOf hdx)

theorem Legible.findRecord (h : Γ.Legible) (hx : Γ.findRecord name = some schema) :
    schema.Legible := by
  obtain ⟨d, hd, hdx⟩ := List.exists_of_findSome?_eq_some hx
  exact h d hd schema (Entry.type?_of_recordOf hdx)

theorem Legible.extend {ds : List Entry} (h : Γ.Legible)
    (hds : ∀ d ∈ ds, ∀ t, d.type? = some t → t.Legible) : (Γ.extend ds).Legible := by
  intro d hm
  rcases List.mem_append.mp hm with hm | hm
  · exact hds d (List.mem_reverse.mp hm)
  · exact h d hm

theorem Legible.enter (h : Γ.Legible) : Γ.enter.Legible := by
  intro d hm t ht
  rcases List.mem_cons.mp hm with rfl | hm
  · cases ht
  · exact h d hm t ht

theorem Legible.params {params : List TypedName} (h : Γ.Legible)
    (hparams : ∀ p ∈ params, (Node.typedName p).Worded) :
    (Γ.enter.extend (params.map TypedName.entry)).Legible := by
  refine h.enter.extend fun d hd t ht => ?_
  obtain ⟨p, hp, rfl⟩ := List.mem_map.mp hd
  cases ht
  exact TypedName.legible_type (hparams p hp)

theorem HasFields.legible {fields : List (String × Ty)} (hf : Γ.HasFields t fields)
    (hΓ : Γ.Legible) (ht : t.Legible) : ∀ f ∈ fields, f.2.Legible := by
  rcases hf with rfl | ⟨name, -, hr⟩
  · exact ht.fields
  · exact (hΓ.findRecord hr).fields

end Context

/-- What a statement declares has the type that is written for it. -/
theorem Stmt.legible_declarations : ∀ s : Stmt, (Node.stmt s).Worded →
    ∀ d ∈ s.declarations, ∀ t, d.type? = some t → t.Legible
  | .expr .., _, _, h, _, _ | .block .., _, _, h, _, _ | .return_ .., _, _, h, _, _ => by cases h
  | .let_ x type value span, hw, _, h, _, ht => by
    cases List.mem_singleton.mp h
    cases ht
    refine type.legible_ty (hw.child ?_)
    cases value <;> exact List.mem_cons_of_mem _ List.mem_cons_self
  | .struct x fields span, hw, _, h, _, ht => by
    cases List.mem_singleton.mp h
    cases ht
    refine TypedName.legible_schema fun f hf => hw.part _ (Node.children_struct x fields) ?_
    exact List.mem_cons_of_mem _ (List.mem_map_of_mem hf)
  | .if_ e s none _, hw, d, h, t, ht =>
    s.legible_declarations (hw.part [.expr e, .stmt s] rfl (by simp)) d h t ht
  | .if_ e s (some s') _, hw, d, h, t, ht => by
    rcases List.mem_append.mp h with h | h
    · exact s.legible_declarations (hw.part [.expr e, .stmt s, .stmt s'] rfl (by simp)) d h t ht
    · exact s'.legible_declarations (hw.part [.expr e, .stmt s, .stmt s'] rfl (by simp)) d h t ht
  | .while_ e s _, hw, d, h, t, ht =>
    s.legible_declarations (hw.part [.expr e, .stmt s] rfl (by simp)) d h t ht

theorem Context.Legible.declarations {Γ : Context} {s : Stmt} (h : Γ.Legible)
    (hs : (Node.stmt s).Worded) : (Γ.extend s.declarations).Legible :=
  h.extend (s.legible_declarations hs)

/-! ### Types of expressions and of returns -/

mutual

/-- Where declarations are legible, the type of an expression is. -/
theorem HasType.legible {R : SlotRule} : ∀ {e : Expr} {Γ : Context} {t : Ty},
    HasType R Γ e t → Γ.Legible → (Node.expr e).Worded → t.Legible
  | .mk .., _, _, .mk h _, hΓ, hw => h.legible hΓ hw
termination_by structural e => e

theorem FormTyped.legible {R : SlotRule} : ∀ {form : Form} {span : Span} {slot : Option Ty}
    {Γ : Context} {t : Ty}, FormTyped R Γ form t → Γ.Legible →
      (Node.expr (.mk form span slot)).Worded → t.Legible
  | .literal l, _, _, _, _, .literal _, _, _ => by
    cases l <;> exact Ty.legible_builtin (by decide) false
  | .variable _, _, _, _, _, .name hx, hΓ, _ => hΓ.findVariable hx
  | .group e, _, _, _, _, .group h, hΓ, hw => h.legible hΓ (hw.part [.expr e] rfl (by simp))
  | .unary _ e, _, _, _, _, .unary h _, hΓ, hw => h.legible hΓ (hw.part [.expr e] rfl (by simp))
  | .binary .., _, _, _, _, .comparison .., _, _ => Ty.legible_builtin (by decide) false
  | .binary l _ r, _, _, _, _, .arithmetic h .., hΓ, hw =>
    h.legible hΓ (hw.part [.expr l, .expr r] rfl (by simp))
  | .logical .., _, _, _, _, .logical .., _, _ => Ty.legible_builtin (by decide) false
  | .function params result body, span, slot, _, _, .function .., _, hw => by
    have hchildren := @Node.children_function span slot params result body
    have hparams : ∀ p ∈ params, p.type.ty.Legible := fun p hp =>
      TypedName.legible_type (hw.part _ hchildren (by simp [hp]))
    have hresult := result.legible_ty (hw.part _ hchildren (by simp))
    exact ⟨.function (List.forall_mem_map.mpr fun p hp => (hparams p hp).spelled) hresult.spelled,
      .function (List.forall_mem_map.mpr fun p hp => (hparams p hp).ordered) hresult.ordered⟩
  | .call f args, span, slot, _, _, .call h _, hΓ, hw =>
    (h.legible hΓ (hw.part _ (@Node.children_call span slot f args) (by simp))).result
  | .get e x, _, _, _, _, .get h hf hx, hΓ, hw =>
    hf.legible hΓ (h.legible hΓ (hw.part [.expr e, .ident x] rfl (by simp))) _
      (Ty.mem_of_lookup hx)
  | .record name fields, span, slot, _, _, .record h _, hΓ, hw => by
    have hchildren := @Node.children_record span slot name fields
    obtain ⟨hwords, htypes⟩ := h.legible hΓ fun f hf => ⟨
      hw.part _ hchildren (List.mem_cons_of_mem _ (List.mem_flatMap.mpr ⟨f, hf, by simp⟩)),
      hw.part _ hchildren (List.mem_cons_of_mem _ (List.mem_flatMap.mpr ⟨f, hf, by simp⟩))⟩
    exact Ty.legible_ofFields hwords htypes
termination_by structural form => form

theorem FieldsTyped.legible {R : SlotRule} : ∀ {fields : List (Ident × Expr)} {Γ : Context}
    {types : List (String × Ty)}, FieldsTyped R Γ fields types → Γ.Legible →
      (∀ f ∈ fields, (Node.ident f.1).Worded ∧ (Node.expr f.2).Worded) →
      (∀ f ∈ types, isWord f.1 = true) ∧ ∀ f ∈ types, f.2.Legible
  | [], _, _, .nil, _, _ => ⟨fun _ hf => absurd hf List.not_mem_nil,
      fun _ hf => absurd hf List.not_mem_nil⟩
  | (_, _) :: _, _, _, .cons h hs, hΓ, hw => by
    obtain ⟨⟨hx, he⟩, hfs⟩ := List.forall_mem_cons.mp hw
    obtain ⟨hwords, htypes⟩ := hs.legible hΓ hfs
    exact ⟨List.forall_mem_cons.mpr ⟨hx.self, hwords⟩,
      List.forall_mem_cons.mpr ⟨h.legible hΓ he, htypes⟩⟩
termination_by structural fields => fields

end

mutual

/-- The types of what a statement returns are legible. -/
theorem StmtTyped.legible {R : SlotRule} : ∀ {s : Stmt} {Γ : Context} {ts : List Ty},
    StmtTyped R Γ s ts → Γ.Legible → (Node.stmt s).Worded → ∀ t ∈ ts, t.Legible
  | .expr .., _, _, .expr _, _, _ => fun _ ht => absurd ht List.not_mem_nil
  | .let_ .., _, _, .declared _, _, _ => fun _ ht => absurd ht List.not_mem_nil
  | .let_ .., _, _, .initialized .., _, _ => fun _ ht => absurd ht List.not_mem_nil
  | .struct .., _, _, .struct .., _, _ => fun _ ht => absurd ht List.not_mem_nil
  | .block body _, _, _, .block h, hΓ, hw =>
    h.legible hΓ.enter fun _ hs => hw.part _ (Node.children_block body) (List.mem_map_of_mem hs)
  | .if_ e s none _, _, _, .if_ _ h, hΓ, hw =>
    h.legible hΓ (hw.part [.expr e, .stmt s] rfl (by simp))
  | .if_ e s (some s') _, _, _, .ifElse _ h h', hΓ, hw => by
    have hs : (Node.stmt s).Worded := hw.part [.expr e, .stmt s, .stmt s'] rfl (by simp)
    have hs' : (Node.stmt s').Worded := hw.part [.expr e, .stmt s, .stmt s'] rfl (by simp)
    exact List.forall_mem_append.mpr ⟨h.legible hΓ hs, h'.legible (hΓ.declarations hs) hs'⟩
  | .while_ e s _, _, _, .while_ _ h, hΓ, hw =>
    h.legible hΓ (hw.part [.expr e, .stmt s] rfl (by simp))
  | .return_ (some e) _, _, _, .return_ h, hΓ, hw =>
    List.forall_mem_singleton.mpr (h.legible hΓ (hw.part [.expr e] rfl (by simp)))
termination_by structural s => s

theorem BlockTyped.legible {R : SlotRule} : ∀ {ss : List Stmt} {Γ : Context} {ts : List Ty},
    BlockTyped R Γ ss ts → Γ.Legible → (∀ s ∈ ss, (Node.stmt s).Worded) → ∀ t ∈ ts, t.Legible
  | [], _, _, .nil, _, _ => fun _ ht => absurd ht List.not_mem_nil
  | s :: ss, _, _, .cons h h', hΓ, hw => by
    obtain ⟨hs, hss⟩ := List.forall_mem_cons.mp hw
    exact List.forall_mem_append.mpr ⟨h.legible hΓ hs, h'.legible (hΓ.declarations hs) hss⟩
termination_by structural ss => ss

end

end RecordLang
