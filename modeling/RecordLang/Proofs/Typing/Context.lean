import RecordLang.Proofs.Ty.Names
import RecordLang.Typing.Checker

/-!
# Contexts that grow by declarations

`Γ.extend ds` is the context `Γ` after the declarations `ds`, in the order in which they were made.
`Γ.Admits ds` says that they could be made one after another: each type has known names only, and
each name is free where it is declared. Declarations that are admitted stay in the current scope,
hide nothing in it, and are forgotten when the scope is left (`Admits.exit_enter`).
-/

namespace RecordLang

namespace Context

variable {Γ : Context} {ds es : List Entry} {x : String} {t : Ty}

/-! ### Known types -/

/-- All names in the type are built in or those of visible records. -/
def Knows (Γ : Context) (t : Ty) : Prop := ∀ name, t.Mentions name → Γ.knows name = true

theorem knows_eq_true : Γ.knows x = true ↔ Ty.isBuiltin x = true ∨ ∃ s, Γ.findRecord x = some s := by
  rw [knows, Bool.or_eq_true, Option.isSome_iff_exists]

theorem knows_named {optional : Bool} : Γ.Knows (.named x optional) ↔ Γ.knows x = true := by
  simp only [Knows, Ty.mentions_named, forall_eq]

theorem knows_function {params : List Ty} {result : Ty} :
    Γ.Knows (.function params result) ↔ (∀ t ∈ params, Γ.Knows t) ∧ Γ.Knows result := by
  simp only [Knows, Ty.mentions_function]
  exact ⟨fun h => ⟨fun t ht n hn => h n (.inl ⟨t, ht, hn⟩), fun n hn => h n (.inr hn)⟩,
    fun ⟨hp, hr⟩ n hn => hn.elim (fun ⟨t, ht, hn⟩ => hp t ht n hn) (hr n)⟩

theorem knows_record {fields : List (String × Ty)} :
    Γ.Knows (.record fields) ↔ ∀ f ∈ fields, Γ.Knows f.2 := by
  simp only [Knows, Ty.mentions_record]
  exact ⟨fun h f hf n hn => h n ⟨f, hf, hn⟩, fun h n ⟨f, hf, hn⟩ => h f hf n hn⟩

theorem knows_ofFields {fields : List (String × Ty)} (h : ∀ f ∈ fields, Γ.Knows f.2) :
    Γ.Knows (.ofFields fields) := by
  intro n hn
  obtain ⟨f, hf, hn⟩ := Ty.mentions_of_ofFields hn
  exact h f hf n hn

/-! ### Growing contexts -/

/-- The context after further declarations, the first of them first. -/
def extend (Γ : Context) (ds : List Entry) : Context := ⟨ds.reverse ++ Γ.entries⟩

@[simp] theorem extend_nil (Γ : Context) : Γ.extend [] = Γ := rfl

@[simp] theorem extend_extend (Γ : Context) (ds es : List Entry) :
    (Γ.extend ds).extend es = Γ.extend (ds ++ es) := by
  simp [extend]

/-- A declaration that may be made: the names in its type are known, a variable is new in the
current scope and a record is not visible. -/
def Allows (Γ : Context) : Entry → Prop
  | .scope => False
  | .variable x t => Γ.Knows t ∧ Γ.current.findSome? (Entry.variableOf x) = none
  | .record x schema =>
    (∃ fields, schema = .record fields) ∧ Γ.Knows schema ∧ Γ.findRecord x = none

/-- Declarations that may be made one after another. -/
def Admits : Context → List Entry → Prop
  | _, [] => True
  | Γ, d :: ds => Γ.Allows d ∧ (Γ.extend [d]).Admits ds

@[simp] theorem admits_nil : Γ.Admits [] := trivial

theorem admits_cons {d : Entry} : Γ.Admits (d :: ds) ↔ Γ.Allows d ∧ (Γ.extend [d]).Admits ds :=
  Iff.rfl

theorem admits_append : Γ.Admits (ds ++ es) ↔ Γ.Admits ds ∧ (Γ.extend ds).Admits es := by
  induction ds generalizing Γ with
  | nil => simp
  | cons d ds ih => simp [admits_cons, ih, and_assoc]

theorem Allows.isScope {d : Entry} (h : Γ.Allows d) : d.isScope = false := by
  rcases d with _ | _ | _
  · exact h.elim
  · rfl
  · rfl

theorem Admits.isScope (h : Γ.Admits ds) : ∀ d ∈ ds, d.isScope = false := by
  induction ds generalizing Γ with
  | nil => exact nofun
  | cons d ds ih =>
    rw [admits_cons] at h
    exact List.forall_mem_cons.mpr ⟨h.1.isScope, ih h.2⟩

/-! ### Scopes -/

theorem outer?_append : ∀ {ds : List Entry} (es : List Entry), (∀ d ∈ ds, d.isScope = false) →
    outer? (ds ++ es) = outer? es
  | [], _, _ => rfl
  | d :: ds, es, h => by
    simp only [List.forall_mem_cons] at h
    rw [List.cons_append, outer?, h.1, if_neg Bool.false_ne_true, outer?_append es h.2]

/-- The scopes around the current one are not touched. -/
theorem Admits.outer? (h : Γ.Admits ds) :
    Context.outer? (Γ.extend ds).entries = Context.outer? Γ.entries :=
  outer?_append _ fun d hd => h.isScope d (List.mem_reverse.mp hd)

/-- Leaving a scope forgets what was declared in it. -/
theorem Admits.exit_enter (h : Γ.enter.Admits ds) : (Γ.enter.extend ds).exit = Γ := by
  rw [exit, h.outer?]; rfl

theorem Admits.depth (h : Γ.Admits ds) : (Γ.extend ds).depth = Γ.depth := by
  have hz : ds.reverse.countP Entry.isScope = 0 :=
    List.countP_eq_zero.mpr fun d hd => by simp [h.isScope d (List.mem_reverse.mp hd)]
  simp [Context.depth, extend, List.countP_append, hz]

theorem Admits.current (h : Γ.Admits ds) : (Γ.extend ds).current = ds.reverse ++ Γ.current := by
  refine List.takeWhile_append_of_pos fun d hd => ?_
  rw [h.isScope d (List.mem_reverse.mp hd)]; rfl

theorem Allows.current {d : Entry} (h : Γ.Allows d) : (Γ.extend [d]).current = d :: Γ.current :=
  have h' : Γ.Admits [d] := ⟨h, trivial⟩
  h'.current

/-! ### What was declared before -/

/-- What is allowed hides no variable of the current scope. -/
theorem Allows.variableOf {d : Entry} (h : Γ.Allows d)
    (hx : Γ.current.findSome? (Entry.variableOf x) = some t) : d.variableOf x = none := by
  rcases d with _ | ⟨y, u⟩ | _
  · rfl
  · have hy : x ≠ y := by
      rintro rfl
      rw [h.2] at hx; cases hx
    simp [Entry.variableOf, hy]
  · rfl

/-- What is allowed hides no visible record. -/
theorem Allows.recordOf {d : Entry} (h : Γ.Allows d) (hx : Γ.findRecord x = some t) :
    d.recordOf x = none := by
  rcases d with _ | _ | ⟨y, u⟩
  · rfl
  · rfl
  · have hy : x ≠ y := by
      rintro rfl
      rw [h.2.2] at hx; cases hx
    simp [Entry.recordOf, hy]

theorem findRecord_of_current (hx : Γ.current.findSome? (Entry.recordOf x) = some t) :
    Γ.findRecord x = some t := by
  rw [findRecord, ← List.takeWhile_append_dropWhile (p := fun e => !e.isScope) (l := Γ.entries),
    List.findSome?_append, ← current, hx]; rfl

/-- A visible record stays visible, with its schema. -/
theorem Admits.findRecord (h : Γ.Admits ds) (hx : Γ.findRecord x = some t) :
    (Γ.extend ds).findRecord x = some t := by
  induction ds generalizing Γ with
  | nil => exact hx
  | cons d ds ih =>
    obtain ⟨hd, hds⟩ := h
    have step : (Γ.extend [d]).findRecord x = some t := by
      show (d :: Γ.entries).findSome? (Entry.recordOf x) = some t
      rw [List.findSome?_cons, hd.recordOf hx]; exact hx
    simpa using ih hds step

theorem Admits.knows (h : Γ.Admits ds) (ht : Γ.Knows t) : (Γ.extend ds).Knows t := by
  intro n hn
  rw [knows_eq_true]
  exact (knows_eq_true.mp (ht n hn)).imp_right fun ⟨s, hs⟩ => ⟨s, h.findRecord hs⟩

/-- What is found in the current scope is what was found there, or else what was added. -/
theorem Admits.findSome?_current {f : Entry → Option Ty}
    (hf : ∀ Δ d u, Allows Δ d → Δ.current.findSome? f = some u → f d = none) (h : Γ.Admits ds) :
    (Γ.extend ds).current.findSome? f = (Γ.current.findSome? f).or (ds.findSome? f) := by
  induction ds generalizing Γ with
  | nil => simp
  | cons d ds ih =>
    obtain ⟨hd, hds⟩ := h
    have step := ih hds
    rw [hd.current, extend_extend, List.singleton_append, List.findSome?_cons] at step
    rw [step, List.findSome?_cons]
    cases hc : Γ.current.findSome? f with
    | some u => rw [hf Γ d u hd hc]
    | none => cases f d <;> simp

/-- Variables of the current scope keep their types. -/
theorem Admits.variable_current (h : Γ.Admits ds) (x : String) :
    (Γ.extend ds).current.findSome? (Entry.variableOf x) =
      (Γ.current.findSome? (Entry.variableOf x)).or (ds.findSome? (Entry.variableOf x)) :=
  h.findSome?_current fun _ _ _ hd hx => hd.variableOf hx

/-- Records of the current scope keep their schemas. -/
theorem Admits.record_current (h : Γ.Admits ds) (x : String) :
    (Γ.extend ds).current.findSome? (Entry.recordOf x) =
      (Γ.current.findSome? (Entry.recordOf x)).or (ds.findSome? (Entry.recordOf x)) :=
  h.findSome?_current fun _ _ _ hd hx => hd.recordOf (findRecord_of_current hx)

end Context

/-! ### Written types -/

namespace TypeExpr

mutual

theorem unknown?_eq_none (known : String → Bool) : ∀ t : TypeExpr,
    t.unknown? known = none ↔ ∀ name, t.ty.Mentions name → known name = true
  | named name optional span => by simp [unknown?, ty]
  | function params result span => by
    have hp := unknownAmong?_eq_none known params
    have hr := unknown?_eq_none known result
    simp only [unknown?, ty, Ty.mentions_function]
    split
    next found hf =>
      simp only [hf, reduceCtorEq, false_iff] at hp ⊢
      exact fun h => hp fun u hu name hn => h name (.inl ⟨u, hu, hn⟩)
    next hf =>
      simp only [hf, true_iff] at hp
      rw [hr]
      exact ⟨fun h name => Or.rec (fun ⟨u, hu, hn⟩ => hp u hu name hn) (h name),
        fun h name hn => h name (.inr hn)⟩

theorem unknownAmong?_eq_none (known : String → Bool) : ∀ ts : List TypeExpr,
    unknownAmong? known ts = none ↔ ∀ u ∈ tys ts, ∀ name, u.Mentions name → known name = true
  | [] => by simp [unknownAmong?, tys]
  | t :: ts => by
    have ht := unknown?_eq_none known t
    have hts := unknownAmong?_eq_none known ts
    simp only [unknownAmong?, tys, List.forall_mem_cons]
    split
    next found hf =>
      simp only [hf, reduceCtorEq, false_iff] at ht ⊢
      exact fun h => ht h.1
    next hf =>
      simp only [hf, true_iff] at ht
      rw [hts]
      exact ⟨fun h => ⟨ht, h⟩, And.right⟩

end

end TypeExpr

theorem bind_eq_ok {ε α β : Type} {x : Except ε α} {f : α → Except ε β} {b : β} :
    x >>= f = .ok b ↔ ∃ a, x = .ok a ∧ f a = .ok b := by
  cases x <;> simp [bind, Except.bind]

namespace Context

variable {Γ : Context}

/-- A written type is read if all its names are known. -/
theorem readType_eq_ok {type : TypeExpr} {t : Ty} :
    Γ.readType type = .ok t ↔ Γ.Knows type.ty ∧ t = type.ty := by
  have h := TypeExpr.unknown?_eq_none Γ.knows type
  rw [readType]
  split
  next hu =>
    simp only [hu, reduceCtorEq, false_iff] at h ⊢
    exact fun hk => h hk.1
  next hu =>
    have hk : Γ.Knows type.ty := h.mp hu
    simp [hk, eq_comm]

theorem readParams_eq_ok {params : List TypedName} {types : List Ty} :
    Γ.readParams params = .ok types ↔
      (∀ p ∈ params, Γ.Knows p.type.ty) ∧ types = params.map fun p => p.type.ty := by
  induction params generalizing types with
  | nil => simp [readParams, pure, Except.pure, eq_comm]
  | cons p ps ih =>
    simp only [readParams, List.mapM_cons, bind_eq_ok] at ih ⊢
    simp only [ih, readType_eq_ok, pure, Except.pure, Except.ok.injEq, List.forall_mem_cons,
      List.map_cons]
    constructor
    · rintro ⟨_, ⟨hk, rfl⟩, _, ⟨hks, rfl⟩, rfl⟩
      exact ⟨⟨hk, hks⟩, rfl⟩
    · rintro ⟨⟨hk, hks⟩, rfl⟩
      exact ⟨_, ⟨hk, rfl⟩, _, ⟨hks, rfl⟩, rfl⟩

/-- The fields of a record are read if their names are new and distinct and their types known. -/
theorem readFields_eq_ok {record : String} {seen : List String} {fields : List TypedName}
    {types : List (String × Ty)} :
    Γ.readFields record seen fields = .ok types ↔
      (∀ f ∈ fields, f.name.name ∉ seen) ∧ (fields.map fun f => f.name.name).Nodup ∧
        (∀ f ∈ fields, Γ.Knows f.type.ty) ∧
        types = fields.map fun f => (f.name.name, f.type.ty) := by
  induction fields generalizing seen types with
  | nil => simp [readFields, eq_comm]
  | cons f fs ih =>
    rw [readFields]
    split_ifs with hs
    · simp only [false_iff]
      exact fun h => h.1 f List.mem_cons_self (by simpa using hs)
    · simp only [bind_eq_ok, ih, readType_eq_ok, pure, Except.pure, Except.ok.injEq,
        List.forall_mem_cons, List.map_cons, List.nodup_cons]
      constructor
      · rintro ⟨_, ⟨hk, rfl⟩, _, ⟨hn, hd, hks, rfl⟩, rfl⟩
        refine ⟨⟨by simpa using hs, fun g hg => List.not_mem_of_not_mem_cons (hn g hg)⟩,
          ⟨?_, hd⟩, ⟨hk, hks⟩, rfl⟩
        intro hm
        obtain ⟨g, hg, he⟩ := List.mem_map.mp hm
        exact List.ne_of_not_mem_cons (hn g hg) he
      · rintro ⟨⟨-, hn⟩, ⟨hf, hd⟩, ⟨hk, hks⟩, rfl⟩
        refine ⟨_, ⟨hk, rfl⟩, _, ⟨fun g hg => ?_, hd, hks, rfl⟩, rfl⟩
        refine List.not_mem_cons_of_ne_of_not_mem (fun he => hf ?_) (hn g hg)
        exact List.mem_map.mpr ⟨g, hg, he⟩

end Context

end RecordLang
