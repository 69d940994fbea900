import Mathlib.Tactic.Common
import RecordLang.Ty.Basic

/-!
# The names in a type

`Ty.leaves` lists the names that a type is built from, each with its mark of being optional. A type
mentions a name if it is among them, and is resolved if all its names that are not optional are
built in: such a type is left alone when schemas are put for names (`Ty.Resolved.expand`).
-/

namespace RecordLang

namespace Ty

/-- A property of all types holds of names, and of functions and records if it holds of their
parts. -/
@[elab_as_elim]
theorem induction {motive : Ty → Prop} (named : ∀ name optional, motive (.named name optional))
    (function : ∀ params result, (∀ t ∈ params, motive t) → motive result →
      motive (.function params result))
    (record : ∀ fields, (∀ f ∈ fields, motive f.2) → motive (.record fields)) (t : Ty) :
    motive t :=
  @Ty.rec motive (fun ts => ∀ t ∈ ts, motive t) (fun fs => ∀ f ∈ fs, motive f.2)
    (fun f => motive f.2) named function record nofun
    (fun _ _ ht hts => List.forall_mem_cons.mpr ⟨ht, hts⟩) nofun
    (fun _ _ hf hfs => List.forall_mem_cons.mpr ⟨hf, hfs⟩) (fun _ _ ht => ht) t

mutual

/-- The names in a type, each with whether it is optional. -/
def leaves : Ty → List (String × Bool)
  | named name optional => [(name, optional)]
  | function params result => leavesAll params ++ result.leaves
  | record fields => leavesFields fields

def leavesAll : List Ty → List (String × Bool)
  | [] => []
  | t :: ts => t.leaves ++ leavesAll ts

def leavesFields : List (String × Ty) → List (String × Bool)
  | [] => []
  | (_, t) :: fs => t.leaves ++ leavesFields fs

end

/-- The name stands in the type, optional or not. -/
def Mentions (t : Ty) (name : String) : Prop := ∃ optional, (name, optional) ∈ t.leaves

/-- No declared record is referred to: a name is optional or built in. -/
def Resolved (t : Ty) : Prop := ∀ name, (name, false) ∈ t.leaves → isBuiltin name = true

/-- The names in a type. -/
def names (t : Ty) : List String := t.leaves.map Prod.fst

theorem mem_names {t : Ty} {name : String} : name ∈ t.names ↔ t.Mentions name := by
  simp [names, Mentions]

theorem leaves_named (name : String) (optional : Bool) :
    (named name optional).leaves = [(name, optional)] := rfl

theorem leaves_function (params : List Ty) (result : Ty) :
    (function params result).leaves = params.flatMap leaves ++ result.leaves := by
  have h : ∀ ts, leavesAll ts = ts.flatMap leaves := by
    intro ts
    induction ts with
    | nil => rfl
    | cons t ts ih => exact congrArg (t.leaves ++ ·) ih
  exact congrArg (· ++ result.leaves) (h params)

theorem leaves_record (fields : List (String × Ty)) :
    (record fields).leaves = fields.flatMap fun f => f.2.leaves := by
  have h : ∀ fs, leavesFields fs = fs.flatMap fun f => f.2.leaves := by
    intro fs
    induction fs with
    | nil => rfl
    | cons f fs ih => exact congrArg (f.2.leaves ++ ·) ih
  exact h fields

@[simp] theorem mentions_named {a name : String} {optional : Bool} :
    (named a optional).Mentions name ↔ name = a := by
  simp [Mentions, leaves_named]

theorem mentions_function {params : List Ty} {result : Ty} {name : String} :
    (function params result).Mentions name ↔
      (∃ t ∈ params, t.Mentions name) ∨ result.Mentions name := by
  simp only [Mentions, leaves_function, List.mem_append, List.mem_flatMap]
  constructor
  · rintro ⟨o, ⟨t, ht, hn⟩ | hn⟩
    exacts [.inl ⟨t, ht, o, hn⟩, .inr ⟨o, hn⟩]
  · rintro (⟨t, ht, o, hn⟩ | ⟨o, hn⟩)
    exacts [⟨o, .inl ⟨t, ht, hn⟩⟩, ⟨o, .inr hn⟩]

theorem mentions_record {fields : List (String × Ty)} {name : String} :
    (record fields).Mentions name ↔ ∃ f ∈ fields, f.2.Mentions name := by
  simp only [Mentions, leaves_record, List.mem_flatMap]
  constructor
  · rintro ⟨o, f, hf, hn⟩
    exact ⟨f, hf, o, hn⟩
  · rintro ⟨f, hf, o, hn⟩
    exact ⟨o, f, hf, hn⟩

/-! ### Resolved types -/

theorem resolved_named {name : String} {optional : Bool} :
    (named name optional).Resolved ↔ optional = false → isBuiltin name = true := by
  constructor
  · rintro h rfl
    exact h name (by simp [leaves_named])
  · intro h n hn
    simp only [leaves_named, List.mem_singleton, Prod.mk.injEq] at hn
    obtain ⟨rfl, rfl⟩ := hn
    exact h rfl

theorem resolved_function {params : List Ty} {result : Ty} :
    (function params result).Resolved ↔ (∀ t ∈ params, t.Resolved) ∧ result.Resolved := by
  simp only [Resolved, leaves_function, List.mem_append, List.mem_flatMap]
  constructor
  · exact fun h => ⟨fun t ht n hn => h n (.inl ⟨t, ht, hn⟩), fun n hn => h n (.inr hn)⟩
  · rintro ⟨hp, hr⟩ n (⟨t, ht, hn⟩ | hn)
    exacts [hp t ht n hn, hr n hn]

theorem resolved_record {fields : List (String × Ty)} :
    (record fields).Resolved ↔ ∀ f ∈ fields, f.2.Resolved := by
  simp only [Resolved, leaves_record, List.mem_flatMap]
  exact ⟨fun h f hf n hn => h n ⟨f, hf, hn⟩, fun h n ⟨f, hf, hn⟩ => h f hf n hn⟩

/-- There is nothing to put schemas for in a resolved type. -/
theorem Resolved.expand {t : Ty} (h : t.Resolved) (f : String → Option Ty) : t.expand f = t := by
  induction t using Ty.induction with
  | named name optional =>
    cases optional with
    | true => rfl
    | false => simp [Ty.expand, resolved_named.mp h rfl]
  | function params result ihp ihr =>
    obtain ⟨hp, hr⟩ := resolved_function.mp h
    rw [Ty.expand, expandAll_eq_map, ihr hr,
      (List.map_inj_left.mpr fun t ht => ihp t ht (hp t ht) : params.map _ = params.map id),
      List.map_id]
  | record fields ih =>
    have hf := resolved_record.mp h
    have key : ∀ g ∈ fields, (g.1, g.2.expand f) = id g := fun g hg => by
      rw [ih g hg (hf g hg)]; rfl
    rw [Ty.expand, expandFields_eq_map, List.map_inj_left.mpr key, List.map_id]

/-- If every reference is to something that `f` knows and that is resolved, nothing unresolved is
left. -/
theorem resolved_expand {t : Ty} {f : String → Option Ty}
    (h : ∀ name, (name, false) ∈ t.leaves → isBuiltin name = false →
      ∃ u, f name = some u ∧ u.Resolved) : (t.expand f).Resolved := by
  induction t using Ty.induction with
  | named name optional =>
    cases optional with
    | true => exact resolved_named.mpr nofun
    | false =>
      cases hb : isBuiltin name with
      | true => simpa [Ty.expand, hb] using resolved_named.mpr fun _ => hb
      | false =>
        obtain ⟨u, hu, hr⟩ := h name (by simp [leaves_named]) hb
        simpa [Ty.expand, hb, hu] using hr
  | function params result ihp ihr =>
    simp only [leaves_function, List.mem_append, List.mem_flatMap] at h
    rw [Ty.expand, expandAll_eq_map, resolved_function]
    refine ⟨List.forall_mem_map.mpr fun t ht => ?_, ihr fun n hn => h n (.inr hn)⟩
    exact ihp t ht fun n hn => h n (.inl ⟨t, ht, hn⟩)
  | record fields ih =>
    simp only [leaves_record, List.mem_flatMap] at h
    rw [Ty.expand, expandFields_eq_map, resolved_record]
    exact List.forall_mem_map.mpr fun g hg => ih g hg fun n hn => h n ⟨g, hg, hn⟩

/-! ### Fields in the order of their names -/

theorem mem_insertField {f : String × Ty} {name : String} {t : Ty} :
    ∀ {fs : List (String × Ty)}, f ∈ insertField name t fs → f = (name, t) ∨ f ∈ fs
  | [], h => .inl (by simpa [insertField] using h)
  | (n, u) :: rest, h => by
    simp only [insertField] at h
    split_ifs at h
    · simpa using h
    · rcases List.mem_cons.mp h with h | h
      exacts [.inl h, .inr (List.mem_cons_of_mem _ h)]
    · rcases List.mem_cons.mp h with h | h
      · exact .inr (List.mem_cons.mpr (.inl h))
      · exact (mem_insertField h).imp id (List.mem_cons_of_mem _)

/-- The fields of a record are among those that were put into it. -/
theorem mem_of_mem_insertFields {fields : List (String × Ty)} {f : String × Ty}
    (h : f ∈ fields.foldl (fun fs f => insertField f.1 f.2 fs) []) : f ∈ fields := by
  -- the fields are put in one after another, onto those that are there
  have key : ∀ (fs seen : List (String × Ty)),
      ∀ f ∈ fs.foldl (fun fs f => insertField f.1 f.2 fs) seen, f ∈ fs ∨ f ∈ seen := by
    intro fs
    induction fs with
    | nil => exact fun seen f hf => .inr hf
    | cons g gs ih =>
      intro seen f hf
      rcases ih _ f hf with hf | hf
      · exact .inl (List.mem_cons_of_mem _ hf)
      · rcases mem_insertField hf with rfl | hf
        exacts [.inl List.mem_cons_self, .inr hf]
  simpa using key fields [] f h

/-- What a record of given fields mentions is mentioned by one of them. -/
theorem mentions_of_ofFields {fields : List (String × Ty)} {name : String}
    (h : (ofFields fields).Mentions name) : ∃ f ∈ fields, f.2.Mentions name := by
  obtain ⟨f, hf, hn⟩ := mentions_record.mp h
  exact ⟨f, mem_of_mem_insertFields hf, hn⟩

end Ty

end RecordLang
