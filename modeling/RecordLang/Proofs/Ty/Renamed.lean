import Mathlib.Logic.Function.Basic
import RecordLang.Proofs.Ty.Order

/-!
# Renaming

A renaming gives new names to variables, records and fields, different names for different ones; the
built-in types keep theirs. The fields of a record stand in the order of their names, so a renamed
record has its fields in another order. Building records, acceptance and putting schemas for names
do not depend on the order and go along with renaming (`Ty.rename_ofFields`, `Ty.accepts_rename`,
`Ty.rename_expand`).
-/

namespace RecordLang

/-- New names for the variables, the records and the fields of a program. -/
structure Renaming where
  ofVariable : String → String
  ofRecord : String → String
  ofField : String → String
  injective_ofVariable : Function.Injective ofVariable
  injective_ofRecord : Function.Injective ofRecord
  injective_ofField : Function.Injective ofField
  ofRecord_builtin : ∀ name, Ty.isBuiltin name = true → ofRecord name = name

namespace Renaming

variable (ρ : Renaming)

/-- No other name becomes that of a built-in type. -/
@[simp] theorem isBuiltin_ofRecord (name : String) :
    Ty.isBuiltin (ρ.ofRecord name) = Ty.isBuiltin name := by
  cases h : Ty.isBuiltin name with
  | true => rw [ρ.ofRecord_builtin name h, h]
  | false =>
    cases h' : Ty.isBuiltin (ρ.ofRecord name) with
    | false => rfl
    | true =>
      have hfix : ρ.ofRecord name = name := ρ.injective_ofRecord (ρ.ofRecord_builtin _ h')
      rw [hfix, h] at h'
      cases h'

/-- A new name is among the new names if the name was among the names. -/
theorem contains_ofField (names : List String) (x : String) :
    (names.map ρ.ofField).contains (ρ.ofField x) = names.contains x := by
  rw [Bool.eq_iff_iff, List.contains_iff_mem, List.contains_iff_mem,
    List.mem_map_of_injective ρ.injective_ofField]

end Renaming

namespace Ty

/-- Puts a field in front of the first one whose name is not smaller. -/
def placeField (name : String) (t : Ty) : List (String × Ty) → List (String × Ty)
  | [] => [(name, t)]
  | (n, u) :: rest =>
    if n < name then (n, u) :: placeField name t rest else (name, t) :: (n, u) :: rest

mutual

/-- The type with the new names, its fields in the order of these. -/
def rename (ρ : Renaming) : Ty → Ty
  | named name optional => named (ρ.ofRecord name) optional
  | function params result => function (renameAll ρ params) (result.rename ρ)
  | record fields => record (renameFields ρ fields)

def renameAll (ρ : Renaming) : List Ty → List Ty
  | [] => []
  | t :: ts => t.rename ρ :: renameAll ρ ts

def renameFields (ρ : Renaming) : List (String × Ty) → List (String × Ty)
  | [] => []
  | (n, t) :: fs => placeField (ρ.ofField n) (t.rename ρ) (renameFields ρ fs)

end

/-- A field with its new name. -/
def renameField (ρ : Renaming) (f : String × Ty) : String × Ty := (ρ.ofField f.1, f.2.rename ρ)

variable {ρ : Renaming} {name x : String} {t u : Ty} {fields fs gs : List (String × Ty)}

@[simp] theorem rename_named (optional : Bool) :
    (named name optional).rename ρ = named (ρ.ofRecord name) optional := rfl

@[simp] theorem rename_function (params : List Ty) (result : Ty) :
    (function params result).rename ρ = function (params.map (rename ρ)) (result.rename ρ) := by
  have h : ∀ ts, renameAll ρ ts = ts.map (rename ρ) := by
    intro ts
    induction ts with
    | nil => rfl
    | cons t ts ih => exact congrArg (t.rename ρ :: ·) ih
  exact congrArg (function · (result.rename ρ)) (h params)

@[simp] theorem rename_record : (record fields).rename ρ = record (renameFields ρ fields) := rfl

/-- The built-in types stay what they are. -/
theorem rename_ofName (h : isBuiltin name = true) : (ofName name).rename ρ = ofName name :=
  congrArg (named · false) (ρ.ofRecord_builtin name h)

@[simp] theorem rename_bool : Ty.bool.rename ρ = .bool := rename_ofName rfl

/-! ### Fields in their new order -/

theorem placeField_perm (name : String) (t : Ty) (fs : List (String × Ty)) :
    (placeField name t fs).Perm ((name, t) :: fs) := by
  induction fs with
  | nil => exact .refl _
  | cons f rest ih =>
    obtain ⟨n, u⟩ := f
    rw [placeField]
    split
    · exact (ih.cons _).trans (.swap _ _ _)
    · exact .refl _

theorem renameFields_perm (ρ : Renaming) (fs : List (String × Ty)) :
    (renameFields ρ fs).Perm (fs.map (renameField ρ)) := by
  induction fs with
  | nil => exact .refl _
  | cons f fs ih => exact (placeField_perm _ _ _).trans (ih.cons _)

theorem lookup_cons_eq_ite {rest : List (String × Ty)} :
    ((name, t) :: rest).lookup x = if x = name then some t else rest.lookup x := by
  rw [List.lookup_cons]
  by_cases hx : x = name
  · rw [beq_iff_eq.mpr hx, if_pos hx]
  · rw [beq_eq_false_iff_ne.mpr hx, if_neg hx]

theorem lookup_placeField :
    (placeField name t fs).lookup x = if x = name then some t else fs.lookup x := by
  induction fs with
  | nil => exact lookup_cons_eq_ite
  | cons f rest ih =>
    obtain ⟨n, u⟩ := f
    rw [placeField]
    split
    next hlt =>
      -- the field of the smaller name has another name
      have hne : n ≠ name := fun h => String.lt_irrefl n (h ▸ hlt)
      rw [lookup_cons_eq_ite, lookup_cons_eq_ite, ih]
      by_cases hx : x = n <;> simp [hx, hne]
    next => rw [lookup_cons_eq_ite]

/-- A field is found under its new name. -/
theorem lookup_renameFields :
    (renameFields ρ fs).lookup (ρ.ofField x) = (fs.lookup x).map (rename ρ) := by
  induction fs with
  | nil => rfl
  | cons f fs ih =>
    obtain ⟨n, t⟩ := f
    rw [renameFields, lookup_placeField, ih, lookup_cons_eq_ite]
    by_cases hx : x = n <;> simp [hx, ρ.injective_ofField.eq_iff]

theorem pairwise_placeField (h : fields.Pairwise fun f g => f.1 < g.1)
    (hnew : ∀ f ∈ fields, f.1 ≠ name) :
    (placeField name t fields).Pairwise fun f g => f.1 < g.1 := by
  induction fields with
  | nil => simp [placeField]
  | cons f rest ih =>
    obtain ⟨n, u⟩ := f
    obtain ⟨hn, hrest⟩ := List.pairwise_cons.mp h
    obtain ⟨hne, hnew⟩ := List.forall_mem_cons.mp hnew
    rw [placeField]
    split
    next hlt =>
      refine List.pairwise_cons.mpr ⟨fun g hg => ?_, ih hrest hnew⟩
      rcases List.mem_cons.mp ((placeField_perm _ _ _).mem_iff.mp hg) with rfl | hg
      · exact hlt
      · exact hn g hg
    next hlt =>
      have hgt : name < n := by
        refine String.not_le.mp fun hle => ?_
        exact hne (String.le_antisymm hle (String.not_lt.mp hlt))
      refine List.pairwise_cons.mpr ⟨fun g hg => ?_, h⟩
      rcases List.mem_cons.mp hg with rfl | hg
      · exact hgt
      · exact String.lt_trans hgt (hn g hg)

theorem pairwise_renameFields (h : fields.Pairwise fun f g => f.1 < g.1) :
    (renameFields ρ fields).Pairwise fun f g => f.1 < g.1 := by
  induction fields with
  | nil => exact .nil
  | cons f rest ih =>
    obtain ⟨n, u⟩ := f
    obtain ⟨hn, hrest⟩ := List.pairwise_cons.mp h
    refine pairwise_placeField (ih hrest) fun g hg => ?_
    obtain ⟨g', hg', rfl⟩ := List.mem_map.mp ((renameFields_perm ρ rest).mem_iff.mp hg)
    intro he
    exact String.lt_irrefl n (ρ.injective_ofField he ▸ hn g' hg')

/-! ### Building records -/

/-- Fields in the order of distinct names are known by what is found in them. -/
theorem eq_of_lookup_eq (hf : fs.Pairwise fun f g => f.1 < g.1)
    (hg : gs.Pairwise fun f g => f.1 < g.1) (h : ∀ x, fs.lookup x = gs.lookup x) : fs = gs := by
  refine fields_ext hf hg fun f => ⟨fun hm => ?_, fun hm => ?_⟩
  · exact mem_of_lookup ((h f.1).symm.trans (lookup_of_mem hf hm))
  · exact mem_of_lookup ((h f.1).trans (lookup_of_mem hg hm))

theorem lookup_insertField :
    (insertField name t fs).lookup x = if x = name then some t else fs.lookup x := by
  induction fs with
  | nil => exact lookup_cons_eq_ite
  | cons f rest ih =>
    obtain ⟨n, u⟩ := f
    rw [insertField]
    split
    next => rw [lookup_cons_eq_ite]
    next =>
      rw [lookup_cons_eq_ite]
      split
      next he => by_cases hx : x = name <;> simp [lookup_cons_eq_ite, ← he, hx]
      next hne =>
        rw [lookup_cons_eq_ite, ih]
        by_cases hx : x = n <;> simp [hx, Ne.symm hne]

theorem lookup_renameFields_of_new (h : ∀ n, ρ.ofField n ≠ x) :
    (renameFields ρ fs).lookup x = none := by
  induction fs with
  | nil => rfl
  | cons f fs ih => rw [renameFields, lookup_placeField, if_neg (h _).symm, ih]

theorem renameFields_insertField (h : fs.Pairwise fun f g => f.1 < g.1) :
    renameFields ρ (insertField name t fs) =
      insertField (ρ.ofField name) (t.rename ρ) (renameFields ρ fs) := by
  refine eq_of_lookup_eq (pairwise_renameFields (pairwise_insertField h))
    (pairwise_insertField (pairwise_renameFields h)) fun x => ?_
  rw [lookup_insertField]
  by_cases hx : ∃ n, ρ.ofField n = x
  · obtain ⟨n, rfl⟩ := hx
    rw [lookup_renameFields, lookup_renameFields, lookup_insertField]
    by_cases hn : n = name <;> simp [hn, ρ.injective_ofField.eq_iff]
  · have hnew : ∀ n, ρ.ofField n ≠ x := fun n hn => hx ⟨n, hn⟩
    rw [lookup_renameFields_of_new hnew, lookup_renameFields_of_new hnew, if_neg (hnew _).symm]

/-- A record of renamed fields is the renamed record. -/
theorem rename_ofFields (ρ : Renaming) (fields : List (String × Ty)) :
    (ofFields fields).rename ρ = ofFields (fields.map (renameField ρ)) := by
  -- the fields are put in one after another, onto those that are there
  have key : ∀ (fs seen : List (String × Ty)), (seen.Pairwise fun f g => f.1 < g.1) →
      renameFields ρ (fs.foldl (fun fs f => insertField f.1 f.2 fs) seen) =
        (fs.map (renameField ρ)).foldl (fun fs f => insertField f.1 f.2 fs)
          (renameFields ρ seen) := by
    intro fs
    induction fs with
    | nil => exact fun _ _ => rfl
    | cons f fs ih =>
      intro seen hseen
      rw [List.foldl_cons, ih _ (pairwise_insertField hseen), renameFields_insertField hseen]
      rfl
  exact congrArg record (key fields [] .nil)

/-! ### Acceptance and references -/

/-- Acceptance does not depend on names. -/
theorem accepts_rename (ρ : Renaming) (t u : Ty) :
    (t.rename ρ).accepts (u.rename ρ) = t.accepts u := by
  rw [Bool.eq_iff_iff]
  induction t using Ty.induction generalizing u with
  | named name optional =>
    cases u with
    | named name' optional' => simp [accepts, ρ.injective_ofRecord.eq_iff]
    | function | record => simp [accepts]
  | function params result ihp ihr =>
    cases u with
    | function params' result' =>
      have hparams : List.Forall₂ (fun t u => (t.rename ρ).accepts (u.rename ρ) = true) params params' ↔
          List.Forall₂ (fun t u => t.accepts u = true) params params' := by
        rw [List.forall₂_iff_get, List.forall₂_iff_get]
        refine and_congr_right fun _ => forall_congr' fun i => forall_congr' fun hi =>
          forall_congr' fun hi' => ihp _ (List.get_mem ..) _
      rw [rename_function, rename_function, accepts, accepts, Bool.and_eq_true, Bool.and_eq_true,
        acceptsAll_iff, acceptsAll_iff, List.forall₂_map_left_iff, List.forall₂_map_right_iff,
        hparams, ihr]
    | named | record => simp [accepts]
  | record fields ih =>
    cases u with
    | record fields' =>
      rw [rename_record, rename_record, accepts, accepts, acceptsFields_iff, acceptsFields_iff]
      -- the expected fields may be looked at in any order
      have hmem : (∀ f ∈ renameFields ρ fields, ∃ v, (renameFields ρ fields').lookup f.1 = some v ∧
          f.2.accepts v = true) ↔ ∀ f ∈ fields, ∃ v,
            (renameFields ρ fields').lookup (ρ.ofField f.1) = some v ∧
              (f.2.rename ρ).accepts v = true := by
        simp only [(renameFields_perm ρ fields).mem_iff, List.forall_mem_map]
        rfl
      rw [hmem]
      refine forall_congr' fun f => forall_congr' fun hf => ?_
      rw [lookup_renameFields]
      constructor
      · rintro ⟨v, hv, ha⟩
        obtain ⟨w, hw, rfl⟩ := Option.map_eq_some_iff.mp hv
        exact ⟨w, hw, (ih f hf w).mp ha⟩
      · rintro ⟨w, hw, ha⟩
        exact ⟨w.rename ρ, by rw [hw]; rfl, (ih f hf w).mpr ha⟩
    | named | function => simp [accepts]

theorem renameFields_map_snd {f g : Ty → Ty} (h : ∀ e ∈ fields, (f e.2).rename ρ = g (e.2.rename ρ)) :
    renameFields ρ (fields.map fun e => (e.1, f e.2)) =
      (renameFields ρ fields).map fun e => (e.1, g e.2) := by
  have hplace : ∀ n u fs, (placeField n u fs).map (fun e => (e.1, g e.2)) =
      placeField n (g u) (fs.map fun e => (e.1, g e.2)) := by
    intro n u fs
    induction fs with
    | nil => rfl
    | cons e rest ih =>
      rw [placeField, List.map_cons, placeField]
      split
      · rw [List.map_cons, ih]
      · rfl
  induction fields with
  | nil => rfl
  | cons e rest ih =>
    obtain ⟨he, hrest⟩ := List.forall_mem_cons.mp h
    rw [List.map_cons, renameFields, renameFields, hplace, ih hrest, he]

/-- References are found under their new names. -/
theorem rename_expand {f g : String → Option Ty}
    (h : ∀ name, g (ρ.ofRecord name) = (f name).map (rename ρ)) (t : Ty) :
    (t.expand f).rename ρ = (t.rename ρ).expand g := by
  induction t using Ty.induction with
  | named name optional =>
    cases optional with
    | true => rfl
    | false =>
      rw [rename_named, expand, expand, ρ.isBuiltin_ofRecord, h]
      split
      · rfl
      · cases f name <;> rfl
  | function params result ihp ihr =>
    rw [expand, rename_function, rename_function, expand, expandAll_eq_map, expandAll_eq_map, ihr,
      List.map_map, List.map_map]
    exact congrArg (function · _) (List.map_congr_left ihp)
  | record fields ih =>
    rw [expand, rename_record, rename_record, expand, expandFields_eq_map, expandFields_eq_map,
      renameFields_map_snd ih]

end Ty

end RecordLang
