import Mathlib.Data.List.Forall2
import RecordLang.Proofs.Ty.Names
import RecordLang.Program.Tree

/-!
# Fields in order, and acceptance

A type is ordered if the fields of each of its records stand in the strict order of their names;
`Ty.ofFields` builds only such records. On ordered types acceptance is a partial order
(`Ty.Ordered.accepts_self`, `Ty.accepts_trans`, `Ty.Ordered.accepts_antisymm`). What a resolved type
accepts it still accepts once schemas are put for names, since it looks into no name that could be
replaced (`Ty.Resolved.accepts_expand`).
-/

namespace RecordLang

namespace Ty

variable {name : String} {t u v : Ty} {fields fs gs : List (String × Ty)}

/-- The fields of every record in the type stand in the strict order of their names. -/
inductive Ordered : Ty → Prop
  | named (name : String) (optional : Bool) : Ordered (.named name optional)
  | function {params : List Ty} {result : Ty} (inParams : ∀ t ∈ params, Ordered t)
      (inResult : Ordered result) : Ordered (.function params result)
  | record {fields : List (String × Ty)} (sorted : fields.Pairwise fun f g => f.1 < g.1)
      (inFields : ∀ f ∈ fields, Ordered f.2) : Ordered (.record fields)

/-! ### Building records -/

theorem pairwise_insertField (h : fields.Pairwise fun f g => f.1 < g.1) :
    (insertField name t fields).Pairwise fun f g => f.1 < g.1 := by
  induction fields with
  | nil => simp [insertField]
  | cons g rest ih =>
    obtain ⟨n, v⟩ := g
    obtain ⟨hn, hrest⟩ := List.pairwise_cons.mp h
    rw [insertField]
    split_ifs with hlt heq
    · refine List.pairwise_cons.mpr ⟨?_, h⟩
      intro f hf
      rcases List.mem_cons.mp hf with rfl | hf
      · exact hlt
      · exact String.lt_trans hlt (hn f hf)
    · subst heq
      exact List.pairwise_cons.mpr ⟨hn, hrest⟩
    · -- the new field stands somewhere behind the first one
      have hgt : n < name := by
        rcases String.le_total name n with hle | hle
        · exact absurd (String.le_antisymm hle (String.not_lt.mp hlt)) heq
        · exact String.not_le.mp fun hle' => heq (String.le_antisymm hle' hle)
      refine List.pairwise_cons.mpr ⟨?_, ih hrest⟩
      intro f hf
      rcases mem_insertField hf with rfl | hf
      · exact hgt
      · exact hn f hf

theorem ordered_ofFields (h : ∀ f ∈ fields, f.2.Ordered) : (ofFields fields).Ordered := by
  have key : ∀ (fs seen : List (String × Ty)), (∀ f ∈ fs, f.2.Ordered) →
      (seen.Pairwise fun f g => f.1 < g.1) → (∀ f ∈ seen, f.2.Ordered) →
      (record (fs.foldl (fun fs f => insertField f.1 f.2 fs) seen)).Ordered := by
    intro fs
    induction fs with
    | nil => exact fun seen _ hs hseen => .record hs hseen
    | cons g gs ih =>
      intro seen hfs hs hseen
      obtain ⟨hg, hgs⟩ := List.forall_mem_cons.mp hfs
      refine ih _ hgs (pairwise_insertField hs) fun f hf => ?_
      rcases mem_insertField hf with rfl | hf
      · exact hg
      · exact hseen f hf
  exact key fields [] h .nil nofun

theorem lookup_of_mem (h : fields.Pairwise fun f g => f.1 < g.1) (hm : (name, t) ∈ fields) :
    fields.lookup name = some t := by
  induction fields with
  | nil => cases hm
  | cons g rest ih =>
    obtain ⟨n, v⟩ := g
    obtain ⟨hn, hrest⟩ := List.pairwise_cons.mp h
    rcases List.mem_cons.mp hm with he | hmem
    · cases he
      rw [List.lookup_cons, beq_self_eq_true]
    · have hne : (name == n) = false := by
        rw [beq_eq_false_iff_ne]
        rintro rfl
        exact String.lt_irrefl name (hn (name, t) hmem)
      rw [List.lookup_cons, hne]
      exact ih hrest hmem

theorem mem_of_lookup (h : fields.lookup name = some t) : (name, t) ∈ fields := by
  obtain ⟨before, after, rfl, -⟩ := List.lookup_eq_some_iff.mp h
  exact List.mem_append_cons_self

/-- Ordered lists of fields are the same if they have the same fields. -/
theorem fields_ext (hf : fs.Pairwise fun f g => f.1 < g.1) (hg : gs.Pairwise fun f g => f.1 < g.1)
    (h : ∀ f, f ∈ fs ↔ f ∈ gs) : fs = gs := by
  have ne_of_lt : ∀ f g : String × Ty, f.1 < g.1 → f ≠ g := by
    rintro f g hlt rfl
    exact String.lt_irrefl _ hlt
  have hperm := (List.perm_ext_iff_of_nodup (hf.imp (ne_of_lt _ _)) (hg.imp (ne_of_lt _ _))).mpr h
  exact hperm.eq_of_pairwise (fun f g _ _ hlt hlt' => absurd hlt' (String.lt_asymm hlt)) hf hg

theorem lookup_map_snd (f : Ty → Ty) (x : String) :
    (fields.map fun g => (g.1, f g.2)).lookup x = (fields.lookup x).map f := by
  induction fields with
  | nil => rfl
  | cons g gs ih =>
    obtain ⟨n, v⟩ := g
    rw [List.map_cons, List.lookup_cons, List.lookup_cons, ih]
    cases x == n with
    | true => rfl
    | false => rfl

/-! ### Acceptance by parts -/

theorem acceptsAll_iff {ts us : List Ty} :
    acceptsAll ts us = true ↔ List.Forall₂ (fun t u => t.accepts u = true) ts us := by
  induction ts generalizing us with
  | nil => cases us <;> simp [acceptsAll]
  | cons t ts ih => cases us <;> simp [acceptsAll, ih]

theorem acceptsFields_iff : acceptsFields fs gs = true ↔
    ∀ f ∈ fs, ∃ u, gs.lookup f.1 = some u ∧ f.2.accepts u = true := by
  induction fs with
  | nil => simp [acceptsFields]
  | cons f fs ih =>
    obtain ⟨n, t⟩ := f
    rw [acceptsFields, Bool.and_eq_true, ih, List.forall_mem_cons]
    cases gs.lookup n <;> simp

theorem named_accepts {optional : Bool} :
    (named name optional).accepts u = true ↔ u = .named name optional := by
  cases u with
  | named name' optional' =>
    rw [accepts, Bool.and_eq_true, beq_iff_eq, beq_iff_eq, named.injEq]
    exact and_congr eq_comm eq_comm
  | function | record => simp [accepts]

theorem function_accepts {params : List Ty} {result : Ty} :
    (function params result).accepts u = true ↔ ∃ params' result', u = .function params' result' ∧
      List.Forall₂ (fun t u => t.accepts u = true) params params' ∧
      result.accepts result' = true := by
  cases u with
  | function => simp [accepts, acceptsAll_iff]
  | named | record => simp [accepts]

theorem record_accepts : (record fs).accepts u = true ↔ ∃ gs, u = .record gs ∧
    ∀ f ∈ fs, ∃ v, gs.lookup f.1 = some v ∧ f.2.accepts v = true := by
  cases u with
  | record => simp [accepts, acceptsFields_iff]
  | named | function => simp [accepts]

/-! ### Acceptance as an order -/

theorem Ordered.accepts_self (h : t.Ordered) : t.accepts t = true := by
  induction h with
  | named => exact named_accepts.mpr rfl
  | function _ _ ihp ihr => exact function_accepts.mpr ⟨_, _, rfl, List.forall₂_same.mpr ihp, ihr⟩
  | record hs _ ih =>
    exact record_accepts.mpr ⟨_, rfl, fun f hf => ⟨f.2, lookup_of_mem hs hf, ih f hf⟩⟩

theorem accepts_trans (h : t.accepts u = true) (h' : u.accepts v = true) : t.accepts v = true := by
  induction t using Ty.induction generalizing u v with
  | named name optional =>
    obtain rfl := named_accepts.mp h
    exact h'
  | function params result ihp ihr =>
    obtain ⟨ps, r, rfl, hp, hr⟩ := function_accepts.mp h
    obtain ⟨qs, s, rfl, hq, hs⟩ := function_accepts.mp h'
    refine function_accepts.mpr ⟨qs, s, rfl, ?_, ihr hr hs⟩
    refine List.forall₂_iff_get.mpr ⟨hp.length_eq.trans hq.length_eq, fun i hi hi' => ?_⟩
    have hi'' := hp.length_eq ▸ hi
    exact ihp _ (List.get_mem ..) ((List.forall₂_iff_get.mp hp).2 i hi hi'')
      ((List.forall₂_iff_get.mp hq).2 i hi'' hi')
  | record fields ih =>
    obtain ⟨fs, rfl, hf⟩ := record_accepts.mp h
    obtain ⟨gs, rfl, hg⟩ := record_accepts.mp h'
    refine record_accepts.mpr ⟨gs, rfl, fun f hfm => ?_⟩
    -- the field is found in the middle record, and what is found there in the last one
    obtain ⟨w, hw, ha⟩ := hf f hfm
    obtain ⟨w', hw', ha'⟩ := hg (f.1, w) (mem_of_lookup hw)
    exact ⟨w', hw', ih f hfm ha ha'⟩

/-- Ordered types that accept each other are the same. -/
theorem Ordered.accepts_antisymm (ht : t.Ordered) (hu : u.Ordered) (h : t.accepts u = true)
    (h' : u.accepts t = true) : t = u := by
  induction t using Ty.induction generalizing u with
  | named name optional => exact (named_accepts.mp h).symm
  | function params result ihp ihr =>
    obtain ⟨ps, r, rfl, hp, hr⟩ := function_accepts.mp h
    obtain ⟨_, _, ⟨rfl, rfl⟩, hp', hr'⟩ := function_accepts.mp h'
    obtain _ | ⟨htp, htr⟩ := ht
    obtain _ | ⟨hup, hur⟩ := hu
    have hps : params = ps := by
      refine List.ext_get hp.length_eq fun i hi hi' => ?_
      exact ihp _ (List.get_mem ..) (htp _ (List.get_mem ..)) (hup _ (List.get_mem ..))
        ((List.forall₂_iff_get.mp hp).2 i hi hi') ((List.forall₂_iff_get.mp hp').2 i hi' hi)
    rw [hps, ihr htr hur hr hr']
  | record fs ih =>
    obtain ⟨gs, rfl, hf⟩ := record_accepts.mp h
    obtain ⟨_, ⟨rfl⟩, hg⟩ := record_accepts.mp h'
    obtain _ | _ | ⟨hts, htf⟩ := ht
    obtain _ | _ | ⟨hus, huf⟩ := hu
    -- a field of the first record is one of the second, with a type that is the same by induction
    have hsub : ∀ f ∈ fs, f ∈ gs := by
      intro f hfm
      obtain ⟨w, hw, ha⟩ := hf f hfm
      obtain ⟨w', hw', ha'⟩ := hg (f.1, w) (mem_of_lookup hw)
      obtain rfl : f.2 = w' := Option.some.inj ((lookup_of_mem hts hfm).symm.trans hw')
      obtain rfl := ih f hfm (htf f hfm) (huf _ (mem_of_lookup hw)) ha ha'
      exact mem_of_lookup hw
    refine congrArg Ty.record (fields_ext hts hus fun f => ⟨hsub f, fun hfm => ?_⟩)
    -- a field of the second has its name in the first, and so the type that it has in the second
    obtain ⟨w, hw, -⟩ := hg f hfm
    have hmem := mem_of_lookup hw
    obtain rfl : w = f.2 := Option.some.inj
      ((lookup_of_mem hus (hsub _ hmem)).symm.trans (lookup_of_mem hus hfm))
    exact hmem

theorem Resolved.accepts_expand (ht : t.Resolved) (f : String → Option Ty)
    (h : t.accepts u = true) : t.accepts (u.expand f) = true := by
  induction t using Ty.induction generalizing u with
  | named name optional =>
    obtain rfl := named_accepts.mp h
    rwa [ht.expand]
  | function params result ihp ihr =>
    obtain ⟨htp, htr⟩ := resolved_function.mp ht
    obtain ⟨params', result', rfl, hp, hr⟩ := function_accepts.mp h
    rw [Ty.expand, expandAll_eq_map]
    refine function_accepts.mpr ⟨_, _, rfl, List.forall₂_map_right_iff.mpr ?_, ihr htr hr⟩
    refine List.forall₂_iff_get.mpr ⟨hp.length_eq, fun i hi hi' => ?_⟩
    have ha := (List.forall₂_iff_get.mp hp).2 i hi hi'
    exact ihp _ (List.get_mem ..) (htp _ (List.get_mem ..)) ha
  | record fields ih =>
    obtain ⟨fields', rfl, hf⟩ := record_accepts.mp h
    rw [Ty.expand, expandFields_eq_map]
    refine record_accepts.mpr ⟨_, rfl, fun g hg => ?_⟩
    obtain ⟨v, hv, ha⟩ := hf g hg
    refine ⟨v.expand f, ?_, ih g hg (resolved_record.mp ht g hg) ha⟩
    rw [lookup_map_snd, hv]; rfl

end Ty

namespace TypeExpr

mutual

/-- A written type has no records in it, only their names. -/
theorem ordered_ty : ∀ t : TypeExpr, t.ty.Ordered
  | named name optional _ => .named name optional
  | function params result _ => .function (ordered_tys params) result.ordered_ty

theorem ordered_tys : ∀ ts : List TypeExpr, ∀ t ∈ tys ts, t.Ordered
  | [] => nofun
  | t :: ts => List.forall_mem_cons.mpr ⟨t.ordered_ty, ordered_tys ts⟩

end

end TypeExpr

end RecordLang
