import RecordLang.Diagnostic.Capped

/-!
# Capped lists as lists

A capped list that is built by pushing items and by joining others to it stands for the list of all
items, in the order in which they were added: it stores the first of them and counts all
(`Capped.Shows`). Pushing appends to that list and joining appends the other one to it, although the
other may have dropped items before. Two capped lists that show one list are equal, so the laws of
lists hold of capped lists (`Capped.Build.shows`).
-/

namespace RecordLang

namespace Capped

variable {α : Type} {c d : Capped α} {as bs : List α}

/-! ### Items that are pushed -/

theorem pushAll_append : c.pushAll (as ++ bs) = (c.pushAll as).pushAll bs := List.foldl_append

theorem total_pushAll : (c.pushAll as).total = c.total + as.length := by
  induction as generalizing c with
  | nil => rfl
  | cons a as ih =>
    have hp : (c.push a).total = c.total + 1 := rfl
    have hstep : c.pushAll (a :: as) = (c.push a).pushAll as := rfl
    rw [hstep, ih, hp, List.length_cons]
    omega

theorem kept_prefix_pushAll : c.kept <+: (c.pushAll as).kept := by
  induction as generalizing c with
  | nil => exact List.prefix_rfl
  | cons a as ih =>
    have hp : c.kept <+: (c.push a).kept := by
      unfold push
      split
      · exact List.prefix_append _ _
      · exact List.prefix_rfl
    exact hp.trans ih

theorem mem_kept_push {a b : α} (h : b ∈ (c.push a).kept) : b ∈ c.kept ∨ b = a := by
  rw [push] at h
  dsimp only at h
  split at h
  · exact (List.mem_append.mp h).imp id List.mem_singleton.mp
  · exact .inl h

theorem mem_kept_pushAll {b : α} (h : b ∈ (c.pushAll as).kept) : b ∈ c.kept ∨ b ∈ as := by
  induction as generalizing c with
  | nil => exact .inl h
  | cons a as ih =>
    rcases ih h with h | h
    · rcases mem_kept_push h with h | rfl
      · exact .inl h
      · exact .inr List.mem_cons_self
    · exact .inr (List.mem_cons_of_mem a h)

theorem mem_kept_extend {a : α} (h : a ∈ (c.extend d).kept) : a ∈ c.kept ∨ a ∈ d.kept :=
  mem_kept_pushAll h

/-- Nothing was counted in either of two lists that are joined into one without items. -/
theorem nonempty_extend (h : (c.extend d).nonempty = false) :
    c.nonempty = false ∧ d.nonempty = false := by
  have htotal : (c.extend d).total = c.total + d.kept.length + (d.total - d.kept.length) := by
    rw [← total_pushAll]
    rfl
  rw [nonempty, decide_eq_false_iff_not, htotal] at h
  rw [nonempty, nonempty, decide_eq_false_iff_not, decide_eq_false_iff_not]
  omega

theorem pushAll_eq_empty : c.pushAll as = .empty ↔ c = .empty ∧ as = [] := by
  constructor
  · intro h
    have ht : (c.pushAll as).total = 0 := by rw [h]; rfl
    rw [total_pushAll] at ht
    obtain rfl : as = [] := List.length_eq_zero_iff.mp (by omega)
    exact ⟨h, rfl⟩
  · rintro ⟨rfl, rfl⟩
    rfl

section Map

variable {β : Type} (f : α → β) (c : Capped α)

theorem full_map : (c.map f).full = c.full := rfl

theorem nonempty_map : (c.map f).nonempty = c.nonempty := rfl

theorem map_map {γ : Type} (g : β → γ) : (c.map f).map g = c.map (g ∘ f) :=
  congrArg (Capped.mk · c.total) List.map_map

theorem map_push (a : α) : (c.push a).map f = (c.map f).push (f a) := by
  unfold push map
  simp only [List.length_map]
  split
  · rw [List.map_append]
    rfl
  · rfl

theorem map_pushAll (as : List α) : (c.pushAll as).map f = (c.map f).pushAll (as.map f) := by
  induction as generalizing c with
  | nil => rfl
  | cons a as ih =>
    have hstep : (c.pushAll (a :: as)).map f = ((c.push a).pushAll as).map f := rfl
    rw [hstep, ih, map_push]
    rfl

theorem map_extend (d : Capped α) : (c.extend d).map f = (c.map f).extend (d.map f) := by
  have hkept : (d.map f).kept = d.kept.map f := rfl
  unfold extend
  rw [hkept, ← map_pushAll]
  simp only [map, List.length_map]

end Map

/-! ### The list that is shown -/

/-- The capped list stores the first items of a list, as many as can be stored, and counts all. -/
structure Shows (c : Capped α) (items : List α) : Prop where
  kept : c.kept = items.take limit
  total : c.total = items.length

theorem shows_empty : (empty : Capped α).Shows [] := ⟨rfl, rfl⟩

namespace Shows

/-- A capped list is known by the list that it shows. -/
theorem unique (hc : c.Shows as) (hd : d.Shows as) : c = d := by
  obtain ⟨kept, total⟩ := c
  obtain ⟨rfl, rfl⟩ := hc
  obtain ⟨kept', total'⟩ := d
  obtain ⟨rfl, rfl⟩ := hd
  rfl

/-- A list that fits is stored. -/
theorem kept_eq (h : c.Shows as) (hfits : as.length ≤ limit) : c.kept = as := by
  rw [h.kept, List.take_of_length_le hfits]

theorem push (h : c.Shows as) (a : α) : (c.push a).Shows (as ++ [a]) := by
  refine ⟨?_, by rw [List.length_append, ← h.total]; rfl⟩
  have hlength : c.kept.length = min limit as.length := by rw [h.kept, List.length_take]
  rw [Capped.push]
  dsimp only
  split
  · next hroom =>
    rw [h.kept_eq (by omega), List.take_of_length_le]
    rw [List.length_append, List.length_singleton]
    omega
  · next hroom => rw [h.kept, List.take_append_of_le_length (by omega)]

theorem pushAll (h : c.Shows as) (bs : List α) : (c.pushAll bs).Shows (as ++ bs) := by
  induction bs generalizing c as with
  | nil => exact (List.append_nil as).symm ▸ h
  | cons b bs ih =>
    rw [List.append_cons]
    exact ih (h.push b)

/-- The items that the second list dropped would not be stored behind those of the first one. -/
theorem extend (hc : c.Shows as) (hd : d.Shows bs) : (c.extend d).Shows (as ++ bs) := by
  have hpushed := hc.pushAll d.kept
  constructor
  · show (c.pushAll d.kept).kept = _
    rw [hpushed.kept, hd.kept, List.take_append, List.take_append, List.take_take,
      Nat.min_eq_left (Nat.sub_le _ _)]
  · show (c.pushAll d.kept).total + (d.total - d.kept.length) = _
    rw [hpushed.total, List.length_append, List.length_append, hd.kept, hd.total, List.length_take]
    omega

/-- The first item that is pushed is stored, unless the list is full. -/
theorem mem_kept_of_head (h : c.Shows as) (hfull : c.full = false) :
    ∀ b ∈ bs.head?, b ∈ (c.pushAll bs).kept := by
  intro b hb
  obtain ⟨more, rfl⟩ := List.head?_eq_some_iff.mp hb
  have hroom : as.length < limit := by
    rw [full, decide_eq_false_iff_not, h.total] at hfull
    omega
  have hpush : (c.push b).kept = as ++ [b] :=
    (h.push b).kept_eq (by rw [List.length_append, List.length_singleton]; omega)
  have hmem : b ∈ (c.push b).kept := hpush ▸ List.mem_concat_self
  have hpushed : (c.push b).kept <+: ((c.push b).pushAll more).kept := kept_prefix_pushAll
  exact hpushed.subset hmem

end Shows

theorem shows_ofList (as : List α) : (ofList as).Shows as := shows_empty.pushAll as

theorem map_ofList {β : Type} (f : α → β) (as : List α) : (ofList as).map f = ofList (as.map f) :=
  map_pushAll f empty as

theorem extend_ofList (as bs : List α) : (ofList as).extend (ofList bs) = ofList (as ++ bs) :=
  ((shows_ofList as).extend (shows_ofList bs)).unique (shows_ofList (as ++ bs))

/-- Nothing is dropped of two lists that fit. -/
theorem kept_pushAll_empty (h : ((empty.pushAll as).pushAll bs).total < limit) :
    ((empty.pushAll as).pushAll bs).kept = (empty.pushAll as).kept ++ (empty.pushAll bs).kept := by
  have hboth := (shows_ofList as).pushAll bs
  have htotal : (as ++ bs).length < limit := hboth.total ▸ h
  rw [List.length_append] at htotal
  have has : (empty.pushAll as).kept = as := (shows_ofList as).kept_eq (by omega)
  have hbs : (empty.pushAll bs).kept = bs := (shows_ofList bs).kept_eq (by omega)
  have hkept : ((empty.pushAll as).pushAll bs).kept = as ++ bs :=
    hboth.kept_eq (by rw [List.length_append]; omega)
  rw [hkept, has, hbs]

/-! ### Capped lists that are built -/

/-- The ways to build a capped list. -/
inductive Build (α : Type) where
  | empty
  | push (b : Build α) (a : α)
  | extend (b d : Build α)

namespace Build

/-- The capped list that is built. -/
def run : Build α → Capped α
  | empty => .empty
  | push b a => b.run.push a
  | extend b d => b.run.extend d.run

/-- All items that are added, in this order. -/
def items : Build α → List α
  | empty => []
  | push b a => b.items ++ [a]
  | extend b d => b.items ++ d.items

theorem shows (b : Build α) : b.run.Shows b.items := by
  induction b with
  | empty => exact shows_empty
  | push b a ih => exact ih.push a
  | extend b d ihb ihd => exact ihb.extend ihd

end Build

end Capped

end RecordLang
