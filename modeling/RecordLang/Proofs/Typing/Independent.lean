import RecordLang.Proofs.Typing.Absent
import RecordLang.Proofs.Typing.Member
import RecordLang.Proofs.Typing.Written

/-!
# Independent statements

Two statements next to each other are independent if neither names what the other declares in its
own scope. They may be exchanged: the program is accepted in both orders or in none, its expressions
have the same types, and the same is visible at its end (`Program.check_swap`). The exception is a
record under a built-in name, which is found without being named
(`Program.overlaidInt_order_matters`).
-/

namespace RecordLang

/-! ### Declared names -/

namespace Entry

def variableName? : Entry → Option String
  | .variable x _ => some x
  | _ => none

def recordName? : Entry → Option String
  | .record x _ => some x
  | _ => none

theorem variableOf_eq_none {d : Entry} {x : String} :
    d.variableOf x = none ↔ d.variableName? ≠ some x := by
  rcases d with _ | ⟨y, t⟩ | _
  · simp [variableOf, variableName?]
  · simp [variableOf, variableName?, eq_comm]
  · simp [variableOf, variableName?]

theorem recordOf_eq_none {d : Entry} {x : String} :
    d.recordOf x = none ↔ d.recordName? ≠ some x := by
  rcases d with _ | _ | ⟨y, t⟩
  · simp [recordOf, recordName?]
  · simp [recordOf, recordName?]
  · simp [recordOf, recordName?, eq_comm]

end Entry

namespace Stmt

/-- The variables that a statement declares in its own scope. -/
def declaredVariables (s : Stmt) : List String := s.declarations.filterMap Entry.variableName?

/-- The records that a statement declares in its own scope. -/
def declaredRecords (s : Stmt) : List String := s.declarations.filterMap Entry.recordName?

/-- What `s` declares in its own scope does not occur in `t`, as a use or as a declaration. -/
def AbsentFrom (s t : Stmt) : Prop :=
  (∀ x ∈ s.declaredVariables, x ∉ t.names) ∧ ∀ x ∈ s.declaredRecords, x ∉ t.typeNames

/-- Neither statement names what the other declares in its own scope. -/
def Independent (s t : Stmt) : Prop := s.AbsentFrom t ∧ t.AbsentFrom s

instance (s t : Stmt) : Decidable (s.AbsentFrom t) := inferInstanceAs (Decidable (_ ∧ _))

instance (s t : Stmt) : Decidable (s.Independent t) := inferInstanceAs (Decidable (_ ∧ _))

variable {s t : Stmt} {x : String}

theorem Independent.symm (h : s.Independent t) : t.Independent s := And.symm h

theorem variableOf_of_not_declared (h : x ∉ s.declaredVariables) :
    ∀ d ∈ s.declarations, d.variableOf x = none := fun d hd =>
  Entry.variableOf_eq_none.mpr fun hx => h (List.mem_filterMap.mpr ⟨d, hd, hx⟩)

theorem recordOf_of_not_declared (h : x ∉ s.declaredRecords) :
    ∀ d ∈ s.declarations, d.recordOf x = none := fun d hd =>
  Entry.recordOf_eq_none.mpr fun hx => h (List.mem_filterMap.mpr ⟨d, hd, hx⟩)

theorem declaredVariables_subset (h : x ∈ s.declaredVariables) : x ∈ s.names := by
  obtain ⟨d, hd, hx⟩ := List.mem_filterMap.mp h
  rcases d with _ | _ | _
  · cases hx
  · cases hx
    exact variable_mem_declarations hd
  · cases hx

theorem exists_of_declaredRecords (h : x ∈ s.declaredRecords) :
    ∃ schema, .record x schema ∈ s.declarations := by
  obtain ⟨d, hd, hx⟩ := List.mem_filterMap.mp h
  rcases d with _ | _ | ⟨y, schema⟩
  · cases hx
  · cases hx
  · cases hx
    exact ⟨schema, hd⟩

theorem declaredRecords_bare (s : Stmt) : s.bare.declaredRecords = s.declaredRecords := by
  rw [declaredRecords, declarations_bare, declaredRecords]

theorem independent_bare : s.bare.Independent t.bare ↔ s.Independent t := by
  simp only [Independent, AbsentFrom, declaredVariables, declaredRecords, declarations_bare,
    names_bare]

end Stmt

/-! ### Contexts -/

namespace Context

variable {Γ : Context} {ds es : List Entry} {s t : Stmt} {x : String}

theorem Admits.findRecord_eq_none {schema : Ty} (h : Γ.Admits ds) (hx : .record x schema ∈ ds) :
    Γ.findRecord x = none := by
  obtain ⟨before, after, rfl⟩ := List.append_of_mem hx
  obtain ⟨hbefore, hd, -⟩ := admits_append.mp h
  have hnew : (Γ.extend before).findRecord x = none := hd.2.2
  -- a record that was visible would still be visible where it is declared
  cases hf : Γ.findRecord x with
  | none => rfl
  | some u =>
    rw [hbefore.findRecord hf] at hnew
    cases hnew

/-- A statement adds what it declares, and nothing else. -/
theorem agreeExcept_extend (hΓ : Γ.WellFormed) (h : Γ.Admits s.declarations)
    (hb : ∀ x ∈ s.declaredRecords, Ty.isBuiltin x = false) :
    AgreeExcept (· ∈ s.declaredVariables) (· ∈ s.declaredRecords) Γ (Γ.extend s.declarations) := by
  have hcur : (⟨Γ.current⟩ : Context).extend s.declarations =
      ⟨(Γ.extend s.declarations).current⟩ := by
    rw [h.current]
    rfl
  refine ⟨⟨fun x hx => ?_, fun x hx => ?_, .lacking hΓ (hΓ.extend h) hb (.inl fun x hx => ?_)⟩,
    fun x hx => ?_⟩
  · exact (findSome?_extend (Stmt.variableOf_of_not_declared hx)).symm
  · exact (findSome?_extend (Stmt.recordOf_of_not_declared hx)).symm
  · obtain ⟨schema, hm⟩ := Stmt.exists_of_declaredRecords hx
    exact h.findRecord_eq_none hm
  · have hv := findSome?_extend (Γ := ⟨Γ.current⟩) (Stmt.variableOf_of_not_declared hx)
    rw [hcur] at hv
    exact hv.symm

theorem findSome?_swap {f : Entry → Option Ty}
    (h : (∀ d ∈ ds, f d = none) ∨ ∀ d ∈ es, f d = none) :
    (Γ.extend (ds ++ es)).entries.findSome? f = (Γ.extend (es ++ ds)).entries.findSome? f := by
  have hadd : ∀ cs : List Entry, (∀ c ∈ cs, f c = none) → ∀ bs,
      (Γ.extend (cs ++ bs)).entries.findSome? f = (Γ.extend (bs ++ cs)).entries.findSome? f := by
    intro cs hcs bs
    rw [← extend_extend, ← extend_extend, findSome?_extend hcs]
    simp only [extend, List.findSome?_append]
    rw [List.findSome?_eq_none_iff.mpr fun c hc => hcs c (List.mem_reverse.mp hc), Option.none_or]
  rcases h with h | h
  · exact hadd ds h es
  · exact (hadd es h ds).symm

/-- The order of independent statements is not seen after them. -/
theorem agreeExcept_swap (h : s.Independent t)
    (hst : Γ.Admits (s.declarations ++ t.declarations))
    (hts : Γ.Admits (t.declarations ++ s.declarations)) :
    AgreeExcept (fun _ => False) (fun _ => False) (Γ.extend (s.declarations ++ t.declarations))
      (Γ.extend (t.declarations ++ s.declarations)) := by
  have hv : ∀ x, (∀ d ∈ s.declarations, d.variableOf x = none) ∨
      ∀ d ∈ t.declarations, d.variableOf x = none := by
    intro x
    by_cases hx : x ∈ s.declaredVariables
    · exact .inr (Stmt.variableOf_of_not_declared fun hx' =>
        h.1.1 x hx (Stmt.declaredVariables_subset hx'))
    · exact .inl (Stmt.variableOf_of_not_declared hx)
  have hr : ∀ x, (∀ d ∈ s.declarations, d.recordOf x = none) ∨
      ∀ d ∈ t.declarations, d.recordOf x = none := by
    intro x
    by_cases hx : x ∈ s.declaredRecords
    · refine .inr (Stmt.recordOf_of_not_declared fun hx' => h.1.2 x hx ?_)
      obtain ⟨_, hm⟩ := Stmt.exists_of_declaredRecords hx'
      exact Stmt.record_mem_declarations hm
    · exact .inl (Stmt.recordOf_of_not_declared hx)
  refine ⟨⟨fun x _ => findSome?_swap (hv x), fun x _ => findSome?_swap (hr x), ?_⟩, fun x _ => ?_⟩
  · refine .none (fun _ => id) ?_
    simp only [recordCount, extend, List.countP_append, List.reverse_append]
    omega
  · rw [hst.current, hts.current]
    exact findSome?_swap (Γ := ⟨Γ.current⟩) (hv x)

end Context

/-! ### Blocks -/

/-- Independent statements in a block may be exchanged. -/
theorem BlockTyped.swap {R : SlotRule} {Γ : Context} {A B : List Stmt} {s t : Stmt} {ts : List Ty}
    (h : BlockTyped R Γ (A ++ s :: t :: B) ts) (hΓ : Γ.WellFormed) (hst : s.Independent t)
    (hs : ∀ x ∈ s.declaredRecords, Ty.isBuiltin x = false)
    (ht : ∀ x ∈ t.declaredRecords, Ty.isBuiltin x = false) :
    ∃ us, BlockTyped R Γ (A ++ t :: s :: B) us := by
  induction A generalizing Γ ts with
  | nil =>
    obtain _ | ⟨h₁, h⟩ := h
    obtain _ | ⟨h₂, h⟩ := h
    -- the second statement does not need the first, and the first is not changed by the second
    have h₂' := h₂.congr_absent (Context.agreeExcept_extend hΓ h₁.admits hs).symm
      (fun x hx hm => hst.1.1 x hm hx) fun x hx hm => hst.1.2 x hm hx
    have h₁' := h₁.congr_absent (Context.agreeExcept_extend hΓ h₂'.admits ht)
      (fun x hx hm => hst.2.1 x hm hx) fun x hx hm => hst.2.2 x hm hx
    have hswap := Context.agreeExcept_swap hst
      (Context.admits_append.mpr ⟨h₁.admits, h₂.admits⟩)
      (Context.admits_append.mpr ⟨h₂'.admits, h₁'.admits⟩)
    rw [Context.extend_extend] at h
    have h' := h.congr_absent hswap (fun _ _ => id) fun _ _ => id
    rw [← Context.extend_extend] at h'
    exact ⟨_, .cons h₂' (.cons h₁' h')⟩
  | cons a A ih =>
    obtain _ | ⟨ha, h⟩ := h
    obtain ⟨us, h'⟩ := ih h (hΓ.extend ha.admits)
    exact ⟨_, .cons ha h'⟩

/-! ### Programs -/

theorem declaredAll_flatMap_parts (ss : List Stmt) :
    StmtPart.declaredAll (ss.flatMap Stmt.parts) = ss.flatMap Stmt.declarations := by
  rw [StmtPart.declaredAll, List.flatMap_assoc]
  exact List.flatMap_congr fun s _ => s.declaredAll_parts

/-- What is declared at the end of a program that passes. -/
theorem Program.context_of_ok {p : Program} (h : (p.check .new).result = .ok ()) :
    Context.empty.Admits (p.body.flatMap Stmt.declarations) ∧
      (p.check .new).state.context = Context.empty.extend (p.body.flatMap Stmt.declarations) := by
  rw [p.check_result] at h
  rw [p.check_context, ← declaredAll_flatMap_parts]
  exact (checkAll_declares p.body .new).ok h

section Programs

variable {A B ns : List Stmt} {s t : Stmt} {span : Span}

theorem bareAll_eq_self {ss : List Stmt} : bareAll ss = ss ↔ ∀ s ∈ ss, s.bare = s := by
  rw [bareAll_eq_map]
  nth_rewrite 2 [← List.map_id ss]
  exact List.map_inj_left

theorem exists_of_bareAll (h : bareAll ns = A ++ s :: t :: B) :
    ∃ A' s' t' B', bareAll A' = A ∧ s'.bare = s ∧ t'.bare = t ∧ bareAll B' = B ∧
      ns = A' ++ s' :: t' :: B' := by
  simp only [bareAll_eq_map] at h ⊢
  obtain ⟨A', rest, rfl, hA, hrest⟩ := List.map_eq_append_iff.mp h
  obtain ⟨s', rest, rfl, hs, hrest⟩ := List.map_eq_cons_iff.mp hrest
  obtain ⟨t', B', rfl, ht, hB⟩ := List.map_eq_cons_iff.mp hrest
  exact ⟨A', s', t', B', hA, hs, ht, hB, rfl⟩

/-- Written blocks that differ in the order of independent statements, and in their slots at most,
have the same slots. -/
theorem BlockTyped.swap_written {Γ : Context} {ms : List Stmt} {ts us : List Ty}
    (hn : BlockTyped .written Γ ns ts) (hm : BlockTyped .written Γ ms us) (hΓ : Γ.WellFormed)
    (hbn : bareAll ns = A ++ s :: t :: B) (hbm : bareAll ms = A ++ t :: s :: B)
    (hst : s.Independent t) (hs : ∀ x ∈ s.declaredRecords, Ty.isBuiltin x = false)
    (ht : ∀ x ∈ t.declaredRecords, Ty.isBuiltin x = false) :
    ∃ A' s' t' B', bareAll A' = A ∧ s'.bare = s ∧ t'.bare = t ∧ bareAll B' = B ∧
      ns = A' ++ s' :: t' :: B' ∧ ms = A' ++ t' :: s' :: B' := by
  obtain ⟨A', s', t', B', rfl, rfl, rfl, rfl, rfl⟩ := exists_of_bareAll hbn
  rw [Stmt.declaredRecords_bare] at hs ht
  obtain ⟨_, hn'⟩ := hn.swap hΓ (Stmt.independent_bare.mp hst) hs ht
  refine ⟨A', s', t', B', rfl, rfl, rfl, rfl, rfl, hm.eq_of_bare hn' ?_⟩
  rw [hbm]
  simp [bareAll_eq_map]

/-- The same is visible at the end of two programs that differ in the order of independent
statements. -/
theorem Program.context_swap (hst : s.Independent t)
    (hp : (Program.check ⟨A ++ s :: t :: B, span⟩ .new).result = .ok ())
    (hq : (Program.check ⟨A ++ t :: s :: B, span⟩ .new).result = .ok ()) :
    Context.AgreeExcept (fun _ => False) (fun _ => False)
      (Program.check ⟨A ++ s :: t :: B, span⟩ .new).state.context
      (Program.check ⟨A ++ t :: s :: B, span⟩ .new).state.context := by
  have around : ∀ s t : Stmt, (A ++ s :: t :: B).flatMap Stmt.declarations =
      A.flatMap Stmt.declarations ++
        ((s.declarations ++ t.declarations) ++ B.flatMap Stmt.declarations) := by
    intro s t
    simp
  obtain ⟨hap, hcp⟩ := Program.context_of_ok hp
  obtain ⟨haq, hcq⟩ := Program.context_of_ok hq
  rw [around, ← Context.extend_extend, ← Context.extend_extend] at hcp hcq
  rw [around, Context.admits_append, Context.admits_append] at hap haq
  obtain ⟨-, hstA, hB⟩ := hap
  obtain ⟨-, htsA, hB'⟩ := haq
  rw [hcp, hcq]
  exact (Context.agreeExcept_swap hst hstA htsA).extend hB hB' fun _ _ _ => id

/-- Independent statements commute. In a program without written slots, neither of two neighbours
may name what the other declares in its own scope, and none of the records that they declare may
have a built-in name. Then the program is accepted in both orders or in none; and if it is, the same
types are written on its expressions, and the same variables and records are visible at its end. -/
theorem Program.check_swap (span : Span) (fresh : bareAll (A ++ s :: t :: B) = A ++ s :: t :: B)
    (independent : s.Independent t)
    (hs : ∀ x ∈ s.declaredRecords, Ty.isBuiltin x = false)
    (ht : ∀ x ∈ t.declaredRecords, Ty.isBuiltin x = false) :
    let v := Program.check ⟨A ++ s :: t :: B, span⟩ .new
    let w := Program.check ⟨A ++ t :: s :: B, span⟩ .new
    (v.result = .ok () ↔ w.result = .ok ()) ∧
    (v.result = .ok () →
      (∃ A' s' t' B', bareAll A' = A ∧ s'.bare = s ∧ t'.bare = t ∧ bareAll B' = B ∧
        v.nodes.body = A' ++ s' :: t' :: B' ∧ w.nodes.body = A' ++ t' :: s' :: B') ∧
      (∀ x, v.state.context.findVariable x = w.state.context.findVariable x) ∧
      ∀ x, v.state.context.findRecord x = w.state.context.findRecord x) := by
  intro v w
  have fresh' : bareAll (A ++ t :: s :: B) = A ++ t :: s :: B := by
    rw [bareAll_eq_self] at fresh ⊢
    intro u hu
    refine fresh u ?_
    simp only [List.mem_append, List.mem_cons] at hu ⊢
    tauto
  have hv : v.result = (checkAll (A ++ s :: t :: B) .new).result := Program.check_result _ _
  have hw : w.result = (checkAll (A ++ t :: s :: B) .new).result := Program.check_result _ _
  have hiff : v.result = .ok () ↔ w.result = .ok () := by
    rw [hv, hw, checkAll_eq_ok_iff fresh, checkAll_eq_ok_iff fresh']
    refine ⟨?_, ?_⟩
    · rintro ⟨ts, h⟩
      exact h.swap .empty independent hs ht
    · rintro ⟨ts, h⟩
      exact h.swap .empty independent.symm ht hs
  refine ⟨hiff, fun hok => ⟨?_, ?_⟩⟩
  · obtain ⟨_, -, hwritten⟩ := checkAll_sound _ _ (hv ▸ hok)
    obtain ⟨_, -, hwritten'⟩ := checkAll_sound _ _ (hw ▸ hiff.mp hok)
    rw [Program.check_nodes, Program.check_nodes]
    exact hwritten.swap_written hwritten' .empty ((checkAll_bare _ _).trans fresh)
      ((checkAll_bare _ _).trans fresh') independent hs ht
  · have hsame := Program.context_swap independent hok (hiff.mp hok)
    exact ⟨fun x => hsame.visible x id, fun x => hsame.records x id⟩

end Programs

/-- `struct name { field: type }`. -/
def Stmt.oneField (name field type : String) : Stmt :=
  .struct ⟨name, default⟩ [⟨⟨field, default⟩, .named type false default, default⟩] default

/-- `let name: type`. -/
def Stmt.unset (name type : String) : Stmt :=
  .let_ ⟨name, default⟩ (.named type false default) none default

/-- `name.field`. -/
def Stmt.fieldOf (name field : String) : Stmt :=
  .expr (.new (.get (.new (.variable name) default) ⟨field, default⟩) default) default

/-- A record and a variable of another record are exchanged between the declaration of that record
and a use of both. -/
theorem Program.oneField_swapped :
    let A := [Stmt.oneField "P" "n" "int"]
    let s := Stmt.oneField "Q" "p" "P"
    let t := Stmt.unset "x" "P"
    let B := [Stmt.unset "q" "Q", .fieldOf "x" "n"]
    let v := Program.check ⟨A ++ s :: t :: B, default⟩ .new
    let w := Program.check ⟨A ++ t :: s :: B, default⟩ .new
    s.Independent t ∧ v.result = .ok () ∧ w.result = .ok () ∧
      (∃ A' s' t' B', v.nodes.body = A' ++ s' :: t' :: B' ∧ w.nodes.body = A' ++ t' :: s' :: B') ∧
      ∀ x, v.state.context.findRecord x = w.state.context.findRecord x := by
  have hind : (Stmt.oneField "Q" "p" "P").Independent (.unset "x" "P") := by decide
  obtain ⟨hiff, hsame⟩ := Program.check_swap (A := [.oneField "P" "n" "int"])
    (B := [.unset "q" "Q", .fieldOf "x" "n"]) default rfl hind (by decide) (by decide)
  obtain ⟨⟨A', s', t', B', -, -, -, -, hv, hw⟩, -, hrecords⟩ := hsame rfl
  exact ⟨hind, rfl, hiff.mp rfl, ⟨A', s', t', B', hv, hw⟩, hrecords⟩

/-- The order matters if a record has a built-in name. The record that is declared as `int` and the
number whose field is read do not name each other, but the field is found in one order only. -/
theorem Program.overlaidInt_order_matters :
    ∃ s t, Program.overlaidInt = ⟨[s, t], default⟩ ∧ bareAll [s, t] = [s, t] ∧ s.Independent t ∧
      (Program.check ⟨[s, t], default⟩ .new).result = .ok () ∧
      ∃ f, (Program.check ⟨[t, s], default⟩ .new).result = .error (.fault f) ∧
        f.code = .notRecord :=
  ⟨_, _, rfl, rfl, by decide, rfl, _, rfl, rfl⟩

end RecordLang
