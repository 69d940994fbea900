import RecordLang.Proofs.Typing.Meaning

/-!
# Member access and the meaning of types

Member access looks up the fields of a name by itself (`Context.fieldsOf`), while types are compared
by what they resolve to (`Context.resolve`). The two agree on which record a name stands for, with
one exception: a record may be declared under a built-in name. Resolution then still leaves the name
alone, but member access finds the record (`Checker.Reachable.member_iff_resolve`).
-/

namespace RecordLang

namespace Context

variable {Γ : Context} {t schema : Ty} {name : String} {fields : List (String × Ty)}

/-! ### The fields behind a type -/

/-- The name is built in, and yet that of a visible record with these fields. -/
def Overlays (Γ : Context) (name : String) (fields : List (String × Ty)) : Prop :=
  Ty.isBuiltin name = true ∧ Γ.findRecord name = some (.record fields)

/-- Visible schemas are records. -/
theorem WellFormed.schema_eq_record (h : Γ.WellFormed) (hx : Γ.findRecord name = some schema) :
    ∃ fields, schema = .record fields := by
  obtain ⟨d, hd, hdx⟩ := List.exists_of_findSome?_eq_some hx
  obtain ⟨inner, outer, he⟩ := List.append_of_mem hd
  obtain ⟨-, ha⟩ := h.allows he
  rcases d with _ | _ | ⟨y, s⟩
  · cases hdx
  · cases hdx
  · obtain ⟨rfl, rfl⟩ : name = y ∧ s = schema := by simpa [Entry.recordOf] using hdx
    exact (ha.resolve_left (by simp)).1

/-- The fields that member access finds are those of the resolved type, before resolution. -/
theorem WellFormed.resolve_of_hasFields (h : Γ.WellFormed) (hf : Γ.HasFields t fields) :
    Γ.resolve t = .record (fields.map fun f => (f.1, Γ.resolve f.2)) ∨
      ∃ name, t = .named name false ∧ Γ.Overlays name fields := by
  rcases hf with rfl | ⟨name, rfl, hx⟩
  · exact .inl (Γ.resolve_record fields)
  · cases hb : Ty.isBuiltin name with
    | true => exact .inr ⟨name, rfl, hb, hx⟩
    | false => exact .inl ((h.resolve_reference hb hx).trans (Γ.resolve_record fields))

/-- Member access finds the fields of every type that resolves to a record. -/
theorem WellFormed.exists_hasFields (h : Γ.WellFormed) (hr : Γ.resolve t = .record fields) :
    ∃ fields', Γ.HasFields t fields' := by
  rcases t with ⟨name, optional⟩ | ⟨params, result⟩ | fs
  · cases optional with
    | true => rw [resolve_optional] at hr; cases hr
    | false =>
      -- a name that stays as it is does not resolve to a record
      cases hx : Γ.findRecord name with
      | none => rw [resolve_unknown hx] at hr; cases hr
      | some schema =>
        obtain ⟨fs, rfl⟩ := h.schema_eq_record hx
        exact ⟨fs, .inr ⟨name, rfl, hx⟩⟩
  · rw [resolve_function] at hr; cases hr
  · exact ⟨fs, .inl rfl⟩

/-- Member access on a built-in name is refused as one on no record exactly if the name is optional
or no record has it. -/
theorem WellFormed.member_of_builtin (h : Γ.WellFormed) (optional : Bool) (x : Ident) :
    (∃ f, Γ.typeOfMember (.named name optional) x = .error f ∧ f.code = .notRecord) ↔
      optional = true ∨ Γ.findRecord name = none := by
  cases hx : Γ.findRecord name with
  | none =>
    refine iff_of_true ⟨⟨.notRecord (.named name optional), x.span⟩, ?_, rfl⟩ (.inr rfl)
    simp [typeOfMember, fieldsOf, hx, bind, Except.bind]
  | some schema =>
    obtain ⟨fields, rfl⟩ := h.schema_eq_record hx
    cases optional with
    | true =>
      refine iff_of_true ⟨⟨.memberOfOptional x.name (.named name true), x.span⟩, ?_, rfl⟩ (.inl rfl)
      simp [typeOfMember, fieldsOf, hx, bind, Except.bind]
    | false =>
      refine iff_of_false ?_ (by simp)
      rintro ⟨f, hf, hcode⟩
      cases hl : fields.lookup x.name with
      | none =>
        have hu : f = ⟨.unknownField x.name (.named name false), x.span⟩ := by
          simpa [typeOfMember, fieldsOf, hx, hl, bind, Except.bind, eq_comm] using hf
        rw [hu] at hcode
        exact absurd hcode (by decide : Code.unknownField ≠ .notRecord)
      | some u => simp [typeOfMember, fieldsOf, hx, hl, bind, Except.bind, pure, Except.pure] at hf

end Context

/-! ### Member access as it is checked -/

theorem Expr.check_get {c : Checker} {e : Expr} {t : Ty} (he : (e.check c).result = .ok t)
    (x : Ident) (span : Span) : ((Expr.new (.get e x) span).check c).result =
      (c.context.typeOfMember t x).mapError Halt.fault := by
  have hf : (Form.check span (.get e x) c).result =
      (c.context.typeOfMember t x).mapError Halt.fault := by
    rw [Form.check, Visit.judgeIn, Visit.judge, Visit.map_result, he, Visit.map_state,
      e.check_context]
  rw [Expr.new, Expr.check]
  cases hm : c.context.typeOfMember t x with
  | error f =>
    rw [hm] at hf
    simp only [Visit.record, hf, Except.mapError]
  | ok u =>
    rw [hm] at hf
    exact Visit.record_eq_ok.mpr ⟨hf, rfl⟩

/-- Wherever a checker can come to: member access on an expression is accepted exactly if the type
of the expression resolves to a record with the field, or if it is a built-in name under which a
record with the field is declared. The type that is found resolves to that of the field. On a
built-in type, member access is refused as one on no record exactly if the type is optional or no
record is declared under its name. -/
theorem Checker.Reachable.member_iff_resolve {c : Checker} (h : c.Reachable) {e : Expr} {t : Ty}
    (he : (e.check c).result = .ok t) (x : Ident) (span : Span) :
    ((∃ u, ((Expr.new (.get e x) span).check c).result = .ok u) ↔
      (∃ fields v, c.context.resolve t = .record fields ∧ fields.lookup x.name = some v) ∨
      ∃ name fields v, t = .named name false ∧ c.context.Overlays name fields ∧
        fields.lookup x.name = some v) ∧
    (∀ u fields, ((Expr.new (.get e x) span).check c).result = .ok u →
      c.context.resolve t = .record fields →
        fields.lookup x.name = some (c.context.resolve u)) ∧
    ∀ name optional, t = .named name optional → Ty.isBuiltin name = true →
      ((∃ f, ((Expr.new (.get e x) span).check c).result = .error (.fault f) ∧
          f.code = .notRecord) ↔
        optional = true ∨ c.context.findRecord name = none) := by
  have hΓ := h.wellFormed
  rw [Expr.check_get he]
  simp only [Visit.mapError_eq_ok, Context.typeOfMember_eq_ok]
  refine ⟨⟨?_, ?_⟩, ?_, ?_⟩
  · rintro ⟨u, fields, hf, hx⟩
    rcases hΓ.resolve_of_hasFields hf with hr | ⟨name, rfl, ho⟩
    · exact .inl ⟨_, _, hr, by rw [Ty.lookup_map_snd, hx]; rfl⟩
    · exact .inr ⟨name, fields, u, rfl, ho, hx⟩
  · rintro (⟨fields, v, hr, hx⟩ | ⟨name, fields, v, rfl, ho, hx⟩)
    · obtain ⟨fields', hf⟩ := hΓ.exists_hasFields hr
      rcases hΓ.resolve_of_hasFields hf with hr' | ⟨name, rfl, ho⟩
      · -- the resolved fields have the names of those that are found
        rw [hr] at hr'
        cases hr'
        rw [Ty.lookup_map_snd] at hx
        obtain ⟨u, hu, -⟩ := Option.map_eq_some_iff.mp hx
        exact ⟨u, fields', hf, hu⟩
      · rw [Context.resolve_builtin _ ho.1] at hr; cases hr
    · exact ⟨v, fields, .inr ⟨name, rfl, ho.2⟩, hx⟩
  · rintro u fields ⟨fields', hf, hx⟩ hr
    rcases hΓ.resolve_of_hasFields hf with hr' | ⟨name, rfl, ho⟩
    · rw [hr] at hr'
      cases hr'
      rw [Ty.lookup_map_snd, hx]; rfl
    · rw [Context.resolve_builtin _ ho.1] at hr; cases hr
  · rintro name optional rfl hb
    rw [← hΓ.member_of_builtin optional x]
    cases c.context.typeOfMember (.named name optional) x with
    | error f => simp [Except.mapError]
    | ok u => simp [Except.mapError]

/-- A record under a built-in name, and its field read off a number:
`struct int { x: bool } let a: bool = (1).x`. -/
def Program.overlaidInt : Program :=
  let at_ : Span := default
  let name (x : String) : Ident := ⟨x, at_⟩
  let one : Expr := .new (.group (.new (.literal (.int 1)) at_)) at_
  ⟨[.struct (name "int") [⟨name "x", .named "bool" false at_, at_⟩] at_,
    .let_ (name "a") (.named "bool" false at_) (some (.new (.get one (name "x")) at_)) at_], at_⟩

/-- Member access on a value of a built-in type is not always refused: the field of a record that is
declared as `int` is found on a number, although `int` resolves to itself. -/
theorem Program.overlaidInt_accepted :
    let c : Checker := ((Stmt.struct ⟨"int", default⟩
      [⟨⟨"x", default⟩, .named "bool" false default, default⟩] default).check .new).state
    let one : Expr := .new (.literal (.int 1)) default
    (Program.overlaidInt.check .new).result = .ok () ∧ c.Reachable ∧
      (one.check c).result = .ok .int ∧ c.context.resolve .int = .int ∧
      ((Expr.new (.get one ⟨"x", default⟩) default).check c).result = .ok .bool :=
  ⟨rfl, .stmt .new _, rfl, rfl, rfl⟩

/-- With a record of another name the member of a number is refused, and that of a value of the
record has the type of the field. -/
theorem Program.nestedRecords_members :
    let c := (Program.nestedRecords.check .new).state
    let q : Expr := .new (.variable "q") default
    c.Reachable ∧ (q.check c).result = .ok (.named "Q" false) ∧
      c.context.resolve (.named "Q" false) = .record [("p", .record [("n", .int)])] ∧
      (∃ u, ((Expr.new (.get q ⟨"p", default⟩) default).check c).result = .ok u ∧
        c.context.resolve u = .record [("n", .int)]) ∧
      ∃ f, ((Expr.new (.get (.new (.literal (.int 1)) default) ⟨"p", default⟩) default).check
        c).result = .error (.fault f) ∧ f.code = .notRecord := by
  have h : Checker.Reachable (Program.nestedRecords.check .new).state := .program .new _
  have hq := h.member_iff_resolve (e := .new (.variable "q") default) (t := .named "Q" false) rfl
    ⟨"p", default⟩ default
  have hone := h.member_iff_resolve (e := .new (.literal (.int 1)) default) (t := .int) rfl
    ⟨"p", default⟩ default
  refine ⟨h, rfl, rfl, ?_, (hone.2.2 "int" false rfl rfl).mpr (.inr rfl)⟩
  obtain ⟨u, hu⟩ := hq.1.mpr (.inl ⟨_, _, rfl, rfl⟩)
  exact ⟨u, hu, Option.some.inj (hq.2.1 u _ hu rfl).symm⟩

end RecordLang
