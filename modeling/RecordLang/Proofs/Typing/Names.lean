import RecordLang.Proofs.Typing.Bare

/-!
# Names in a tree

The names of variables in a tree (`Stmt.names`) and those of types (`Stmt.typeNames`), used or
declared, at any depth; and the names that a statement declares in its own scope, which are among
them.
-/

namespace RecordLang

mutual

/-- The names of variables in an expression, used or declared. -/
def Expr.names : Expr → List String
  | .mk form _ _ => form.names

def Form.names : Form → List String
  | .literal _ => []
  | .variable x => [x]
  | .group e => e.names
  | .unary _ e => e.names
  | .binary l _ r => l.names ++ r.names
  | .logical l _ r => l.names ++ r.names
  | .function params _ body => (params.map fun p => p.name.name) ++ body.names
  | .call f args => f.names ++ argNames args
  | .get e _ => e.names
  | .record _ fields => fieldNames fields

def argNames : List Expr → List String
  | [] => []
  | e :: es => e.names ++ argNames es

def fieldNames : List (Ident × Expr) → List String
  | [] => []
  | (_, e) :: fs => e.names ++ fieldNames fs

/-- The names of variables in a statement, used or declared. -/
def Stmt.names : Stmt → List String
  | .expr e _ => e.names
  | .let_ x _ none _ => [x.name]
  | .let_ x _ (some e) _ => x.name :: e.names
  | .block body _ => bodyNames body
  | .if_ e s none _ => e.names ++ s.names
  | .if_ e s (some t) _ => e.names ++ (s.names ++ t.names)
  | .while_ e s _ => e.names ++ s.names
  | .struct .. => []
  | .return_ none _ => []
  | .return_ (some e) _ => e.names

def bodyNames : List Stmt → List String
  | [] => []
  | s :: ss => s.names ++ bodyNames ss

end

mutual

/-- The names in the types that are written in an expression, and those of the records declared in
it. -/
def Expr.typeNames : Expr → List String
  | .mk form _ _ => form.typeNames

def Form.typeNames : Form → List String
  | .literal _ => []
  | .variable _ => []
  | .group e => e.typeNames
  | .unary _ e => e.typeNames
  | .binary l _ r => l.typeNames ++ r.typeNames
  | .logical l _ r => l.typeNames ++ r.typeNames
  | .function params result body =>
    (params.flatMap fun p => p.type.ty.names) ++ (result.ty.names ++ body.typeNames)
  | .call f args => f.typeNames ++ argTypeNames args
  | .get e _ => e.typeNames
  | .record _ fields => fieldTypeNames fields

def argTypeNames : List Expr → List String
  | [] => []
  | e :: es => e.typeNames ++ argTypeNames es

def fieldTypeNames : List (Ident × Expr) → List String
  | [] => []
  | (_, e) :: fs => e.typeNames ++ fieldTypeNames fs

/-- The names in the types that are written in a statement, and those of the records declared in
it. -/
def Stmt.typeNames : Stmt → List String
  | .expr e _ => e.typeNames
  | .let_ _ type none _ => type.ty.names
  | .let_ _ type (some e) _ => type.ty.names ++ e.typeNames
  | .block body _ => bodyTypeNames body
  | .if_ e s none _ => e.typeNames ++ s.typeNames
  | .if_ e s (some t) _ => e.typeNames ++ (s.typeNames ++ t.typeNames)
  | .while_ e s _ => e.typeNames ++ s.typeNames
  | .struct x fields _ => x.name :: fields.flatMap fun f => f.type.ty.names
  | .return_ none _ => []
  | .return_ (some e) _ => e.typeNames

def bodyTypeNames : List Stmt → List String
  | [] => []
  | s :: ss => s.typeNames ++ bodyTypeNames ss

end

/-! ### Declared names -/

/-- A statement declares only names that stand in it. -/
theorem Stmt.variable_mem_declarations : ∀ {s : Stmt} {x : String} {t : Ty},
    .variable x t ∈ s.declarations → x ∈ s.names
  | .expr .., _, _, h | .block .., _, _, h | .return_ .., _, _, h => by cases h
  | .let_ _ _ none _, _, _, h => by
    cases List.mem_singleton.mp h
    exact List.mem_singleton.mpr rfl
  | .let_ _ _ (some _) _, _, _, h => by
    cases List.mem_singleton.mp h
    exact List.mem_cons_self
  | .struct .., _, _, h => by cases List.mem_singleton.mp h
  | .if_ _ s none _, _, _, h =>
    List.mem_append_right _ (Stmt.variable_mem_declarations (s := s) h)
  | .if_ _ s (some t) _, _, _, h => by
    rw [Stmt.names, List.mem_append, List.mem_append]
    rcases List.mem_append.mp h with h | h
    · exact .inr (.inl (Stmt.variable_mem_declarations h))
    · exact .inr (.inr (Stmt.variable_mem_declarations h))
  | .while_ _ s _, _, _, h => List.mem_append_right _ (Stmt.variable_mem_declarations (s := s) h)

/-- The records that a statement declares are among the types that it names. -/
theorem Stmt.record_mem_declarations : ∀ {s : Stmt} {x : String} {schema : Ty},
    .record x schema ∈ s.declarations → x ∈ s.typeNames
  | .expr .., _, _, h | .block .., _, _, h | .return_ .., _, _, h => by cases h
  | .let_ .., _, _, h => by cases List.mem_singleton.mp h
  | .struct .., _, _, h => by
    cases List.mem_singleton.mp h
    exact List.mem_cons_self
  | .if_ _ s none _, _, _, h =>
    List.mem_append_right _ (Stmt.record_mem_declarations (s := s) h)
  | .if_ _ s (some t) _, _, _, h => by
    rw [Stmt.typeNames, List.mem_append, List.mem_append]
    rcases List.mem_append.mp h with h | h
    · exact .inr (.inl (Stmt.record_mem_declarations h))
    · exact .inr (.inr (Stmt.record_mem_declarations h))
  | .while_ _ s _, _, _, h => List.mem_append_right _ (Stmt.record_mem_declarations (s := s) h)

/-! ### Names do not depend on the slots -/

mutual

theorem Expr.names_bare : ∀ e : Expr,
    e.bare.names = e.names ∧ e.bare.typeNames = e.typeNames
  | .mk form _ _ => form.names_bare

theorem Form.names_bare : ∀ form : Form,
    form.bare.names = form.names ∧ form.bare.typeNames = form.typeNames
  | .literal _ => ⟨rfl, rfl⟩
  | .variable _ => ⟨rfl, rfl⟩
  | .group e => e.names_bare
  | .unary _ e => e.names_bare
  | .binary l _ r => by
    simp only [Form.bare, Form.names, Form.typeNames, l.names_bare, r.names_bare, and_self]
  | .logical l _ r => by
    simp only [Form.bare, Form.names, Form.typeNames, l.names_bare, r.names_bare, and_self]
  | .function params result body => by
    simp only [Form.bare, Form.names, Form.typeNames, body.names_bare, and_self]
  | .call f args => by
    simp only [Form.bare, Form.names, Form.typeNames, f.names_bare, argNames_bare args, and_self]
  | .get e _ => e.names_bare
  | .record _ fields => fieldNames_bare fields

theorem argNames_bare : ∀ args : List Expr,
    argNames (bareArgs args) = argNames args ∧ argTypeNames (bareArgs args) = argTypeNames args
  | [] => ⟨rfl, rfl⟩
  | e :: es => by
    simp only [bareArgs, argNames, argTypeNames, e.names_bare, argNames_bare es, and_self]

theorem fieldNames_bare : ∀ fields : List (Ident × Expr),
    fieldNames (bareFields fields) = fieldNames fields ∧
      fieldTypeNames (bareFields fields) = fieldTypeNames fields
  | [] => ⟨rfl, rfl⟩
  | (_, e) :: fs => by
    simp only [bareFields, fieldNames, fieldTypeNames, e.names_bare, fieldNames_bare fs, and_self]

theorem Stmt.names_bare : ∀ s : Stmt, s.bare.names = s.names ∧ s.bare.typeNames = s.typeNames
  | .expr e _ => e.names_bare
  | .let_ _ _ none _ => ⟨rfl, rfl⟩
  | .let_ _ _ (some e) _ => by
    simp only [Stmt.bare, Stmt.names, Stmt.typeNames, e.names_bare, and_self]
  | .block body _ => bodyNames_bare body
  | .if_ e s none _ => by
    simp only [Stmt.bare, Stmt.names, Stmt.typeNames, e.names_bare, s.names_bare, and_self]
  | .if_ e s (some t) _ => by
    simp only [Stmt.bare, Stmt.names, Stmt.typeNames, e.names_bare, s.names_bare, t.names_bare,
      and_self]
  | .while_ e s _ => by
    simp only [Stmt.bare, Stmt.names, Stmt.typeNames, e.names_bare, s.names_bare, and_self]
  | .struct .. => ⟨rfl, rfl⟩
  | .return_ none _ => ⟨rfl, rfl⟩
  | .return_ (some e) _ => e.names_bare

theorem bodyNames_bare : ∀ ss : List Stmt,
    bodyNames (bareAll ss) = bodyNames ss ∧ bodyTypeNames (bareAll ss) = bodyTypeNames ss
  | [] => ⟨rfl, rfl⟩
  | s :: ss => by
    simp only [bareAll, bodyNames, bodyTypeNames, s.names_bare, bodyNames_bare ss, and_self]

end

end RecordLang
