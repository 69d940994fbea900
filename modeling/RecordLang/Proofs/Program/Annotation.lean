import RecordLang.Proofs.Program.Canonical
import RecordLang.Proofs.Token.Adjacent
import RecordLang.Proofs.Ty.Rendered
import RecordLang.Proofs.Typing.Placeless

/-!
# Types as they are shown, written in a program

A type without records is shown as a program writes it. So the text of a declaration with such a
type behind its colon is read without a fault, and the type that is read is the one that was shown.
Its characters make tokens of the kinds of a written type (`Ty.Writable.lexes`), and these are read
back (`Ty.Writable.reads`).
-/

namespace RecordLang

namespace Ty

/-- A type that a program may write: there are no records in it, and its names are words that are
not reserved, or that of the type of `null`. -/
inductive Writable : Ty → Prop
  | named {name : String} (optional : Bool) (word : isWord name = true)
      (free : Keyword.ofText? name = none ∨ name = "null") : Writable (.named name optional)
  | function {params : List Ty} {result : Ty} (inParams : ∀ t ∈ params, Writable t)
      (inResult : Writable result) : Writable (.function params result)

mutual

/-- The type as a program writes it. A record cannot be written. -/
def written : Ty → TypeExpr
  | named name optional => .named name optional default
  | function params result => .function (writtenAll params) result.written default
  | record _ => default

def writtenAll : List Ty → List TypeExpr
  | [] => []
  | t :: ts => t.written :: writtenAll ts

end

theorem writtenAll_eq_map (ts : List Ty) : writtenAll ts = ts.map written := by
  induction ts with
  | nil => rfl
  | cons t ts ih => exact congrArg (t.written :: ·) ih

theorem kinds_written_function (params : List Ty) (result : Ty) :
    (function params result).written.kinds =
      .symbol .openParen :: (commas (params.map fun t => t.written.kinds) ++
        .symbol .closeParen :: .symbol .arrow :: result.written.kinds) := by
  rw [written, TypeExpr.kinds, kindsTypes_eq, writtenAll_eq_map, List.map_map]
  rfl

namespace Writable

variable {t : Ty}

theorem ty_written (h : t.Writable) : t.written.ty = t := by
  induction h with
  | named => rfl
  | @function params result _ _ ihp ihr =>
    rw [written, TypeExpr.ty, ihr, TypeExpr.tys_eq_map, writtenAll_eq_map, List.map_map]
    have hparams : params.map (TypeExpr.ty ∘ written) = params := by
      exact (List.map_congr_left ihp).trans (List.map_id' params)
    rw [hparams]

end Writable

end Ty

/-! ### Tokens -/

namespace Lexer

variable {rest : List UInt8}

/-- Items with commas between them, up to where the last one ends. -/
theorem lexes_listed {α : Type} {text : α → List Char} {kinds : α → List Kind} {as : List α}
    (h : ∀ a ∈ as, ∀ rest, EndsWord rest → Lexes (text a) (kinds a) rest) (hrest : EndsWord rest) :
    Lexes (Text.listed (as.map text)) (commas (as.map kinds)) rest := by
  induction as with
  | nil => exact lexes_nil rest
  | cons a as ih =>
    obtain ⟨ha, has⟩ := List.forall_mem_cons.mp h
    cases as with
    | nil =>
      rw [List.map_singleton, List.map_singleton, Text.listed_singleton, commas,
        List.intercalate_singleton]
      exact ha rest hrest
    | cons a' as =>
      have hmore := (lexes_mark .comma (by decide) _).append ((lexes_blank _).append (ih has))
      have hall := (ha _ (endsWord_encode (by decide) rfl _ rest)).append hmore
      rw [List.map_cons, List.map_cons, Text.listed_cons, List.map_cons, List.map_cons, commas,
        List.intercalate_cons_cons, List.append_assoc]
      exact hall

end Lexer

namespace Ty.Writable

variable {t : Ty} {rest : List UInt8}

theorem lexes_named {name : String} {optional : Bool} (word : isWord name = true)
    (free : Keyword.ofText? name = none ∨ name = "null") (hrest : Lexer.EndsWord rest) :
    Lexer.Lexes (Ty.named name optional).render.toList (Ty.named name optional).written.kinds
      rest := by
  have hkind : Kind.ofWord name = if name = "null" then .keyword .null else .ident name := by
    rcases free with hfree | rfl
    · have hne : name ≠ "null" := by
        rintro rfl
        cases hfree
      rw [Kind.ofWord, hfree, if_neg hne]
    · rfl
  rw [toList_render_named, written, TypeExpr.kinds, ← hkind]
  cases optional with
  | true =>
    have hmark := Lexer.lexes_mark .question (by decide) rest
    exact (Lexer.lexes_word word (Lexer.endsWord_encode (by decide) rfl [] rest)).append hmark
  | false => exact (Lexer.lexes_word word hrest).append (Lexer.lexes_nil rest)

/-- The characters of a type make the tokens of the written type, up to where its last name ends. -/
theorem lexes (h : t.Writable) (hrest : Lexer.EndsWord rest) :
    Lexer.Lexes t.render.toList t.written.kinds rest := by
  induction h generalizing rest with
  | named optional word free => exact lexes_named word free hrest
  | @function params result _ _ ihp ihr =>
    have hresult := (Lexer.lexes_blank _).append ((Lexer.lexes_arrow _).append
      ((Lexer.lexes_blank _).append (ihr hrest)))
    have hparams := (Lexer.lexes_listed (fun t ht rest hr => ihp t ht hr)
      (Lexer.endsWord_encode (by decide) rfl _ rest)).append
        ((Lexer.lexes_mark .closeParen (by decide) _).append hresult)
    rw [toList_render_function, kinds_written_function]
    exact (Lexer.lexes_mark .openParen (by decide) _).append hparams

/-! ### Reading -/

theorem levelsOf_types (ts : List TypeExpr) : Item.type.levelsOf ts = 0 := by
  induction ts with
  | nil => rfl
  | cons t ts ih => rw [Item.levelsOf, ih]; rfl

/-- The kinds of the written type are read back, unless a mark goes on with it. -/
theorem reads (h : t.Writable) {ks : List Kind} (hks : ks.head? ≠ some (.symbol .question)) :
    Reads (.item .type) 0 (t.written.kinds ++ ks) t.written ks := by
  induction h generalizing ks with
  | @named name optional word free =>
    have hmark : Marked (.symbol .question)
        ((if optional then [.symbol .question] else []) ++ ks) optional ks := by
      cases optional with
      | true => exact .there
      | false => exact .missing hks
    rw [written, TypeExpr.kinds, List.cons_append]
    split
    · next hname =>
      subst hname
      exact .null hmark
    · exact .named hmark
  | @function params result _ _ ihp ihr =>
    have hparams : ∀ t ∈ writtenAll params, ∀ {ks : List Kind},
        ks.head? ≠ some (.symbol .question) → Reads (.item .type) 0 (t.kinds ++ ks) t ks := by
      intro t ht ks hks
      rw [writtenAll_eq_map] at ht
      obtain ⟨u, hu, rfl⟩ := List.mem_map.mp ht
      exact ihp u hu hks
    have hmark : ∀ x ks, x.closes = true ∨ x = .comma →
        (Kind.symbol x :: ks).head? ≠ some (.symbol .question) := by
      rintro x ks hx he
      cases he
      rcases hx with hx | hx <;> cases hx
    have hitems := @Reads.itemsWhere .type _ hmark .closeParen rfl (writtenAll params) hparams
      (.symbol .arrow :: (result.written.kinds ++ ks))
    have hbare : (writtenAll params).map Item.type.bare = writtenAll params := List.map_id _
    rw [levelsOf_types, ← kindsTypes_eq, hbare] at hitems
    rw [written, TypeExpr.kinds, List.cons_append, List.append_assoc]
    exact .functionType hitems (ihr hks)

end Ty.Writable

/-! ### Declarations -/

theorem eq_let_of_unplaced {ss : List Stmt} {x : Ident} {type : TypeExpr} {span : Span}
    (h : unplacedAll ss = unplacedAll [.let_ x type none span]) :
    ∃ y type' place, ss = [.let_ y type' none place] ∧ y.name = x.name ∧ type'.ty = type.ty := by
  rcases ss with _ | ⟨s, _ | ⟨t, ss⟩⟩
  · cases h
  · have hs : s.unplaced = .let_ x.unplaced type.unplaced none default := (List.cons.inj h).1
    unfold Stmt.unplaced at hs
    split at hs
    case h_2 y type' place =>
      obtain ⟨hname, htype, -⟩ := Stmt.let_.inj hs
      refine ⟨y, type', place, rfl, (Ident.mk.inj hname).1, ?_⟩
      rw [← type'.ty_unplaced, htype, type.ty_unplaced]
    case h_3 =>
      obtain ⟨-, -, hvalue, -⟩ := Stmt.let_.inj hs
      cases hvalue
    all_goals cases hs
  · cases (List.cons.inj h).2

theorem Ty.Writable.lexes_declaration {t : Ty} (h : t.Writable) :
    Lexer.Lexes ("let x: " ++ t.render).toList
      (.keyword .let_ :: .ident "x" :: .symbol .colon :: t.written.kinds) [] := by
  have hletWord : isWord "let" = true := by decide
  have hnameWord : isWord "x" = true := by decide
  have htype := (Lexer.lexes_mark .colon (by decide) _).append
    ((Lexer.lexes_blank _).append (h.lexes Lexer.endsWord_nil))
  have hname := (Lexer.lexes_word hnameWord
    (Lexer.endsWord_encode (by decide) rfl _ [])).append htype
  have hlet := (Lexer.lexes_word hletWord (Lexer.endsWord_encode (by decide) rfl _ [])).append
    ((Lexer.lexes_blank _).append hname)
  rw [String.toList_append]
  exact hlet

/-- Behind `let x: `, the text of a type without records is read without a fault, as a declaration
of `x` without a value, and the type that is written there is that type. -/
theorem shown_type_read_back {t : Ty} (h : t.Writable) (name : String) :
    let s : Source := ⟨name, "let x: " ++ t.render⟩
    s.lex.faults = .empty ∧ ∃ p x type span, parse s.lex.tokens = ⟨some p, .empty⟩ ∧
      p.body = [.let_ x type none span] ∧ x.name = "x" ∧ type.ty = t := by
  intro s
  obtain ⟨hfaults, htokens⟩ := h.lexes_declaration.lex
  have hkinds : (Cursor.ofTokens s.lex.tokens).kinds =
      .keyword .let_ :: .ident "x" :: .symbol .colon :: (t.written.kinds ++ [.eof]) := by
    have hlast : (s.lex.tokens.map Token.kind).getLast? = some .eof := by
      have hall : s.lex.tokens.map Token.kind = _ ++ [.eof] := htokens
      rw [hall, List.getLast?_concat]
    rw [Cursor.kinds_ofTokens, if_pos hlast]
    exact htokens
  have hstmt : Reads .statement 1 (Cursor.ofTokens s.lex.tokens).kinds
      (.let_ ⟨"x", default⟩ t.written none default) [.eof] := by
    have htype : Reads (.item .type) 0 (t.written.kinds ++ [.eof]) t.written [.eof] :=
      h.reads (by simp)
    rw [hkinds]
    exact @Reads.declared ⟨"x", default⟩ .eof _ [] t.written default htype (by simp)
  obtain ⟨p, hp, hbody⟩ := (hstmt.statementsCons .statementsNil).parsed.1 (by decide)
  obtain ⟨x, type, span, hlet, hname, htype⟩ := eq_let_of_unplaced hbody
  exact ⟨hfaults, p, x, type, span, hp, hlet, hname, htype.trans h.ty_written⟩

/-- Functions in the places of a parameter and of a result, with names that are optional. -/
theorem nested_function_read_back :
    let inner : Ty := .function [.named "null" true, .named "P" false] (.named "int" true)
    let t : Ty := .function [inner] (.function [] .null)
    t.render = "((null?, P) -> int?) -> () -> null" ∧ t.Writable ∧
      ∃ p x type span,
        parse (⟨"main", "let x: " ++ t.render⟩ : Source).lex.tokens = ⟨some p, .empty⟩ ∧
        p.body = [.let_ x type none span] ∧ type.ty = t := by
  intro inner t
  have hnull : ∀ optional, (Ty.named "null" optional).Writable := fun optional =>
    .named optional (by decide) (.inr rfl)
  have hinner : inner.Writable := by
    refine .function (List.forall_mem_cons.mpr ⟨hnull true, List.forall_mem_singleton.mpr ?_⟩) ?_
    · exact .named false (by decide) (.inl (by decide))
    · exact .named true (by decide) (.inl (by decide))
  have ht : t.Writable := by
    refine .function (List.forall_mem_singleton.mpr hinner) (.function ?_ (hnull false))
    exact fun _ h => absurd h List.not_mem_nil
  obtain ⟨-, p, x, type, span, hp, hbody, -, htype⟩ := shown_type_read_back ht "main"
  exact ⟨by decide, ht, p, x, type, span, hp, hbody, htype⟩

end RecordLang
