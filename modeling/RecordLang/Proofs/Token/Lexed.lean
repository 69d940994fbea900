import RecordLang.Token.Lexer

/-!
# Lists of tokens

The tokens of a text end with the end of the text, which does not occur before, and no identifier
among them is spelled like a reserved word (`lex_kinds`).
-/

namespace RecordLang

/-- A kind that a run of bytes can make. -/
def Kind.Lexical : Kind → Prop
  | .ident s => Keyword.ofText? s = none
  | .eof => False
  | .int _ | .float _ | .string _ | .keyword _ | .symbol _ => True

theorem Kind.lexical_ofWord (s : String) : (ofWord s).Lexical := by
  unfold ofWord
  split
  · trivial
  · assumption

namespace Lexer

variable {start : Position} {b : UInt8} {rest bytes : List UInt8} {k : Kind}

theorem lexical_numberStep (h : (numberStep start bytes).kind = some k) : k.Lexical := by
  unfold numberStep at h
  simp only at h
  split at h
  · split at h
    · cases h
      trivial
    · cases h
      trivial
  · cases h
    trivial

theorem lexical_symbolStep (h : (symbolStep start b rest).kind = some k) : k.Lexical := by
  unfold symbolStep at h
  split at h
  · cases h
    trivial
  · split at h
    · cases h
      trivial
    · cases h

theorem lexical_step (h : (step start b rest).kind = some k) : k.Lexical := by
  unfold step at h
  split at h
  · cases h
    trivial
  · split at h
    · exact lexical_numberStep h
    · split at h
      · cases h
        exact Kind.lexical_ofWord _
      · exact lexical_symbolStep h

theorem tokens_kinds (i : Input) (faults : Capped Fault) : ∃ ks,
    (tokens i faults).1.map Token.kind = ks ++ [.eof] ∧ ∀ k ∈ ks, k.Lexical := by
  fun_induction tokens i faults with
  | case1 => exact ⟨[], rfl, nofun⟩
  | case2 => exact ⟨[], rfl, nofun⟩
  | case3 i faults hfull b rest hrest s faults' hkind ih => exact ih
  | case4 i faults hfull b rest hrest s faults' kind hkind ts faults'' hts ih =>
    obtain ⟨ks, hks, hlex⟩ := ih
    rw [hts] at hks
    exact ⟨kind :: ks, congrArg (kind :: ·) hks, List.forall_mem_cons.mpr ⟨lexical_step hkind, hlex⟩⟩

/-! ### Tokens one by one -/

/-- A token without faults at the front. -/
theorem tokens_of_step {i next : Input} {here : Position} (ht : i.trim = ⟨here, b :: rest⟩)
    (hs : step here b rest = ⟨some k, [], next⟩) : tokens i .empty =
      (⟨k, .between here next.here⟩ :: (tokens next .empty).1, (tokens next .empty).2) := by
  rw [tokens, if_neg (by decide)]
  split
  · next h =>
    rw [ht] at h
    cases h
  · next h =>
    rw [ht] at h
    cases h
    simp only [ht, hs]
    rfl

theorem tokens_of_end {i : Input} {here : Position} (ht : i.trim = ⟨here, []⟩) :
    tokens i .empty = ([⟨.eof, .point here⟩], .empty) := by
  rw [tokens, if_neg (by decide)]
  split
  · rw [ht]
  · next h =>
    rw [ht] at h
    cases h

end Lexer

/-- The tokens of a text end with the end of the text. -/
theorem lex_kinds (bytes : List UInt8) : ∃ ks,
    (lex bytes).tokens.map Token.kind = ks ++ [.eof] ∧ ∀ k ∈ ks, k.Lexical :=
  Lexer.tokens_kinds _ _

end RecordLang
