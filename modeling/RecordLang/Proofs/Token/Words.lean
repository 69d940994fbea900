import Mathlib.Data.List.TakeWhile
import RecordLang.Proofs.Token.Spelling

/-!
# Words

A word is a letter or an underscore and then letters, underscores and digits. Identifiers among the
tokens of a text are words (`lex_words`), and so are the reserved words.
-/

namespace RecordLang

/-- A letter or an underscore, and then letters, underscores and digits. -/
def isWord (s : String) : Bool :=
  match s.toList with
  | [] => false
  | c :: cs => isNameStart c && cs.all isNamePart

theorem exists_of_isWord {s : String} (h : isWord s = true) :
    ∃ c cs, s.toList = c :: cs ∧ isNameStart c = true ∧ ∀ d ∈ c :: cs, isNamePart d = true := by
  rw [isWord] at h
  split at h
  · cases h
  · next c cs hs =>
    obtain ⟨hc, hcs⟩ := Bool.and_eq_true_iff.mp h
    refine ⟨c, cs, hs, hc, List.forall_mem_cons.mpr ⟨?_, List.all_eq_true.mp hcs⟩⟩
    rw [isNamePart, hc, Bool.true_or]

/-! ### Words of bytes -/

namespace Byte

variable {b : UInt8}

theorem toNat_glyph (b : UInt8) : (glyph b).toNat = b.toNat := rfl

theorem isNameStart_glyph (h : isLetter b = true) : isNameStart (glyph b) = true := by
  have hletter := isLetter_iff.mp h
  rw [← toNat_glyph] at hletter
  by_cases hunderscore : (glyph b).toNat = 95
  · have hchar : glyph b = '_' := Char.ext (UInt32.toNat_inj.mp hunderscore)
    rw [hchar]
    rfl
  · have hrange : 65 ≤ (glyph b).toNat ∧ (glyph b).toNat ≤ 90 ∨
        97 ≤ (glyph b).toNat ∧ (glyph b).toNat ≤ 122 := by omega
    have halpha : (decide ((glyph b).val ≥ 'A'.val ∧ (glyph b).val ≤ 'Z'.val) ||
        decide ((glyph b).val ≥ 'a'.val) && decide ((glyph b).val ≤ 'z'.val)) = true := by
      simpa [UInt32.le_iff_toNat_le] using hrange
    exact Bool.or_eq_true_iff.mpr (.inl halpha)

theorem isNamePart_glyph (h : isWordPart b = true) : isNamePart (glyph b) = true := by
  rcases Bool.or_eq_true_iff.mp h with h | h
  · rw [isNamePart, isNameStart_glyph h, Bool.true_or]
  · have hrange := isDigit_iff.mp h
    rw [← toNat_glyph] at hrange
    have hdigit : (decide ((glyph b).val ≥ '0'.val) && decide ((glyph b).val ≤ '9'.val)) = true := by
      simpa [UInt32.le_iff_toNat_le] using hrange
    exact Bool.or_eq_true_iff.mpr (.inr hdigit)

end Byte

theorem Kind.isWord_of_ofWord {s w : String} (hs : isWord s = true) (h : ofWord s = .ident w) :
    isWord w = true := by
  unfold ofWord at h
  split at h
  · cases h
  · cases h
    exact hs

namespace Lexer

variable {start : Position} {b : UInt8} {rest : List UInt8} {w : String}

theorem isWord_ofAscii (hb : Byte.isLetter b = true) (rest : List UInt8) :
    isWord (Text.ofAscii ((b :: rest).takeWhile Byte.isWordPart)) = true := by
  have hpart : Byte.isWordPart b = true := by rw [Byte.isWordPart, hb, Bool.true_or]
  rw [List.takeWhile_cons_of_pos hpart, Text.ofAscii, isWord, String.toList_ofList, List.map_cons]
  refine Bool.and_eq_true_iff.mpr ⟨Byte.isNameStart_glyph hb, List.all_eq_true.mpr ?_⟩
  refine List.forall_mem_map.mpr fun c hc => ?_
  exact Byte.isNamePart_glyph (List.mem_takeWhile_imp hc)

/-- A step that takes an identifier takes a word. -/
theorem isWord_of_step (h : (step start b rest).kind = some (.ident w)) : isWord w = true := by
  unfold step at h
  split at h
  · cases h
  · split at h
    · unfold numberStep at h
      simp only at h
      split at h
      · split at h <;> cases h
      · cases h
    · split at h
      · next hb => exact Kind.isWord_of_ofWord (isWord_ofAscii hb rest) (Option.some.inj h)
      · unfold symbolStep at h
        split at h
        · cases h
        · split at h <;> cases h

theorem tokens_words (i : Input) (faults : Capped Fault) :
    ∀ t ∈ (tokens i faults).1, t.kind = .ident w → isWord w = true := by
  fun_induction tokens i faults with
  | case1 | case2 =>
    intro t ht hk
    rw [List.mem_singleton.mp ht] at hk
    cases hk
  | case3 i faults hfull b rest hrest s faults' hkind ih => exact ih
  | case4 i faults hfull b rest hrest s faults' kind hkind ts faults'' hts ih =>
    rw [hts] at ih
    refine List.forall_mem_cons.mpr ⟨fun hk => ?_, ih⟩
    have hk : kind = .ident w := hk
    rw [hk] at hkind
    exact isWord_of_step hkind

end Lexer

/-- The identifiers among the tokens of a text are words. -/
theorem lex_words {bytes : List UInt8} {t : Token} {w : String} (ht : t ∈ (lex bytes).tokens)
    (hk : t.kind = .ident w) : isWord w = true :=
  Lexer.tokens_words _ _ t ht hk

end RecordLang
