import RecordLang.Proofs.Token.Relexed
import RecordLang.Proofs.Token.Words

/-!
# Tokens without gaps

Tokens may stand next to each other without a blank, as long as the first one ends where the second
begins: a name ends at whatever is no part of a name, and most marks end anywhere. `Lexes cs ks rest`
says that characters make tokens of some kinds when `rest` follows; this is put together piece by
piece (`Lexes.append`).
-/

namespace RecordLang

open Text (byte encode)

namespace Lexer

variable {cs ds : List Char} {k : Kind} {ks ls : List Kind} {rest : List UInt8}

/-- No name goes on here. -/
def EndsWord (rest : List UInt8) : Prop := ∀ b ∈ rest.head?, Byte.isWordPart b = false

theorem endsWord_nil : EndsWord [] := by simp [EndsWord]

theorem endsWord_encode {c : Char} (hc : c.toNat < 128) (hpart : Byte.isWordPart (byte c) = false)
    (cs : List Char) (rest : List UInt8) : EndsWord (encode (c :: cs) ++ rest) := by
  rw [Text.encode_cons, Text.utf8EncodeChar_of_lt hc]
  rintro _ ⟨⟩
  exact hpart

/-- Where the characters stand before `rest`, they are read as tokens of the kinds without a fault,
and reading goes on with `rest`. -/
def Lexes (cs : List Char) (ks : List Kind) (rest : List UInt8) : Prop :=
  ∀ i here, i.trim = Input.trim ⟨here, encode cs ++ rest⟩ → ∃ ts j there,
    ts.map Token.kind = ks ∧ j.trim = Input.trim ⟨there, rest⟩ ∧
      tokens i .empty = (ts ++ (tokens j .empty).1, (tokens j .empty).2)

theorem Lexes.append (h : Lexes cs ks (encode ds ++ rest)) (h' : Lexes ds ls rest) :
    Lexes (cs ++ ds) (ks ++ ls) rest := by
  intro i here hi
  rw [Text.encode_append, List.append_assoc] at hi
  obtain ⟨ts, j, there, hts, hj, htokens⟩ := h i here hi
  obtain ⟨us, k, stop, hus, hk, htokens'⟩ := h' j there hj
  refine ⟨ts ++ us, k, stop, by rw [List.map_append, hts, hus], hk, ?_⟩
  rw [htokens, htokens', List.append_assoc]

/-- Characters from which a step takes one token. -/
theorem Lexes.of_step {b : UInt8} {tail : List UInt8} (hbytes : encode cs = b :: tail)
    (h : ∀ here, Input.trim ⟨here, b :: (tail ++ rest)⟩ = ⟨here, b :: (tail ++ rest)⟩ ∧
      ∃ stop, step here b (tail ++ rest) = ⟨some k, [], ⟨stop, rest⟩⟩) : Lexes cs [k] rest := by
  intro i here hi
  obtain ⟨htrim, stop, hstep⟩ := h here
  rw [hbytes, List.cons_append, htrim] at hi
  exact ⟨[⟨k, .between here stop⟩], ⟨stop, rest⟩, stop, rfl, rfl, tokens_of_step hi hstep⟩

theorem lexes_nil (rest : List UInt8) : Lexes [] [] rest := fun i here hi =>
  ⟨[], i, here, rfl, hi, rfl⟩

theorem lexes_blank (rest : List UInt8) : Lexes [' '] [] rest := by
  intro i here hi
  obtain ⟨stop, htrim⟩ := @trim_filler here rest (.blank .space)
  exact ⟨[], i, stop, rfl, hi.trans htrim, rfl⟩

theorem lexes_word {s : String} (h : isWord s = true) (hrest : EndsWord rest) :
    Lexes s.toList [.ofWord s] rest := by
  obtain ⟨c, cs, hs, hc, hparts⟩ := exists_of_isWord h
  obtain ⟨b, tail, hbytes, hstep⟩ := step_word hc (List.forall_mem_cons.mp hparts).2
  rw [← hs, String.ofList_toList] at hstep
  rw [hs]
  exact .of_step hbytes fun here => hstep here rest hrest

theorem pair?_eq_none {b : UInt8} (h : Byte.glyph b ∉ ['-', '=', '!', '<', '>'])
    (rest : List UInt8) : pair? b rest = none := by
  cases rest with
  | nil => rfl
  | cons c rest =>
    show Symbol.double? (Byte.glyph b) (Byte.glyph c) = none
    unfold Symbol.double?
    split <;> simp_all

/-- A mark of one character that makes no symbol with another one is read whatever follows. -/
theorem lexes_mark (x : Symbol) (hx : x ∈ [.question, .openParen, .closeParen, .comma, .colon])
    (rest : List UInt8) : Lexes x.text.toList [.symbol x] rest := by
  have hmark : ∀ {b : UInt8} {here : Position}, Byte.glyph b ∉ ['-', '=', '!', '<', '>'] →
      Symbol.single? (Byte.glyph b) = some x →
      symbolStep here b rest = ⟨some (.symbol x), [], .after here [b] rest⟩ := by
    intro b here hb hsingle
    rw [symbolStep, pair?_eq_none hb rest]
    simp only [hsingle]
    rfl
  simp only [List.mem_cons, List.not_mem_nil, or_false] at hx
  rcases hx with rfl | rfl | rfl | rfl | rfl
  all_goals exact .of_step rfl fun here => ⟨rfl, _, hmark (by decide) rfl⟩

theorem lexes_arrow (rest : List UInt8) : Lexes ['-', '>'] [.symbol .arrow] rest :=
  .of_step rfl fun _ => ⟨rfl, _, rfl⟩

/-- The kinds of a whole text. -/
theorem Lexes.lex (h : Lexes cs ks []) : (lex (encode cs)).faults = .empty ∧
    (RecordLang.lex (encode cs)).tokens.map Token.kind = ks ++ [.eof] := by
  obtain ⟨ts, j, there, hts, hj, htokens⟩ := h ⟨.origin, encode cs⟩ .origin (by rw [List.append_nil])
  have hend : j.trim = ⟨there, []⟩ := hj
  rw [tokens_of_end hend] at htokens
  rw [RecordLang.lex, htokens]
  exact ⟨rfl, by rw [List.map_append, hts]; rfl⟩

end Lexer

end RecordLang
