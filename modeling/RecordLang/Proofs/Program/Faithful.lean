import RecordLang.Proofs.Program.Pruned
import RecordLang.Proofs.Token.Lexed

/-!
# The parser is faithful to its tokens

A program that is read without a fault has the kinds of the tokens it was read from, but for commas
before closing symbols, and keeps the order of precedence. Read again from its own kinds it is the
same program up to places (`parse_faithful`).
-/

namespace RecordLang

theorem pruned_sublist (ks : List Kind) : (pruned ks).Sublist ks := by
  induction ks with
  | nil => exact .slnil
  | cons k ks ih =>
    rw [pruned]
    split
    · exact ih.cons k
    · exact ih.cons_cons k

theorem pruned_concat_eof (ks : List Kind) : pruned (ks ++ [.eof]) = pruned ks ++ [.eof] := by
  induction ks with
  | nil => rfl
  | cons k ks ih =>
    have hhead : ∀ x : Symbol, (ks ++ [Kind.eof]).head? = some (.symbol x) ↔
        ks.head? = some (.symbol x) := by
      cases ks <;> simp
    simp only [List.cons_append, pruned, ih, hhead]
    split
    · rfl
    · rfl

/-- The end of the text has nothing behind it if it occurs once. -/
theorem rest_eq_nil {ks rest : List Kind} (h : .eof :: rest <:+ ks ++ [.eof]) (hks : .eof ∉ ks) :
    rest = [] := by
  obtain ⟨before, hb⟩ := h
  rcases List.eq_nil_or_concat rest with rfl | ⟨rest', k, rfl⟩
  · rfl
  · -- the last of the kinds is `k`, so the other end of the text is among `ks`
    exfalso
    have hsplit : (before ++ .eof :: rest') ++ [k] = ks ++ [.eof] := by simpa using hb
    have hinit := (List.append_inj' hsplit rfl).1
    exact hks (hinit ▸ List.mem_append_right _ (List.mem_cons_self ..))

/-- The kinds of tokens are followed by the end of the text once, given or not. -/
theorem Cursor.kinds_of_map {tokens : List Token} {ks : List Kind} (hks : .eof ∉ ks)
    (h : tokens.map Token.kind = ks ∨ tokens.map Token.kind = ks ++ [.eof]) :
    (Cursor.ofTokens tokens).kinds = ks ++ [.eof] := by
  rw [Cursor.kinds_ofTokens]
  rcases h with h | h
  · rw [h, if_neg fun hlast => hks (List.mem_of_getLast? hlast)]
  · rw [h, if_pos List.getLast?_concat]

/-- A program that is read without a fault from tokens without the end of the text among them. -/
theorem parse_keeps {tokens : List Token} {ks : List Kind}
    (hks : (Cursor.ofTokens tokens).kinds = ks ++ [.eof]) (heof : .eof ∉ ks) (hplain : Plain ks)
    (h : (parse tokens).faults = .empty) :
    ∃ p m, (parse tokens).program = some p ∧ m ≤ GrammarCause.maxNesting ∧ p.kinds = pruned ks ∧
      Reads (.statements .eof) m (p.kinds ++ [.eof]) p.body [.eof] := by
  obtain ⟨p, rest, hp, m, hm, hreads⟩ := parse_reads h
  rw [hks] at hreads
  obtain rfl := rest_eq_nil hreads.behind.suffix heof
  have hplain' : Plain (ks ++ [.eof]) := List.forall_mem_append.mpr ⟨hplain, by simp⟩
  have hkinds : p.kinds = pruned ks := by
    have hw := hreads.kinds_eq hplain'
    rw [Part.Written, pruned_concat_eof] at hw
    exact (List.append_cancel_right hw).symm
  refine ⟨p, m, hp, hm, hkinds, ?_⟩
  have hpruned := (hreads.pruned (by simp) ⟨by simp, trivial⟩).2
  rwa [pruned_concat_eof, ← hkinds] at hpruned

/-- A program that is read from a text without a fault in its form. It has the kinds of the tokens,
but for commas before closing symbols. All its nodes keep the order of precedence. Tokens of its kinds,
wherever they stand, are read without a fault as the same program up to places. -/
theorem parse_faithful (bytes : List UInt8) (h : (parse (lex bytes).tokens).faults = .empty) :
    ∃ p ks, (parse (lex bytes).tokens).program = some p ∧
      (lex bytes).tokens.map Token.kind = ks ++ [.eof] ∧ .eof ∉ ks ∧
      p.kinds = pruned ks ∧
      (∀ f ∈ p.forms, f.Bound) ∧
      ∀ tokens : List Token,
        tokens.map Token.kind = p.kinds ∨ tokens.map Token.kind = p.kinds ++ [.eof] →
        ∃ q, parse tokens = ⟨some q, .empty⟩ ∧ q.unplaced = p.unplaced := by
  obtain ⟨ks, hks, hlex⟩ := lex_kinds bytes
  have heof : .eof ∉ ks := fun he => hlex _ he
  have hplain : Plain ks := by
    rintro k hk rfl
    exact absurd (hlex _ hk) nofun
  obtain ⟨p, m, hp, hm, hkinds, hreads⟩ :=
    parse_keeps (Cursor.kinds_of_map heof (.inr hks)) heof hplain h
  refine ⟨p, ks, hp, hks, heof, hkinds, hreads.bound, fun tokens htokens => ?_⟩
  -- the kinds of the program are no more than those of the text, so they are read to their end
  have heof' : .eof ∉ p.kinds := fun he => heof ((pruned_sublist ks).subset (hkinds ▸ he))
  rw [← Cursor.kinds_of_map heof' htokens] at hreads
  obtain ⟨q, hq, hbody⟩ := hreads.parsed.1 hm
  exact ⟨q, hq, by rw [Program.unplaced, hbody, Program.unplaced]⟩

/-- The text `-f(1,)`. -/
def negatedCall : List UInt8 := [45, 102, 40, 49, 44, 41]

def negatedCallKinds : List Kind :=
  [.symbol .minus, .ident "f", .symbol .openParen, .int 1, .symbol .comma, .symbol .closeParen]

theorem lex_negatedCall :
    (lex negatedCall).tokens.map Token.kind = negatedCallKinds ++ [.eof] := by
  rw [lex, negatedCall, Lexer.tokens_of_step rfl rfl, Lexer.tokens_of_step rfl rfl,
    Lexer.tokens_of_step rfl rfl, Lexer.tokens_of_step rfl rfl, Lexer.tokens_of_step rfl rfl,
    Lexer.tokens_of_step rfl rfl, Lexer.tokens_of_end rfl]
  rfl

theorem reads_negatedCall :
    ∃ ss, Reads (.statements .eof) 5 (negatedCallKinds ++ [.eof]) ss [.eof] := by
  have hcomma : EndsBefore Operator.levels [.symbol .comma, .symbol .closeParen, .eof] :=
    ⟨_, _, rfl, nofun, nofun, fun _ _ => rfl⟩
  have hend : EndsBefore Operator.levels [.eof] := ⟨_, _, rfl, Kind.ends_eof _⟩
  have hone := (@Reads.literal (.int 1) _ _ default rfl).unary (hcomma.mono (Nat.zero_le _))
  have harg := Reads.expression (hone.operand _ hcomma)
  have hcall := @Reads.call _ _ _ _ _ (.new (.variable "f") default) _ _ default
    (harg.itemsNext .itemsNil) (.suffixesNil nofun nofun)
  have hnegated := @Reads.unaryOp _ (.symbol .minus) _ _ _ _ default rfl
    ((Reads.variable_ rfl).suffixed hcall)
  exact ⟨_, (hnegated.operand _ hend).program⟩

theorem negatedCall_faithful :
    (parse (lex negatedCall).tokens).faults = .empty ∧
    ∃ p, (parse (lex negatedCall).tokens).program = some p ∧
      p.kinds = [.symbol .minus, .ident "f", .symbol .openParen, .int 1, .symbol .closeParen] ∧
      (∀ f ∈ p.forms, f.Bound) ∧
      ∀ tokens : List Token,
        tokens.map Token.kind = p.kinds ∨ tokens.map Token.kind = p.kinds ++ [.eof] →
        ∃ q, parse tokens = ⟨some q, .empty⟩ ∧ q.unplaced = p.unplaced := by
  have hclean : (parse (lex negatedCall).tokens).faults = .empty := by
    obtain ⟨ss, hreads⟩ := reads_negatedCall
    rw [← Cursor.kinds_of_map (by decide) (.inr lex_negatedCall)] at hreads
    obtain ⟨p, hp, -⟩ := hreads.parsed.1 (by decide)
    rw [hp]
  obtain ⟨p, ks, hp, hks, -, hkinds, hbound, hagain⟩ := parse_faithful negatedCall hclean
  rw [lex_negatedCall] at hks
  rw [← List.append_cancel_right hks] at hkinds
  exact ⟨hclean, p, hp, hkinds, hbound, hagain⟩

end RecordLang
