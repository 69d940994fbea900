import RecordLang.Proofs.Token.Rounds
import RecordLang.Proofs.Verdict

/-!
# What is collected of a source

The diagnostics of a source are a capped list that was built by pushing and joining, so they are the
first ones of a list: the faults in its tokens, those in its form behind them and then the one that
the check finds, if there are no others (`Source.exists_collected`).
-/

namespace RecordLang

/-- The check adds at most one diagnostic, and only to none. -/
theorem analyze_diagnostics (s : Source) : ∃ checked,
    (analyze s).diagnostics = s.parse.2.pushAll checked ∧ checked.length ≤ 1 ∧
      (s.parse.2.nonempty = false ∨ checked = []) := by
  unfold analyze
  rcases s.parse with ⟨program, ds⟩
  dsimp only
  split
  · next p hclean =>
    split
    · exact ⟨[], rfl, Nat.zero_le 1, .inr rfl⟩
    · next f _ => exact ⟨[.ofFault s f], rfl, Nat.le_refl 1, .inl hclean⟩
    · exact ⟨[], rfl, Nat.zero_le 1, .inr rfl⟩
  · exact ⟨[], rfl, Nat.zero_le 1, .inr rfl⟩

namespace Source

/-- The faults in the tokens of a source are pushed one after the other. -/
theorem exists_lexed (s : Source) : ∃ lexed, s.lexDiagnostics = .ofList lexed := by
  obtain ⟨stop, htokens⟩ := Lexer.exists_tokens_eq ⟨.origin, s.bytes⟩ .empty
  have hfaults : s.lex.faults = .ofList _ := congrArg Prod.snd htokens
  exact ⟨_, by rw [lexDiagnostics, hfaults, Capped.map_ofList]⟩

/-- The diagnostics of a source are those of its tokens, those of its form and that of the check, in
this order. -/
theorem exists_collected (s : Source) : ∃ lexed parsed checked : List Diagnostic,
    s.lexDiagnostics = .ofList lexed ∧
    (RecordLang.parse s.lex.tokens).faults.map (Diagnostic.ofFault s) = .ofList parsed ∧
    s.parse.2 = .ofList (lexed ++ parsed) ∧
    (analyze s).diagnostics = .ofList (lexed ++ parsed ++ checked) ∧
    checked.length ≤ 1 ∧ (lexed ++ parsed = [] ∨ checked = []) := by
  obtain ⟨lexed, hlexed⟩ := s.exists_lexed
  obtain ⟨fs, hfaults⟩ := exists_parse_faults s.lex.tokens
  obtain ⟨checked, hchecked, hone, hnone⟩ := analyze_diagnostics s
  have hparsed : (RecordLang.parse s.lex.tokens).faults.map (Diagnostic.ofFault s) =
      .ofList (fs.map (Diagnostic.ofFault s)) := by rw [hfaults, Capped.map_ofList]
  have hboth : s.parse.2 = .ofList (lexed ++ fs.map (Diagnostic.ofFault s)) := by
    rw [Source.parse, hlexed, hparsed, Capped.extend_ofList]
  refine ⟨lexed, _, checked, hlexed, hparsed, hboth, ?_, hone, hnone.imp (fun hclean => ?_) id⟩
  · rw [hchecked, hboth]
    exact Capped.pushAll_append.symm
  · rw [hboth, Capped.nonempty, (Capped.shows_ofList _).total, decide_eq_false_iff_not] at hclean
    exact List.length_eq_zero_iff.mp (by omega)

end Source

/-- Capped lists behave as lists. What is built by pushing and joining stores the first items of the
list of all that were added, up to twenty, and counts all. Pushing appends an item to that list, and
joining appends the list of the other, so that it is associative and the empty list is neutral. A
report of a source stores the first twenty of the faults in its tokens and then those in its form;
the check adds one only if there are none. -/
theorem Capped.behaves_as_list {α : Type} (b d e : Build α) (a : α) (s : Source) :
    (b.run.kept = b.items.take (min 20 b.items.length) ∧ b.run.total = b.items.length) ∧
    (b.run.push a).Shows (b.items ++ [a]) ∧ (b.run.extend d.run).Shows (b.items ++ d.items) ∧
    (b.run.extend d.run).extend e.run = b.run.extend (d.run.extend e.run) ∧
    b.run.extend .empty = b.run ∧ Capped.empty.extend b.run = b.run ∧
    ∃ lexed parsed checked : List Diagnostic,
      s.lexDiagnostics = .ofList lexed ∧
      (parse s.lex.tokens).faults.map (Diagnostic.ofFault s) = .ofList parsed ∧
      s.parse.2.kept = (lexed ++ parsed).take 20 ∧ s.parse.2.total = (lexed ++ parsed).length ∧
      (analyze s).diagnostics = .ofList (lexed ++ parsed ++ checked) ∧
      checked.length ≤ 1 ∧ (lexed ++ parsed = [] ∨ checked = []) := by
  have hb := b.shows
  have hassoc : (b.run.extend d.run).extend e.run = b.run.extend (d.run.extend e.run) := by
    have hright := hb.extend (d.shows.extend e.shows)
    rw [← List.append_assoc] at hright
    exact ((hb.extend d.shows).extend e.shows).unique hright
  have hright : b.run.extend .empty = b.run := by
    have hempty := hb.extend shows_empty
    rw [List.append_nil] at hempty
    exact hempty.unique hb
  have hleft : Capped.empty.extend b.run = b.run := (shows_empty.extend hb).unique hb
  refine ⟨⟨?_, hb.total⟩, hb.push a, hb.extend d.shows, hassoc, hright, hleft, ?_⟩
  · rw [← List.take_eq_take_min]
    exact hb.kept
  · obtain ⟨lexed, parsed, checked, hlexed, hparsed, hboth, hchecked, hone, hnone⟩ :=
      s.exists_collected
    have hshows := shows_ofList (lexed ++ parsed)
    rw [← hboth] at hshows
    exact ⟨lexed, parsed, checked, hlexed, hparsed, hshows.kept, hshows.total, hchecked, hone,
      hnone⟩

end RecordLang
