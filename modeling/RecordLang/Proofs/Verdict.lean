import RecordLang.Proofs.Layout
import RecordLang.Proofs.Program.Invariant
import RecordLang.Proofs.Program.Spans
import RecordLang.Proofs.Token.Begins
import RecordLang.Proofs.Typing.Blame
import RecordLang.Report.Verdict

/-!
# Verdicts and diagnostics

An analysis ends in one of three ways (`Analysis.Outcome`): the source has faults in its spelling or
its form and no types are written, or the check refuses its program with one fault, or all is well.
Whichever it is, the verdict says the same as the diagnostics, and each of these shows the line of
the source that it is about (`analyze_consistent`).
-/

namespace RecordLang

/-! ### Codes -/

namespace Code

/-- The codes of faults in spelling and form. -/
def ofForm : List Code := [unexpected, unclosed, badLiteral, tooDeep]

/-- The codes of faults that the check finds. -/
def ofMeaning : List Code :=
  [unknownType, typeMismatch, argumentCount, badOperator, notCallable, unknownField, notRecord,
    missingReturn, returnMismatch, emptyReturn, variableDeclared, undefinedVariable, typeDeclared,
    duplicateField]

theorem category_of_mem_ofForm :
    ∀ c ∈ ofForm, 100 ≤ c.number ∧ c.number ≤ 103 ∧ c.category = .form := by decide

theorem category_of_mem_ofMeaning :
    ∀ c ∈ ofMeaning, c.category ∈ [Category.type, .returns, .scope] := by decide

end Code

theorem LexicalCause.code_mem (c : LexicalCause) : c.code ∈ Code.ofForm := by
  cases c <;> simp [code, Code.ofForm]

theorem GrammarCause.code_mem (c : GrammarCause) : c.code ∈ Code.ofForm := by
  cases c <;> simp [code, Code.ofForm]

theorem TypeCause.code_mem (c : TypeCause) : c.code ∈ Code.ofMeaning := by
  cases c <;> simp [code, Code.ofMeaning]

/-! ### Diagnostics -/

namespace Diagnostic

/-- One of the codes of faults in spelling and form, and their category. -/
def OfForm (d : Diagnostic) : Prop :=
  100 ≤ d.code.number ∧ d.code.number ≤ 103 ∧ d.category = .form

/-- The diagnostic names the source and shows one of its lines, the one on which its span begins. -/
structure ShownIn (d : Diagnostic) (s : Source) : Prop where
  file : d.file = s.name
  first : 1 ≤ d.span.line
  last : d.span.line ≤ s.lineCount
  line : s.line? d.span.line = some d.sourceLine

theorem shownIn_ofFault {α : Type} [Explained α] {s : Source} {f : Located α}
    (h : s.Begins f.span) : (ofFault s f).ShownIn s := by
  obtain ⟨hfirst, hlast, line, hline⟩ := h.exists_line
  refine ⟨rfl, hfirst, hlast, ?_⟩
  show s.line? f.span.line = some ((s.line? f.span.line).getD "")
  rw [hline, Option.getD_some]

end Diagnostic

/-! ### Reading -/

/-- The trees that are read have no types in them. -/
theorem parse_unfilled {tokens : List Token} {p : Program} (h : (parse tokens).program = some p) :
    Unfilled p.postorder := by
  obtain ⟨passed, d, -, hmade, -⟩ := parse_places h
  intro e he
  obtain ⟨t, ht, hbelow⟩ := exists_below_of_mem_all p.body he
  obtain ⟨us, -, hstands⟩ := hmade.stands_of_has ⟨t, ht, hbelow⟩
  exact hstands.slot

/-- The faults in the form of a program are pushed one after the other. -/
theorem exists_parse_faults (tokens : List Token) : ∃ fs, (parse tokens).faults = .ofList fs := by
  obtain ⟨fs, hfs, -⟩ := Parser.Reporting.reports
    (p := Parser.body (· == .eof) (Grammar.allowing GrammarCause.maxNesting).statement)
    (Cursor.ofTokens tokens)
  have hstart : (Cursor.ofTokens tokens).faults = .empty := by cases tokens <;> rfl
  refine ⟨fs, ?_⟩
  rw [Capped.ofList, ← hstart]
  exact hfs

/-- Without faults there is a program, and nothing was counted. -/
theorem parse_clean {tokens : List Token} (h : (parse tokens).faults.nonempty = false) :
    (parse tokens).faults = .empty ∧ ∃ p, (parse tokens).program = some p := by
  obtain ⟨fs, hfaults⟩ := exists_parse_faults tokens
  have hnone : fs = [] := by
    rw [hfaults, Capped.nonempty, (Capped.shows_ofList fs).total, decide_eq_false_iff_not] at h
    exact List.length_eq_zero_iff.mp (by omega)
  refine ⟨by rw [hfaults, hnone]; rfl, ?_⟩
  rw [parse] at h ⊢
  dsimp only at h ⊢
  rw [h, Bool.and_false]
  exact ⟨_, rfl⟩

namespace Source

variable {s : Source} {p : Program} {d : Diagnostic}

theorem begins_origin (s : Source) : s.Begins (.point .origin) := .here ⟨.origin, s.bytes⟩

/-- What is reported of the reading is about form. It begins at a place of the source, and is shown
there. -/
theorem ofForm_of_mem_parse (h : d ∈ s.parse.2.kept) :
    d.OfForm ∧ s.Begins d.span ∧ d.ShownIn s := by
  rcases Capped.mem_kept_extend h with h | h
  · obtain ⟨f, hf, rfl⟩ := List.mem_map.mp h
    have hbegins : s.Begins f.span := begins_of_fault hf
    exact ⟨Code.category_of_mem_ofForm _ f.cause.code_mem, hbegins,
      Diagnostic.shownIn_ofFault hbegins⟩
  · obtain ⟨f, hf, rfl⟩ := List.mem_map.mp h
    have hbegins := parse_faults s.begins_origin (fun t ht => begins_of_token ht) f hf
    exact ⟨Code.category_of_mem_ofForm _ f.cause.code_mem, hbegins,
      Diagnostic.shownIn_ofFault hbegins⟩

/-- A source of which nothing is reported is read into a program. -/
theorem parse_eq_of_clean (h : s.parse.2.nonempty = false) :
    s.lex.faults.nonempty = false ∧ ∃ p, s.parse = (some p, .empty) := by
  obtain ⟨hlex, hparse⟩ := Capped.nonempty_extend h
  obtain ⟨hfaults, p, hp⟩ := parse_clean hparse
  refine ⟨hlex, p, ?_⟩
  rw [Source.parse, lexDiagnostics, faults_eq_empty hlex, hfaults, hp]
  rfl

/-- All nodes of a program begin where one of the tokens does. -/
theorem begins_of_has (hlex : s.lex.faults.nonempty = false)
    (hp : (RecordLang.parse s.lex.tokens).program = some p) {n : Node} (hn : p.Has n) :
    s.Begins n.span := by
  obtain ⟨passed, htokens, hordered, hmade, -⟩ := exists_read hlex hp
  obtain ⟨us, hus, hstands⟩ := hmade.stands_of_has hn
  have hous := hordered.segment hus
  obtain ⟨t, u, ht, hu, hspan⟩ := hstands.span_eq hous
  have hmem : t ∈ s.lex.tokens := (hus.trans htokens).subset (List.mem_of_head? ht)
  have hbegins : s.Begins t.span := begins_of_token hmem
  have hforward : t.span.first ≤ u.span.last :=
    Position.le_trans hbegins.1 (hous.bounds ht hu (List.mem_of_head? ht)).2
  rw [hspan]
  exact ⟨hforward, hbegins.2⟩

/-- The fault that the check finds is at a node, so it begins on a line of the source. -/
theorem begins_of_check (hlex : s.lex.faults.nonempty = false)
    (hp : (RecordLang.parse s.lex.tokens).program = some p) {f : TypeFault}
    (hf : (p.check .new).result = .error (.fault f)) : s.Begins f.span := by
  rw [p.check_result] at hf
  refine checkAll_blames p.body .new (fun t ht => ?_) f hf
  intro n hn
  exact begins_of_has hlex hp ⟨t, ht, hn⟩

/-- No expression of a program that was just read is visited twice. -/
theorem check_ne_revisited (hp : (RecordLang.parse s.lex.tokens).program = some p) :
    (p.check .new).result ≠ .error .revisited := by
  intro h
  obtain ⟨e, he, hne⟩ := (p.check_fills .new).revisited h
  exact hne (parse_unfilled hp e he)

end Source

/-! ### Analysis -/

/-- The ways in which the analysis of a source ends. -/
inductive Analysis.Outcome (s : Source) : Analysis → Prop
  | unread {events : List Event} (h : s.parse.2.nonempty = true) :
    Outcome s ⟨s.parse.1, s.parse.2, false, events⟩
  | refused {p : Program} {f : TypeFault} {events : List Event} (h : s.Begins f.span) :
    Outcome s ⟨some p, ⟨[.ofFault s f], 1⟩, false, events⟩
  | checked {p : Program} {events : List Event} : Outcome s ⟨some p, .empty, true, events⟩

theorem analyze_outcome (s : Source) : Analysis.Outcome s (analyze s) := by
  cases hclean : s.parse.2.nonempty with
  | true =>
    have hskipped : analyze s =
        ⟨s.parse.1, s.parse.2, false, s.readingEvents ++ [.skipped s.parse.2.total]⟩ := by
      unfold analyze
      rcases hparse : s.parse with ⟨_ | p, ds⟩
      · rfl
      · rw [hparse] at hclean
        simp only [hclean]
    rw [hskipped]
    exact .unread hclean
  | false =>
    obtain ⟨hlex, p, hparse⟩ := Source.parse_eq_of_clean hclean
    have hp : (parse s.lex.tokens).program = some p := congrArg Prod.fst hparse
    have hempty : (Capped.empty : Diagnostics).nonempty = false := rfl
    unfold analyze
    rw [hparse]
    simp only [hempty]
    rcases hresult : (p.check .new).result with halt | _
    · cases halt with
      | fault f => exact .refused (Source.begins_of_check hlex hp hresult)
      | revisited => exact absurd hresult (Source.check_ne_revisited hp)
    · exact .checked

/-- The verdict on a source agrees with its diagnostics. The source passes the check exactly if
nothing is reported of it, and exactly then the verdict is a success. If something is reported, then
either all that is stored is about spelling and form, and no expression of the program has a type,
or it is one fault of another category in a program. Each stored diagnostic names the source and shows
the line on which it begins, which is one of those of the source. -/
theorem analyze_consistent (s : Source) :
    ((analyze s).typeChecked = true ↔ (analyze s).diagnostics.total = 0) ∧
    ((analyze s).diagnostics.total = 0 ↔ (Verdict.ofSource s).success = true) ∧
    ((analyze s).diagnostics.total ≠ 0 →
      ((∀ d ∈ (analyze s).diagnostics.kept, d.OfForm) ∧
        ∀ p, (analyze s).program = some p → Unfilled p.postorder) ∨
      ∃ d p, (analyze s).diagnostics = ⟨[d], 1⟩ ∧
        d.category ∈ [Category.type, .returns, .scope] ∧ (analyze s).program = some p) ∧
    ∀ d ∈ (analyze s).diagnostics.kept, d.ShownIn s := by
  have houtcome := analyze_outcome s
  rw [Verdict.ofSource, Verdict.new]
  generalize analyze s = a at houtcome ⊢
  cases houtcome with
  | unread h =>
    have htotal : s.parse.2.total ≠ 0 := by
      rw [Capped.nonempty, decide_eq_true_iff] at h
      omega
    refine ⟨by simp [htotal], by simp [h, htotal], fun _ => .inl ⟨fun d hd => ?_, fun p hp => ?_⟩,
      fun d hd => (Source.ofForm_of_mem_parse hd).2.2⟩
    · exact (Source.ofForm_of_mem_parse hd).1
    · exact parse_unfilled hp
  | @refused p f _ h =>
    refine ⟨by simp, by simp [Capped.nonempty], fun _ => .inr ?_, fun d hd => ?_⟩
    · exact ⟨.ofFault s f, p, rfl, Code.category_of_mem_ofMeaning _ f.cause.code_mem, rfl⟩
    · rw [List.mem_singleton.mp hd]
      exact Diagnostic.shownIn_ofFault h
  | checked =>
    refine ⟨by simp [Capped.empty], by simp [Capped.nonempty, Capped.empty], fun h => absurd rfl h,
      fun d hd => ?_⟩
    cases hd

/-- A stray character on the first line, and a type that is missing on the second. -/
def Source.strayMark : Source := ⟨"stray", "let a: int = 1 @\nlet b: = a"⟩

/-- A value of another type on the second line, which ends with a carriage return. -/
def Source.lateMismatch : Source := ⟨"late", "let a: int = 1\nlet b: int = true\r\n"⟩

/-- Both kinds of reports occur: two faults with a program without types, and one fault of type. -/
theorem strayMark_lateMismatch_reports :
    ((analyze .strayMark).diagnostics.total = 2 ∧ (analyze .strayMark).typeChecked = false ∧
      (∀ d ∈ (analyze .strayMark).diagnostics.kept, d.OfForm ∧ d.ShownIn .strayMark) ∧
      ∃ p, (analyze .strayMark).program = some p ∧ Unfilled p.postorder) ∧
    ∃ d, (analyze .lateMismatch).diagnostics = ⟨[d], 1⟩ ∧ d.category ≠ .form ∧
      d.ShownIn .lateMismatch ∧ d.sourceLine = "let b: int = true" := by
  refine ⟨?_, ?_⟩
  · have htotal : (analyze .strayMark).diagnostics.total = 2 := by decide +kernel
    have hsome : (analyze .strayMark).program.isSome = true := by decide +kernel
    obtain ⟨p, hp⟩ := Option.isSome_iff_exists.mp hsome
    obtain ⟨hchecked, -, hreports, hshown⟩ := analyze_consistent .strayMark
    rcases hreports (by omega) with ⟨hform, hunfilled⟩ | ⟨d, q, hone, -, -⟩
    · refine ⟨htotal, ?_, fun d hd => ⟨hform d hd, hshown d hd⟩, p, hp, hunfilled p hp⟩
      rw [← Bool.not_eq_true, hchecked]
      omega
    · rw [hone] at htotal
      cases htotal
  · have hlines : (analyze .lateMismatch).diagnostics.map (fun d => (d.category, d.sourceLine)) =
        ⟨[(.type, "let b: int = true")], 1⟩ := by decide +kernel
    obtain ⟨-, -, -, hshown⟩ := analyze_consistent .lateMismatch
    generalize (analyze .lateMismatch).diagnostics = ds at hlines hshown
    obtain ⟨kept, total⟩ := ds
    obtain ⟨hkept, htotal⟩ := Capped.mk.inj hlines
    obtain ⟨d, rfl, hd⟩ := List.map_eq_singleton_iff.mp hkept
    obtain ⟨hcategory, hline⟩ := Prod.mk.inj hd
    refine ⟨d, congrArg _ htotal, ?_, hshown d List.mem_cons_self, hline⟩
    rw [hcategory]
    decide

end RecordLang
