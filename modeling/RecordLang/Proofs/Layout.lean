import RecordLang.Analysis
import RecordLang.Proofs.Program.Layout
import RecordLang.Proofs.Token.Tiling
import RecordLang.Proofs.Typing.Agreement
import RecordLang.Proofs.Typing.Placeless
import RecordLang.Proofs.Typing.WellFormed

/-!
# Layout has no meaning

What a program means does not depend on where its tokens stand: reading, checking and analysis do
the same for two layouts of the same tokens (`layout_irrelevant`).
-/

namespace RecordLang

/-! ### Programs -/

theorem Ends.of_common {α : Type} {x y z : Except Halt α} (hx : Ends (Halt.Rel SameCause) Eq x z)
    (hy : Ends (Halt.Rel SameCause) Eq y z) : Ends (Halt.Rel SameCause) Eq x y := by
  cases hx with
  | ok ha =>
    cases hy with
    | ok hb => exact .ok (ha.trans hb.symm)
  | error he =>
    cases hy with
    | error hf =>
      cases he with
      | fault he =>
        cases hf with
        | fault hf => exact .error (.fault (he.trans hf.symm))
      | revisited =>
        cases hf
        exact .error .revisited

/-- Programs that are the same up to places are checked alike. -/
theorem Program.check_layout {p q : Program} (h : p.unplaced = q.unplaced) :
    Ends (Halt.Rel SameCause) Eq (p.check .new).result (q.check .new).result ∧
    (p.check .new).nodes.unplaced = (q.check .new).nodes.unplaced ∧
    (p.check .new).state.context = (q.check .new).state.context := by
  have hp := checkAll_unplaced p.body (c := .new) (d := .new) rfl
  have hq := checkAll_unplaced q.body (c := .new) (d := .new) rfl
  have hbody : unplacedAll p.body = unplacedAll q.body := congrArg Program.body h
  rw [hbody] at hp
  rw [p.check_result, q.check_result, p.check_nodes, q.check_nodes, p.check_context,
    q.check_context]
  refine ⟨hp.result.of_common hq.result, ?_, hp.context.trans hq.context.symm⟩
  exact congrArg (Program.mk · default) (hp.nodes.symm.trans hq.nodes)

/-! ### Diagnostics -/

namespace Diagnostic

/-- A diagnostic without its place and the line that is shown there. -/
def unplaced (d : Diagnostic) : Diagnostic := { d with span := default, sourceLine := "" }

/-- A diagnostic without its place, as one of a file. -/
def unplacedIn (file : String) (d : Diagnostic) : Diagnostic := { d.unplaced with file := file }

variable {α : Type} [Explained α] {s t : Source}

theorem unplaced_ofFault {f g : Located α} (h : f.cause = g.cause) :
    (ofFault s f).unplacedIn t.name = (ofFault t g).unplaced := by
  simp only [unplacedIn, unplaced, ofFault, inSource, new, h]

theorem map_unplaced {fs gs : Capped (Located α)}
    (h : fs.map Located.cause = gs.map Located.cause) :
    (fs.map (ofFault s)).map (unplacedIn t.name) = (gs.map (ofFault t)).map unplaced := by
  let ofCause (cause : α) : Diagnostic := (ofFault t ⟨cause, default⟩).unplaced
  calc (fs.map (ofFault s)).map (unplacedIn t.name)
      = (fs.map Located.cause).map ofCause := by
        rw [Capped.map_map, Capped.map_map]
        exact congrArg (fs.map ·) (funext fun f => unplaced_ofFault rfl)
    _ = (gs.map Located.cause).map ofCause := by rw [h]
    _ = (gs.map (ofFault t)).map unplaced := by
        rw [Capped.map_map, Capped.map_map]
        rfl

end Diagnostic

/-! ### Sources -/

section Sources

variable {s t : Source}

theorem Source.faults_eq_empty (h : s.lex.faults.nonempty = false) : s.lex.faults = .empty :=
  congrArg Prod.snd (Lexer.reads_tokens ⟨.origin, s.bytes⟩ h).tokens_eq

variable (hs : s.lex.faults.nonempty = false) (ht : t.lex.faults.nonempty = false)
  (h : s.lex.tokens.map Token.kind = t.lex.tokens.map Token.kind)
include hs ht h

theorem Source.parse_layout :
    s.parse.1.map Program.unplaced = t.parse.1.map Program.unplaced ∧
    s.parse.2.map (Diagnostic.unplacedIn t.name) = t.parse.2.map Diagnostic.unplaced := by
  obtain ⟨hprogram, hfaults⟩ := parse_unplaced h
  refine ⟨hprogram, ?_⟩
  have hmap := Diagnostic.map_unplaced (s := s) (t := t) hfaults
  rw [Source.parse, Source.parse, Source.lexDiagnostics, Source.lexDiagnostics, faults_eq_empty hs,
    faults_eq_empty ht, Capped.map_extend, Capped.map_extend, hmap]
  rfl

theorem Source.analyze_layout :
    (analyze s).program.map Program.unplaced = (analyze t).program.map Program.unplaced ∧
    (analyze s).typeChecked = (analyze t).typeChecked ∧
    (analyze s).diagnostics.map (Diagnostic.unplacedIn t.name) =
      (analyze t).diagnostics.map Diagnostic.unplaced := by
  obtain ⟨hprogram, hdiagnostics⟩ := Source.parse_layout hs ht h
  have hnonempty : s.parse.2.nonempty = t.parse.2.nonempty := by
    rw [← Capped.nonempty_map (Diagnostic.unplacedIn t.name), hdiagnostics, Capped.nonempty_map]
  unfold analyze
  generalize s.parse = x, t.parse = y at hprogram hdiagnostics hnonempty ⊢
  rcases x with ⟨_ | p, ds⟩ <;> rcases y with ⟨_ | q, es⟩
  · exact ⟨rfl, rfl, hdiagnostics⟩
  · cases hprogram
  · cases hprogram
  · obtain ⟨hresult, hnodes, -⟩ := Program.check_layout (Option.some.inj hprogram)
    cases hd : ds.nonempty with
    | true =>
      have he : es.nonempty = true := hnonempty.symm.trans hd
      simp only [hd, he]
      exact ⟨hprogram, trivial, hdiagnostics⟩
    | false =>
      have he : es.nonempty = false := hnonempty.symm.trans hd
      simp only [hd, he]
      generalize (p.check .new).result = x, (q.check .new).result = y at hresult ⊢
      cases hresult with
      | ok _ => exact ⟨congrArg some hnodes, rfl, hdiagnostics⟩
      | error hhalt =>
        cases hhalt with
        | revisited => exact ⟨congrArg some hnodes, rfl, hdiagnostics⟩
        | fault hcause =>
          refine ⟨congrArg some hnodes, rfl, ?_⟩
          rw [Capped.map_push, Capped.map_push, hdiagnostics, Diagnostic.unplaced_ofFault hcause]

end Sources

/-- Layout never influences meaning. Tokens of the same kinds are read into the same program up to
places, or into none, with faults of the same causes, and so of the same codes and messages.
Programs that are the same up to places are both accepted or both refused for the same cause; the
same types are written on their nodes, and the same declarations are left. Sources whose tokens have
the same kinds are analyzed alike, but for the places and the lines that are shown. -/
theorem layout_irrelevant :
    (∀ ts us : List Token, ts.map Token.kind = us.map Token.kind →
      (parse ts).program.map Program.unplaced = (parse us).program.map Program.unplaced ∧
      (parse ts).faults.map Located.cause = (parse us).faults.map Located.cause) ∧
    (∀ p q : Program, p.unplaced = q.unplaced →
      Ends (Halt.Rel SameCause) Eq (p.check .new).result (q.check .new).result ∧
      (p.check .new).nodes.unplaced = (q.check .new).nodes.unplaced ∧
      (p.check .new).state.context = (q.check .new).state.context) ∧
    (∀ s t : Source, s.lex.faults.nonempty = false → t.lex.faults.nonempty = false →
      s.lex.tokens.map Token.kind = t.lex.tokens.map Token.kind →
        (analyze s).program.map Program.unplaced = (analyze t).program.map Program.unplaced ∧
        (analyze s).typeChecked = (analyze t).typeChecked ∧
        (analyze s).diagnostics.map (Diagnostic.unplacedIn t.name) =
          (analyze t).diagnostics.map Diagnostic.unplaced) :=
  ⟨fun _ _ => parse_unplaced, fun _ _ => Program.check_layout, fun _ _ => Source.analyze_layout⟩

/-- A refused program on one line. -/
def Source.oneLine : Source := ⟨"one", "let a: int = true"⟩

/-- The same tokens on three lines, with a comment. -/
def Source.threeLines : Source := ⟨"three", "let a: // counts\n\tint\n=true"⟩

/-- A refused program, all of it at one place. -/
def Program.refusedAt (span : Span) : Program :=
  ⟨[.let_ ⟨"a", span⟩ (.named "int" false span) (some (.new (.literal (.bool true)) span)) span],
    span⟩

theorem Program.unplaced_refusedAt (span span' : Span) :
    (refusedAt span).unplaced = (refusedAt span').unplaced := rfl

/-- The tokens of the two layouts stand at different places and are found to mean the same, and so
is a refused program at two places. -/
theorem threeLines_meaning :
    let s := Source.oneLine
    let t := Source.threeLines
    let p := Program.refusedAt ⟨⟨1, 1⟩, ⟨1, 4⟩⟩
    let q := Program.refusedAt ⟨⟨2, 5⟩, ⟨3, 1⟩⟩
    s.lex.tokens ≠ t.lex.tokens ∧ s.lex.tokens.map Token.kind = t.lex.tokens.map Token.kind ∧
      (parse s.lex.tokens).program.map Program.unplaced =
        (parse t.lex.tokens).program.map Program.unplaced ∧
      (∃ f, (p.check .new).result = .error (.fault f)) ∧
      Ends (Halt.Rel SameCause) Eq (p.check .new).result (q.check .new).result ∧
      (analyze s).diagnostics.total = 1 ∧
      (analyze s).diagnostics.map (Diagnostic.unplacedIn t.name) =
        (analyze t).diagnostics.map Diagnostic.unplaced := by
  have hkinds : Source.oneLine.lex.tokens.map Token.kind =
      Source.threeLines.lex.tokens.map Token.kind := by decide +kernel
  obtain ⟨hparse, hcheck, hanalyze⟩ := layout_irrelevant
  exact ⟨by decide +kernel, hkinds, (hparse _ _ hkinds).1, ⟨_, rfl⟩,
    (hcheck _ _ (Program.unplaced_refusedAt _ _)).1, by decide +kernel,
    (hanalyze _ _ (by decide +kernel) (by decide +kernel) hkinds).2.2⟩

end RecordLang
