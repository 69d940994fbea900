import RecordLang.Proofs.Token.Joined

/-!
# Rounds of reading

Reading goes on in rounds. A round skips blanks and comments and makes one step at the first byte
behind them, whether the step finds a token or a fault; the next one starts where the step ends. The
tokens and the faults of an input are those of its rounds, in order (`Lexer.exists_tokens_eq`).
-/

namespace RecordLang

namespace Lexer

variable {i : Input} {faults faults' : Capped Fault}

/-- One round of reading: where it starts, and the first byte that is not skipped, with its position
and the bytes behind it. -/
structure Round where
  start : Input
  here : Position
  first : UInt8
  rest : List UInt8
  trim_start : start.trim = ⟨here, first :: rest⟩

namespace Round

/-- The step of a round. -/
def step (r : Round) : Step := Lexer.step r.here r.first r.rest

/-- The token of a round, if its step made one. -/
def token? (r : Round) : Option Token :=
  r.step.kind.map fun k => ⟨k, .between r.here r.step.next.here⟩

theorem length_next (r : Round) : r.step.next.rest.length < r.start.rest.length := by
  have htrim := r.start.length_trim
  rw [r.trim_start] at htrim
  exact Nat.lt_of_le_of_lt (length_step r.here r.first r.rest) htrim

end Round

/-- The rounds of reading an input, with the faults found before it. Once the store of faults is
full there are no more. -/
def rounds (i : Input) (faults : Capped Fault) : List Round :=
  if faults.full then []
  else
    match h : i.trim with
    | ⟨_, []⟩ => []
    | ⟨here, b :: rest⟩ =>
      let r : Round := ⟨i, here, b, rest, h⟩
      r :: rounds r.step.next (faults.pushAll r.step.faults)
termination_by i.rest.length
decreasing_by exact Round.length_next ⟨i, here, b, rest, h⟩

/-- Behind a gap there is nothing more to skip. -/
theorem Input.trim_trim (i : Input) : i.trim.trim = i.trim := by
  obtain ⟨gap, rest, hbytes, htrim, -, hblanks⟩ := exists_gap i.here i.rest
  have htrim' : i.trim = ⟨i.here.past gap, rest⟩ := htrim
  cases rest with
  | nil =>
    rw [htrim']
    rfl
  | cons b rest =>
    have hgap := trim_blanks (hblanks (List.cons_ne_nil b rest)) i.here (b :: rest)
    rw [← hbytes, ← htrim'] at hgap
    exact hgap.symm

/-- Skipping blanks first changes at most the position of the end of the text. -/
theorem tokens_trim {ts : List Token} {stop : Position}
    (h : tokens i faults = (ts ++ [⟨.eof, .point stop⟩], faults')) :
    ∃ stop', tokens i.trim faults = (ts ++ [⟨.eof, .point stop'⟩], faults') := by
  cases hfull : faults.full with
  | true =>
    rw [tokens, if_pos hfull] at h
    obtain ⟨hts, rfl⟩ := Prod.mk.inj h
    rcases List.append_eq_singleton_iff.mp hts.symm with ⟨rfl, -⟩ | ⟨-, hnil⟩
    · exact ⟨i.trim.here, by rw [tokens, if_pos hfull, List.nil_append]⟩
    · cases hnil
  | false => exact ⟨stop, by rw [tokens_congr hfull i.trim_trim, h]⟩

/-- The tokens of an input are those of its rounds, and so are the faults. -/
theorem exists_tokens_eq (i : Input) (faults : Capped Fault) : ∃ stop, tokens i faults =
    ((rounds i faults).filterMap Round.token? ++ [⟨.eof, .point stop⟩],
      faults.pushAll ((rounds i faults).flatMap fun r => r.step.faults)) := by
  fun_induction rounds i faults with
  | case1 i faults hfull => exact ⟨i.here, by rw [tokens, if_pos hfull]; rfl⟩
  | case2 i faults hfull here htrim =>
    exact ⟨here, tokens_eof (Bool.not_eq_true _ ▸ hfull) htrim⟩
  | case3 i faults hfull here b rest htrim r ih =>
    have hfull : faults.full = false := Bool.not_eq_true _ ▸ hfull
    have hstep : step here b rest = r.step := rfl
    obtain ⟨stop, hnext⟩ := ih
    rw [List.flatMap_cons, Capped.pushAll_append]
    cases hkind : r.step.kind with
    | none =>
      have htoken : r.token? = none := by rw [Round.token?, hkind, Option.map_none]
      obtain ⟨stop', hnext'⟩ := tokens_trim hnext
      exact ⟨stop', by
        rw [tokens_stray hfull htrim hstep hkind, hnext', List.filterMap_cons_none htoken]⟩
    | some k =>
      have htoken : r.token? = some ⟨k, .between here r.step.next.here⟩ := by
        rw [Round.token?, hkind, Option.map_some]
      exact ⟨stop, by
        rw [tokens_token hfull htrim hstep hkind, hnext, List.filterMap_cons_some htoken,
          List.cons_append]⟩

end Lexer

end RecordLang
