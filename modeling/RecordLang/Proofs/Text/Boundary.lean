import RecordLang.Proofs.Token.Spelling

/-!
# Boundaries of characters

A character is one byte that goes on with no other character and the bytes that go on with it. So
the bytes of a text that are cut in two are the bytes of two texts, if the cut is at an edge: before
a byte that goes on with nothing, or behind one of ASCII (`Text.encode_cut`).
-/

namespace RecordLang

namespace Text

variable {cs : List Char} {taken rest : List UInt8}

/-- The first byte of a character goes on with nothing, and the others go on with it. -/
theorem exists_utf8EncodeChar (c : Char) : ∃ b more, String.utf8EncodeChar c = b :: more ∧
    Byte.isContinuation b = false ∧ ∀ m ∈ more, Byte.isContinuation m = true := by
  have hcontinues : ∀ n < 256,
      Byte.isContinuation (UInt8.ofNat n) = decide (128 ≤ n ∧ n < 192) := by decide +kernel
  have hfirst : ∀ n, n < 128 ∨ 192 ≤ n → n < 256 →
      Byte.isContinuation (UInt8.ofNat n) = false := by
    intro n hn hlt
    rw [hcontinues n hlt, decide_eq_false_iff_not]
    omega
  have hmore : ∀ n, Byte.isContinuation (UInt8.ofNat (n % 64 + 128)) = true := by
    intro n
    rw [hcontinues _ (by omega), decide_eq_true_iff]
    omega
  unfold String.utf8EncodeChar
  dsimp only
  split
  · exact ⟨_, [], rfl, hfirst _ (by omega) (by omega), by simp⟩
  · split
    · exact ⟨_, _, rfl, hfirst _ (by omega) (by omega), List.forall_mem_singleton.mpr (hmore _)⟩
    · split
      · exact ⟨_, _, rfl, hfirst _ (by omega) (by omega),
          List.forall_mem_cons.mpr ⟨hmore _, List.forall_mem_singleton.mpr (hmore _)⟩⟩
      · exact ⟨_, _, rfl, hfirst _ (by omega) (by omega), List.forall_mem_cons.mpr
          ⟨hmore _, List.forall_mem_cons.mpr ⟨hmore _, List.forall_mem_singleton.mpr (hmore _)⟩⟩⟩

/-- Between what is taken and the rest no character goes on: the rest does not begin with a byte
that goes on with one, or what is taken ends with a byte of ASCII. -/
def Edge (taken rest : List UInt8) : Prop :=
  (∀ b ∈ rest.head?, Byte.isContinuation b = false) ∨ ∃ b ∈ taken.getLast?, b.toNat < 128

theorem edge_nil (taken : List UInt8) : Edge taken [] := .inl (by simp)

theorem edge_of_forall {b : UInt8} (h : ∀ b ∈ taken, b.toNat < 128) (hb : b ∈ taken) :
    Edge taken rest := by
  have hlast := List.getLast?_eq_some_getLast (List.ne_nil_of_mem hb)
  exact .inr ⟨_, hlast, h _ (List.getLast_mem _)⟩

theorem Edge.append_left (h : Edge taken rest) (before : List UInt8) :
    Edge (before ++ taken) rest := by
  refine h.imp id ?_
  rintro ⟨b, hb, hlt⟩
  have hb : taken.getLast? = some b := hb
  exact ⟨b, by rw [List.getLast?_append, hb]; rfl, hlt⟩

/-- Characters begin with a byte that goes on with nothing. -/
theorem isContinuation_head_encode (cs : List Char) :
    ∀ b ∈ (encode cs).head?, Byte.isContinuation b = false := by
  cases cs with
  | nil =>
    intro b hb
    cases hb
  | cons c cs =>
    obtain ⟨b, more, hc, hb, -⟩ := exists_utf8EncodeChar c
    intro x hx
    rw [encode_cons, hc, List.cons_append, List.head?_cons] at hx
    cases hx
    exact hb

theorem edge_encode (taken : List UInt8) (cs : List Char) : Edge taken (encode cs) :=
  .inl (isContinuation_head_encode cs)

/-- Bytes of characters that are cut at an edge are cut between two characters. -/
theorem encode_cut (h : encode cs = taken ++ rest) (hedge : taken = [] ∨ Edge taken rest) :
    ∃ as bs, cs = as ++ bs ∧ encode as = taken ∧ encode bs = rest := by
  induction cs generalizing taken with
  | nil =>
    obtain ⟨rfl, rfl⟩ := List.append_eq_nil_iff.mp h.symm
    exact ⟨[], [], rfl, rfl, rfl⟩
  | cons c cs ih =>
    cases taken with
    | nil => exact ⟨[], c :: cs, rfl, rfl, h⟩
    | cons t ts =>
      have hedge : Edge (t :: ts) rest := hedge.resolve_left (List.cons_ne_nil t ts)
      rw [encode_cons] at h
      rcases List.append_eq_append_iff.mp h with ⟨taken', htaken, hcs⟩ | ⟨left, hleft, rfl⟩
      · -- the first character is taken as a whole
        have hedge' : taken' = [] ∨ Edge taken' rest := by
          by_cases hne : taken' = []
          · exact .inl hne
          · refine .inr (hedge.imp id ?_)
            rw [htaken, List.getLast?_append, List.getLast?_eq_some_getLast hne, Option.some_or]
            exact id
        obtain ⟨as, bs, rfl, rfl, rfl⟩ := ih hcs hedge'
        exact ⟨c :: as, bs, rfl, encode_cons.trans htaken.symm, rfl⟩
      · cases left with
        | nil =>
          rw [List.append_nil] at hleft
          exact ⟨[c], cs, rfl, (encode_cons.trans (List.append_nil _)).trans hleft, rfl⟩
        | cons l left =>
          -- a part of the first character is left, so there is no edge
          obtain ⟨b, more, hc, -, hmore⟩ := exists_utf8EncodeChar c
          obtain ⟨rfl, rfl⟩ := List.cons.inj (hc.symm.trans hleft)
          rcases hedge with hhead | ⟨x, hx, hlt⟩
          · have hl : Byte.isContinuation l = true := hmore l (by simp)
            rw [hhead l rfl] at hl
            cases hl
          · have hmem : x ∈ String.utf8EncodeChar c := by
              rw [hleft]
              exact List.mem_append_left _ (List.mem_of_getLast? hx)
            rw [utf8EncodeChar_of_lt (mem_utf8EncodeChar hmem hlt).2] at hleft
            simp at hleft

end Text

end RecordLang
