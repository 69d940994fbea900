import RecordLang.Proofs.Program.Depth

/-!
# The limit on nesting

A program is read without a fault exactly if it takes no more levels than there are. Its depth may be
greater than that, but not without bound: it is at most 13734 (`parse_within_levels`), and there are
programs of that depth (`exists_parse_depth_eq`).
-/

namespace RecordLang

/-! ### Long chains -/

def Expr.one : Expr := .new (.literal (.int 1)) default

theorem Reads.one {ks : List Kind} (h : EndsBefore 0 ks) : Reads .unary 0 (.int 1 :: ks) .one ks :=
  (Reads.literal rfl).unary h

/-- The operator and a one behind it, so many times. -/
def Operator.ones (op : Operator) : Nat → List Kind
  | 0 => []
  | n + 1 => op.kind :: .int 1 :: op.ones n

/-- An expression with the operator and a one behind it, so many times. -/
def Operator.onto (op : Operator) (e : Expr) : Nat → Expr
  | 0 => e
  | n + 1 => op.onto (.new (op.form e .one) default) n

theorem Operator.endsBefore_ones (op : Operator) (n : Nat) {ks : List Kind}
    (h : EndsBefore op.level ks) : EndsBefore op.level (op.ones n ++ ks) := by
  cases n with
  | zero => exact h
  | succ n => exact ⟨_, _, rfl, op.ends_kind⟩

theorem Reads.onto (op : Operator) (left : Expr) (n : Nat) {ks : List Kind}
    (h : EndsBefore (op.level + 1) ks) :
    Reads (.chain op.level left) n (op.ones n ++ ks) (op.onto left n) ks := by
  induction n generalizing left with
  | zero =>
    obtain ⟨k, ks', rfl, hk⟩ := h
    exact .chainNil (hk.noOperator _ (Nat.lt_succ_self _))
  | succ n ih =>
    have hends := op.endsBefore_ones n (h.mono (Nat.le_succ _))
    have hone := (Reads.one (hends.mono (Nat.zero_le _))).operand op.level hends
    have hat : Operator.at? op.level op.kind = some op := by rw [op.at?_kind, if_pos rfl]
    have hall := Reads.chainCons hat hone (ih (.new (op.form left .one) default))
    rwa [Nat.zero_max] at hall

theorem Operator.depth_onto (op : Operator) (e : Expr) (n : Nat) :
    (op.onto e n).depth = e.depth + n := by
  induction n generalizing e with
  | zero => rfl
  | succ n ih =>
    have hone : Expr.one.depth = 0 := rfl
    rw [onto, ih, op.depth_form, hone]
    omega

/-! ### Chains of all levels around one another -/

/-- Some operator of each level. -/
def Operator.sample : Nat → Operator
  | 0 => .binary .mul
  | 1 => .binary .add
  | 2 => .binary .less
  | 3 => .binary .eq
  | 4 => .logical .and_
  | _ => .logical .or_

theorem Operator.level_sample {l : Nat} (h : l < levels) : (sample l).level = l := by
  unfold levels at h
  obtain rfl | rfl | rfl | rfl | rfl | rfl : l = 0 ∨ l = 1 ∨ l = 2 ∨ l = 3 ∨ l = 4 ∨ l = 5 := by omega
  all_goals rfl

/-- The operators of the levels below one, each level as often as it is counted. -/
def ladder (counts : Nat → Nat) : Nat → List Kind
  | 0 => []
  | l + 1 => ladder counts l ++ (Operator.sample l).ones (counts l)

def Expr.climb (counts : Nat → Nat) (e : Expr) : Nat → Expr
  | 0 => e
  | l + 1 => (Operator.sample l).onto (e.climb counts l) (counts l)

/-- The levels of all that together. -/
def peak (counts : Nat → Nat) (m : Nat) : Nat → Nat
  | 0 => m
  | l + 1 => max (peak counts m l) (counts l)

theorem Reads.climb {counts : Nat → Nat} {m l : Nat} {ks ks' : List Kind} {e : Expr}
    (h : Reads .unary m ks e (ladder counts l ++ ks')) (hl : l ≤ Operator.levels)
    (hend : EndsBefore l ks') :
    Reads (.operand l) (peak counts m l) ks (e.climb counts l) ks' := by
  induction l generalizing ks' with
  | zero => exact .operandZero h
  | succ l ih =>
    have hlevel := Operator.level_sample hl
    have hones := (Operator.sample l).endsBefore_ones (counts l)
      (by rw [hlevel]; exact hend.mono (Nat.le_succ l))
    rw [ladder, List.append_assoc] at h
    have hfirst := ih h (Nat.le_of_succ_le hl) (by rwa [hlevel] at hones)
    have hchain := Reads.onto (Operator.sample l) (e.climb counts l) (counts l)
      (by rw [hlevel]; exact hend)
    rw [hlevel] at hchain
    exact hfirst.operandSucc hchain

theorem peak_const (m l : Nat) : peak (fun _ => m) m l = m := by
  induction l with
  | zero => rfl
  | succ l ih => rw [peak, ih, Nat.max_self]

theorem Expr.depth_climb (n : Nat) (e : Expr) (l : Nat) :
    (e.climb (fun _ => n) l).depth = e.depth + l * n := by
  induction l with
  | zero => rw [climb, Nat.zero_mul, Nat.add_zero]
  | succ l ih => rw [climb, Operator.depth_onto, ih, Nat.succ_mul, Nat.add_assoc]

theorem endsBefore_ladder (counts : Nat → Nat) (l : Nat) (hl : l ≤ Operator.levels) {ks : List Kind}
    (h : EndsBefore l ks) : EndsBefore 0 (ladder counts l ++ ks) := by
  induction l generalizing ks with
  | zero => exact h
  | succ l ih =>
    rw [ladder, List.append_assoc]
    refine ih (Nat.le_of_succ_le hl) ?_
    have hones := (Operator.sample l).endsBefore_ones (counts l)
      (by rw [Operator.level_sample hl]; exact h.mono (Nat.le_succ l))
    rwa [Operator.level_sample hl] at hones

/-! ### The deepest program -/

/-- Accesses to a member `x`, one behind the other. -/
def accesses : Nat → List Kind
  | 0 => []
  | n + 1 => .symbol .dot :: .ident "x" :: accesses n

def Expr.accessed (e : Expr) : Nat → Expr
  | 0 => e
  | n + 1 => (Expr.new (.get e ⟨"x", default⟩) default).accessed n

theorem Reads.accessed (e : Expr) (n : Nat) {ks : List Kind} (h : EndsBefore 0 ks) :
    Reads (.suffixes e) n (accesses n ++ ks) (e.accessed n) ks := by
  induction n generalizing e with
  | zero =>
    obtain ⟨k, ks', rfl, hk⟩ := h
    exact .suffixesNil hk.noCall hk.noGet
  | succ n ih => exact .get (x := ⟨"x", default⟩) (ih _)

theorem Expr.depth_accessed (e : Expr) (n : Nat) : (e.accessed n).depth = e.depth + n := by
  induction n generalizing e with
  | zero => rfl
  | succ n ih =>
    have hget : (Expr.new (.get e ⟨"x", default⟩) default).depth = e.depth + 1 := rfl
    rw [accessed, ih, hget]
    omega

/-- An expression that is as deep as so many levels allow. What is inside it is a group, and the
accesses and the operators of all levels behind the group are as many as there are levels. -/
def deepKinds : Nat → List Kind
  | 0 => [.int 1]
  | m + 1 => .symbol .openParen :: (deepKinds m ++ .symbol .closeParen ::
      (accesses (m + 1) ++ ladder (fun _ => m + 1) Operator.levels))

def Expr.deep : Nat → Expr
  | 0 => .one
  | m + 1 => ((Expr.new (.group (deep m)) default).accessed (m + 1)).climb (fun _ => m + 1)
      Operator.levels

theorem Reads.deep (m : Nat) {ks : List Kind} (h : EndsBefore Operator.levels ks) :
    Reads (.operand Operator.levels) m (deepKinds m ++ ks) (.deep m) ks := by
  induction m generalizing ks with
  | zero => exact (Reads.one (h.mono (Nat.zero_le _))).operand _ h
  | succ m ih =>
    have hladder := endsBefore_ladder (fun _ => m + 1) _ (Nat.le_refl _) h
    have hclose : EndsBefore Operator.levels (.symbol .closeParen :: (accesses (m + 1) ++
        (ladder (fun _ => m + 1) Operator.levels ++ ks))) :=
      ⟨_, _, rfl, nofun, nofun, fun _ _ => rfl⟩
    -- the group takes one level more than what is inside, the accesses and chains as many as that
    have hgroup := @Reads.group _ _ _ _ default (.expression (ih hclose))
    have hunary := hgroup.suffixed (.accessed _ (m + 1) hladder)
    rw [Nat.max_self] at hunary
    have hks : deepKinds (m + 1) ++ ks = .symbol .openParen :: (deepKinds m ++ .symbol .closeParen ::
        (accesses (m + 1) ++ (ladder (fun _ => m + 1) Operator.levels ++ ks))) := by
      simp [deepKinds]
    have hall := hunary.climb (Nat.le_refl _) h
    rwa [peak_const, ← hks] at hall

theorem Expr.depth_deep (m : Nat) : (Expr.deep m).depth = Depth.operand Operator.levels m := by
  induction m with
  | zero => rfl
  | succ m ih =>
    have hgroup : (Expr.new (.group (deep m)) default).depth = (deep m).depth + 1 := rfl
    rw [deep, depth_climb, depth_accessed, hgroup, ih, ← Depth.expression_succ, Depth.operand,
      Depth.atom, if_neg (Nat.succ_ne_zero m), Nat.succ_mul]
    omega

/-- Kinds as tokens without places, up to the end of the text. -/
def tokensOf (ks : List Kind) : List Token := (ks ++ [Kind.eof]).map (⟨·, default⟩)

theorem kinds_tokensOf (ks : List Kind) : (Cursor.ofTokens (tokensOf ks)).kinds = ks ++ [.eof] := by
  have hmap : (tokensOf ks).map Token.kind = ks ++ [.eof] := by
    simp [tokensOf, Function.comp_def]
  rw [Cursor.kinds_ofTokens, hmap, if_pos List.getLast?_concat]

/-- An expression that takes two levels less than there are is read to its end. -/
theorem Reads.parsed_expression {m : Nat} {ks : List Kind} {e : Expr}
    (h : Reads (.operand Operator.levels) m (ks ++ [.eof]) e [.eof])
    (hm : m + 2 ≤ GrammarCause.maxNesting) :
    ∃ p, parse (tokensOf ks) = ⟨some p, .empty⟩ ∧ p.depth = e.depth + 1 := by
  have hprogram := h.program
  rw [← kinds_tokensOf] at hprogram
  obtain ⟨p, hp, hbody⟩ := hprogram.parsed.1 hm
  refine ⟨p, hp, ?_⟩
  rw [Program.depth, ← depthAll_unplaced, hbody, depthAll_unplaced]
  exact Nat.max_zero _

/-! ### Products and sums -/

/-- So many operators of the tightest level, and so many of the next. -/
def twoChains (n more : Nat) : Nat → Nat
  | 0 => n
  | 1 => more
  | _ => 0

/-- One, so many times by one, and then plus one so many times. -/
def factors (n more : Nat) : List Kind := .int 1 :: ladder (twoChains n more) Operator.levels

theorem reads_factors (n more : Nat) : ∃ e, e.depth = n + more ∧
    Reads (.operand Operator.levels) (max n more) (factors n more ++ [.eof]) e [.eof] := by
  have hend : EndsBefore Operator.levels [.eof] := ⟨_, _, rfl, Kind.ends_eof _⟩
  have hfirst := Reads.one (endsBefore_ladder (twoChains n more) _ (Nat.le_refl _) hend)
  have hall := hfirst.climb (Nat.le_refl _) hend
  have hpeak : peak (twoChains n more) 0 Operator.levels = max n more := by
    simp [peak, Operator.levels, twoChains]
  have hone : Expr.one.depth = 0 := rfl
  refine ⟨Expr.one.climb (twoChains n more) Operator.levels, ?_, hpeak ▸ hall⟩
  simp [Operator.levels, Expr.climb, Operator.depth_onto, twoChains, hone]

/-! ### Limits -/

/-- A program that is read without a fault takes at most as many levels as there are, and its depth
is at most 13734. What is in the grammar is read without a fault if it takes no more levels than there
are. If it takes more, and so if it is deeper than 13734, the first fault is that. -/
theorem parse_within_levels (tokens : List Token) :
    ((parse tokens).faults = .empty → ∃ p, (parse tokens).program = some p ∧
      p.levels ≤ GrammarCause.maxNesting ∧ p.depth ≤ 13734) ∧
    ∀ m ss rest,
      Reads (.statements .eof) m (Cursor.ofTokens tokens).kinds ss (.eof :: rest) →
      (levelsAll ss ≤ GrammarCause.maxNesting →
        ∃ p, parse tokens = ⟨some p, .empty⟩ ∧ unplacedAll p.body = unplacedAll ss) ∧
      (GrammarCause.maxNesting < levelsAll ss →
        ∃ f more, (parse tokens).faults.kept = f :: more ∧ f.cause.code = .tooDeep) ∧
      (13734 < depthAll ss → GrammarCause.maxNesting < levelsAll ss) := by
  have hbound := Depth.statement_maxNesting
  refine ⟨fun h => ?_, fun m ss rest h => ?_⟩
  · obtain ⟨p, rest, hp, m, hm, hreads⟩ := parse_reads h
    obtain rfl : p.levels = m := hreads.levels_eq
    refine ⟨p, hp, hm, Nat.le_trans hreads.depth_le ?_⟩
    exact hbound ▸ Depth.statement_mono hm
  · obtain rfl : levelsAll ss = m := h.levels_eq
    refine ⟨h.parsed.1, fun hm => ?_, fun hd => ?_⟩
    · obtain ⟨span, more, hf⟩ := h.parsed.2 hm
      exact ⟨_, more, hf, rfl⟩
    · -- within the limit the depth would be bounded
      refine Nat.lt_of_not_le fun hm => ?_
      have hle := Nat.le_trans h.depth_le (Depth.statement_mono hm)
      omega

/-- A program may be as deep as that. -/
theorem exists_parse_depth_eq :
    ∃ tokens p, parse tokens = ⟨some p, .empty⟩ ∧ p.depth = 13734 := by
  have hend : EndsBefore Operator.levels [.eof] := ⟨_, _, rfl, Kind.ends_eof _⟩
  obtain ⟨p, hp, hdepth⟩ := (Reads.deep 62 hend).parsed_expression (by decide)
  refine ⟨_, p, hp, ?_⟩
  rw [hdepth, Expr.depth_deep]
  decide +kernel

/-- A product of 63 ones is read within the limit, and one of 64 is refused. -/
theorem factors_within_levels :
    (parse (tokensOf (factors 62 0))).faults = .empty ∧
    (∃ p, (parse (tokensOf (factors 62 0))).program = some p ∧
      p.levels ≤ GrammarCause.maxNesting ∧ p.depth ≤ 13734) ∧
    ∃ f more, (parse (tokensOf (factors 63 0))).faults.kept = f :: more ∧
      f.cause.code = .tooDeep := by
  obtain ⟨e, -, h⟩ := reads_factors 62 0
  obtain ⟨e', -, h'⟩ := reads_factors 63 0
  have hlevels : levelsAll [.expr e default] = 64 := h.program.levels_eq
  have hlevels' : levelsAll [.expr e' default] = 65 := h'.program.levels_eq
  have hread := h.program
  have hread' := h'.program
  rw [← kinds_tokensOf] at hread hread'
  obtain ⟨p, hp, -⟩ := ((parse_within_levels _).2 _ _ _ hread).1 (by rw [hlevels]; decide)
  have hempty : (parse (tokensOf (factors 62 0))).faults = .empty := by rw [hp]
  refine ⟨hempty, (parse_within_levels _).1 hempty, ?_⟩
  exact ((parse_within_levels _).2 _ _ _ hread').2.1 (by rw [hlevels']; decide)

/-- The depth of a program may be greater than the limit: the operators of the sum are not counted
where the product is read. -/
theorem factors_deeper_than_limit : ∃ p, parse (tokensOf (factors 62 2)) = ⟨some p, .empty⟩ ∧
    p.depth = 65 ∧ GrammarCause.maxNesting < p.depth := by
  obtain ⟨e, he, hreads⟩ := reads_factors 62 2
  obtain ⟨p, hp, hdepth⟩ := hreads.parsed_expression (by decide)
  rw [he] at hdepth
  exact ⟨p, hp, hdepth, by rw [hdepth]; decide⟩

end RecordLang
