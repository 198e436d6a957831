/-
  RefineCheck.Proofs.Mark.Backward

  Backward marks ask for enough. The marks of operands lie on unknown bits only, and once the
  marked bits of the operands are known, whatever else is refined, the marked bits of the
  result are known. So a mark of a result that is not yet known asks for some bit of an
  operand.
-/

import Mathlib
import RefineCheck.Proofs.Domain.Monotone
import RefineCheck.Proofs.Mark.Operations
import RefineCheck.Proofs.State.Key
import RefineCheck.Proofs.Ternary.Unknown

namespace RefineCheck

/-! ## Unknown bits of values -/

theorem Word.eq_zero_iff {w : Nat} {x : BitVec w} : x = 0 ↔ {k | x.getLsbD k = true} = ∅ := by
  rw [Set.eq_empty_iff_forall_notMem]
  constructor
  · rintro rfl k hk
    simp at hk
  · intro h
    by_contra hne
    exact h _ (getLsbD_highestBit hne)

/-- The positions of the bits that are unknown in the three-valued part of a value. -/
def Value.unknown (v : Value) : Set Nat := {k | v.val.bits.unknown.getLsbD k = true}

namespace Reduced

variable {w v k : Nat} {a b : Reduced w}

/-- A reduction makes no bit unknown. -/
theorem unknown_of_reduce? {bits : Ternary w} {ranges : SplitRange w} {r : Reduced w}
    (h : reduce? bits ranges = some r) (hk : r.bits.unknown.getLsbD k = true) :
    bits.unknown.getLsbD k = true :=
  Ternary.unknown_mono (Ternary.contains_iff.2 fun _ hx => bits_of_reduce? h hx) hk

theorem unknown_of_reduce {bits : Ternary w} {ranges : SplitRange w} {r : Reduced w}
    (h : reduce bits ranges = .ok r) (hk : r.bits.unknown.getLsbD k = true) :
    bits.unknown.getLsbD k = true :=
  unknown_of_reduce? (reduce?_of_reduce h) hk

/-- A comparison may have both outcomes only if both are admitted by the three-valued words. -/
theorem unknown_of_truth {bits : Ternary 1} {ranges : SplitRange 1} {r : Reduced 1}
    (h : truth bits ranges = .ok r) (hk : r.bits.unknown.getLsbD k = true) :
    bits.unknown.getLsbD k = true := by
  have hset : ∀ x : BitVec 1, x ≠ 0 → x.getLsbD 0 = true := by decide
  obtain rfl : k = 0 := by
    have := BitVec.lt_of_getLsbD hk
    omega
  rw [truth] at h
  split at h
  · obtain rfl := Except.ok.inj h
    simp only [Ternary.unknown, Ternary.truth, BitVec.getLsbD_and, BitVec.getLsbD_ofBool,
      Bool.and_eq_true, decide_true, true_and] at hk
    -- both outcomes are left, so the bits exclude neither
    obtain ⟨⟨hfalse, -⟩, htrue, -⟩ := hk
    simp only [Ternary.canBeFalse, Ternary.canBeTrue, Bool.or_eq_true, bne_iff_ne, beq_iff_eq]
      at hfalse htrue
    rw [Ternary.unknown, BitVec.getLsbD_and, hset _ htrue, Bool.and_true]
    exact hset _ (hfalse.resolve_right (by decide))
  · cases h

end Reduced

/-! ## Unknown bits of results

Operators succeed on built values, and no bit of their result is unknown that is known in the
result of the three-valued parts. -/

namespace Value

variable {w v : Nat} {a b : Reduced w}

theorem unary_unknown (op : UnaryOp) (ha : a.Built) :
    ∃ r : Reduced w, Sized.unary op ⟨w, a⟩ = .ok ⟨w, r⟩ ∧
      ∀ k ∈ Value.unknown ⟨w, r⟩, (a.bits.unary op).unknown.getLsbD k = true := by
  obtain ⟨r, hr, -⟩ := Reduced.unary_ok op ha.tight
  exact ⟨r, Sized.unary_ok hr, fun _ hk => Reduced.unknown_of_reduce hr hk⟩

theorem extend_unknown (op : ExtendOp) (ha : a.Built) (hv : v ≤ Word.maxWidth) :
    ∃ r : Reduced v, Sized.extend op ⟨w, a⟩ v = .ok ⟨v, r⟩ ∧
      ∀ k ∈ Value.unknown ⟨v, r⟩, (Ternary.extend op a.bits v).unknown.getLsbD k = true := by
  obtain ⟨r, hr, -⟩ := Reduced.extend_ok op ha.tight v
  exact ⟨r, Sized.extend_ok hv hr, fun _ hk => Reduced.unknown_of_reduce hr hk⟩

theorem binary_unknown (op : BinaryOp) (ha : a.Built) (hb : b.Built) :
    ∃ r : Reduced w, Sized.binary op ⟨w, a⟩ ⟨w, b⟩ = .ok ⟨w, r⟩ ∧
      ∀ k ∈ Value.unknown ⟨w, r⟩, (Ternary.binary op a.bits b.bits).unknown.getLsbD k = true := by
  obtain ⟨r, hr, -⟩ := Reduced.binary_ok op ha.tight hb.tight
  exact ⟨r, Sized.binary_ok hr, fun _ hk => Reduced.unknown_of_reduce hr hk⟩

theorem compare_unknown (op : CompareOp) (ha : a.Built) (hb : b.Built) :
    ∃ r : Reduced 1, Sized.compare op ⟨w, a⟩ ⟨w, b⟩ = .ok ⟨1, r⟩ ∧
      ∀ k ∈ Value.unknown ⟨1, r⟩, (Ternary.compare op a.bits b.bits).unknown.getLsbD k = true := by
  obtain ⟨r, hr, -⟩ := Reduced.compare_ok op ha.tight hb.tight
  exact ⟨r, Sized.compare_ok hr, fun _ hk => Reduced.unknown_of_truth hr hk⟩

theorem divide_unknown (op : DivideOp) (ha : a.Built) (hb : b.Built) :
    ∃ (p : Reduced panicWidth) (r : Reduced w),
      Sized.divide op ⟨w, a⟩ ⟨w, b⟩ = .ok (⟨panicWidth, p⟩, ⟨w, r⟩) ∧
      (∀ k ∈ Value.unknown ⟨panicWidth, p⟩,
        (Ternary.divide op a.bits b.bits).panic.unknown.getLsbD k = true) ∧
      ∀ k ∈ Value.unknown ⟨w, r⟩,
        (Ternary.divide op a.bits b.bits).result.unknown.getLsbD k = true := by
  obtain ⟨d, hd, -⟩ := Reduced.divide_ok op ha.tight hb.tight
  obtain ⟨hpanic, hresult⟩ := Reduced.divide_eq_ok op hd
  exact ⟨d.panic, d.result, Sized.divide_ok hd, fun _ hk => Reduced.unknown_of_reduce? hpanic hk,
    fun _ hk => Reduced.unknown_of_reduce hresult hk⟩

theorem unknown_eq_empty_iff {a : Value} : a.unknown = ∅ ↔ a.val.bits.unknown = 0 :=
  Word.eq_zero_iff.symm

/-- A value has no unknown bits if all of them come from a three-valued word without any. -/
theorem unknown_eq_empty_of {a : Value} {bits : Ternary v} (hbits : bits.unknown = 0)
    (h : ∀ k ∈ a.unknown, bits.unknown.getLsbD k = true) : a.unknown = ∅ := by
  refine Set.eq_empty_iff_forall_notMem.2 fun k hk => ?_
  have hk' := h k hk
  rw [hbits] at hk'
  simp at hk'

end Value

namespace Marking

/-! ## Sufficient marks -/

/-- A mark of an operand: it has the width of the operand and asks for unknown bits only. -/
structure Asks (a : Value) (m : Marking) : Prop where
  width : m.width = a.width
  marked : m.marked ⊆ a.unknown

/-- A refinement of an operand in which every marked bit is known. -/
structure Answers (a : Value) (m : Marking) (a' : Value) : Prop where
  built : a'.Built
  contained : a.contains a' = .ok true
  known : Disjoint m.marked a'.unknown

/-- Whether an operation returns a value in which every marked bit is known. -/
def Settles (later : Marking) (result : Except Fault Value) : Prop :=
  ∃ r, result = .ok r ∧ Disjoint later.marked r.unknown

/-- A mark of an operand that is sufficient for a mark of the result. -/
structure Sufficient (forward : Value → Except Fault Value) (a : Value) (later m : Marking) :
    Prop where
  asks : Asks a m
  settles {a' : Value} : Answers a m a' → later.Settles (forward a')
  culprit {r : Value} : forward a = .ok r → ¬ Disjoint later.marked r.unknown → m.isMarked = true

/-- Marks of two operands that are sufficient for a mark of the result, where only some pairs of
    operands are meant. -/
structure SufficientFor (Meant : Value → Value → Prop)
    (forward : Value → Value → Except Fault Value) (a b : Value) (later : Marking)
    (marks : Marking × Marking) : Prop where
  left : Asks a marks.1
  right : Asks b marks.2
  settles {a' b' : Value} : Answers a marks.1 a' → Answers b marks.2 b' → Meant a' b' →
    later.Settles (forward a' b')
  culprit {r : Value} : Meant a b → forward a b = .ok r → ¬ Disjoint later.marked r.unknown →
    marks.1.isMarked = true ∨ marks.2.isMarked = true

/-- Marks of two operands that are sufficient for all operands. -/
abbrev SufficientBoth := SufficientFor fun _ _ => True

variable {a b a' b' : Value} {later m : Marking} {marks : Marking × Marking} {k : Nat}

theorem contains_eq_true (h : a.contains a' = .ok true) :
    a'.width = a.width ∧ a'.unknown ⊆ a.unknown := by
  obtain ⟨w, a⟩ := a
  obtain ⟨v, a'⟩ := a'
  obtain rfl : v = w := Value.width_of_contains h
  have hbits := (Reduced.contains_iff.1 (Value.contains_iff.1 h)).1
  exact ⟨rfl, fun k hk => Ternary.unknown_mono hbits hk⟩

theorem Answers.width (h : Answers a m a') : a'.width = a.width := (contains_eq_true h.contained).1

/-- What is marked is known, and the rest was known before. -/
theorem Answers.unknown_eq_empty (h : Answers a m a') (hm : m.marked = a.unknown) :
    a'.unknown = ∅ := by
  have hdisjoint := h.known
  rw [hm] at hdisjoint
  exact hdisjoint.symm.eq_bot_of_le (contains_eq_true h.contained).2

theorem marked_eq_empty_iff : m.marked = ∅ ↔ m.isMarked = false := by
  rw [isMarked, Mark.isMarked, bne_eq_false_iff_eq, Word.eq_zero_iff]
  rfl

/-- An operand without marks answers its mark itself. -/
theorem answers_self (ha : a.Built) (h : m.isMarked = false) : Answers a m a :=
  ⟨ha, a.contains_self, by rw [marked_eq_empty_iff.2 h]; exact Set.empty_disjoint _⟩

theorem sufficient_of_settles {forward : Value → Except Fault Value} (ha : a.Built) (asks : Asks a m)
    (settles : ∀ a', Answers a m a' → later.Settles (forward a')) :
    Sufficient forward a later m where
  asks
  settles h := settles _ h
  culprit hr hunknown := by
    -- an operand without marks settles the result as it is
    by_contra hm
    obtain ⟨r', hr', hknown⟩ := settles a (answers_self ha (Bool.eq_false_iff.2 hm))
    rw [Except.ok.inj (hr.symm.trans hr')] at hunknown
    exact hunknown hknown

theorem sufficientFor_of_settles {Meant : Value → Value → Prop}
    {forward : Value → Value → Except Fault Value} (ha : a.Built) (hb : b.Built)
    (left : Asks a marks.1) (right : Asks b marks.2)
    (settles : ∀ a' b', Answers a marks.1 a' → Answers b marks.2 b' → Meant a' b' →
      later.Settles (forward a' b')) : SufficientFor Meant forward a b later marks where
  left
  right
  settles h h' hmeant := settles _ _ h h' hmeant
  culprit hmeant hr hunknown := by
    by_contra hm
    rw [not_or, Bool.not_eq_true, Bool.not_eq_true] at hm
    obtain ⟨r', hr', hknown⟩ := settles a b (answers_self ha hm.1) (answers_self hb hm.2) hmeant
    rw [Except.ok.inj (hr.symm.trans hr')] at hunknown
    exact hunknown hknown

/-! ## Marked bits of operands -/

theorem mem_marked_limit {w : Nat} {m : Mark w} {a : Reduced w} :
    k ∈ Marking.marked ⟨w, m.limit a⟩ ↔ k ∈ Marking.marked ⟨w, m⟩ ∧ k ∈ Value.unknown ⟨w, a⟩ := by
  simp [marked, Value.unknown, Mark.limit]

/-- Every unknown bit is marked where all bits reach the result. -/
theorem marked_back (h : later.isMarked = true) : (Marking.back a later).marked = a.unknown := by
  ext k
  have hlater : later.val.isMarked = true := h
  rw [Marking.back, Mark.back, if_pos hlater, mem_marked_limit]
  refine and_iff_right_of_imp fun hk => ?_
  have hlt : k < a.width := BitVec.lt_of_getLsbD hk
  simp [marked, Mark.all, hlt]

theorem asks_back (a : Value) (later : Marking) : Asks a (Marking.back a later) := by
  refine ⟨rfl, ?_⟩
  cases h : later.isMarked with
  | true => exact (marked_back h).subset
  | false =>
    have hlater : later.val.isMarked = false := h
    intro k hk
    simp [marked, Marking.back, Mark.back, hlater, Mark.unmarked] at hk

/-- Marks are sufficient for an operation that has a known result for known operands. -/
theorem sufficientBoth_back {forward : Value → Value → Except Fault Value} (ha : a.Built)
    (hb : b.Built) (hw : b.width = a.width)
    (hforward : ∀ {w : Nat} {x y : Reduced w}, x.Built → y.Built → ∃ r,
      forward ⟨w, x⟩ ⟨w, y⟩ = .ok r ∧ (x.bits.unknown = 0 → y.bits.unknown = 0 → r.unknown = ∅)) :
    SufficientBoth forward a b later (backArith a b later) := by
  refine sufficientFor_of_settles ha hb (asks_back a later) (asks_back b later) ?_
  intro a' b' h h' _
  obtain ⟨w, x⟩ := a'
  obtain ⟨v, y⟩ := b'
  obtain rfl : v = w := h'.width.trans (hw.trans h.width.symm)
  obtain ⟨r, hr, hknown⟩ := hforward h.built.val h'.built.val
  refine ⟨r, hr, ?_⟩
  cases hm : later.isMarked with
  | false =>
    rw [marked_eq_empty_iff.2 hm]
    exact Set.empty_disjoint _
  | true =>
    -- everything that was unknown in the operands is marked, so nothing is left
    have hx := Value.unknown_eq_empty_iff.1 (h.unknown_eq_empty (marked_back hm))
    have hy := Value.unknown_eq_empty_iff.1 (h'.unknown_eq_empty (marked_back hm))
    rw [hknown hx hy]
    exact Set.disjoint_empty _

theorem sufficient_neg (ha : a.Built) : Sufficient (Sized.unary .neg) a later (back a later) := by
  refine sufficient_of_settles ha (asks_back a later) fun a' h => ?_
  obtain ⟨r, hr, hunknown⟩ := Value.unary_unknown .neg h.built.val
  refine ⟨_, hr, ?_⟩
  cases hm : later.isMarked with
  | false =>
    rw [marked_eq_empty_iff.2 hm]
    exact Set.empty_disjoint _
  | true =>
    have hx := Value.unknown_eq_empty_iff.1 (h.unknown_eq_empty (marked_back hm))
    rw [Value.unknown_eq_empty_of (Ternary.unary_known .neg hx) hunknown]
    exact Set.disjoint_empty _

/-! ## Bits that keep their place -/

theorem limit_ok (h : later.width = a.width) : ∃ m, later.limit a = .ok m ∧ Asks a m ∧
    ∀ k ∈ later.marked, k ∈ a.unknown → k ∈ m.marked := by
  obtain ⟨w, a⟩ := a
  obtain ⟨v, later⟩ := later
  obtain rfl : v = w := h
  exact ⟨⟨v, later.limit a⟩, dif_pos rfl, ⟨rfl, fun k hk => (mem_marked_limit.1 hk).2⟩,
    fun k hk hu => mem_marked_limit.2 ⟨hk, hu⟩⟩

/-- A bit that is marked if it was unknown is known. -/
theorem Answers.notMem_unknown (h : Answers a m a') (hk : k ∈ a.unknown → k ∈ m.marked) :
    k ∉ a'.unknown := fun hu =>
  Set.disjoint_left.1 h.known (hk ((contains_eq_true h.contained).2 hu)) hu

theorem sufficient_not (ha : a.Built) (hw : later.width = a.width) :
    ∃ m, backNot a later = .ok m ∧ Sufficient (Sized.unary .not) a later m := by
  obtain ⟨m, hm, hasks, hmarked⟩ := limit_ok hw
  refine ⟨m, hm, sufficient_of_settles ha hasks fun a' h => ?_⟩
  obtain ⟨r, hr, hunknown⟩ := Value.unary_unknown .not h.built.val
  refine ⟨_, hr, Set.disjoint_left.2 fun k hk hkr => ?_⟩
  have hbit : a'.val.bits.not.unknown.getLsbD k = true := hunknown k hkr
  rw [Ternary.unknown_not] at hbit
  exact h.notMem_unknown (hmarked k hk) hbit

theorem sufficientBoth_bitwise {op : BinaryOp} (hop : op = .and ∨ op = .or ∨ op = .xor)
    (ha : a.Built) (hb : b.Built) (hw : b.width = a.width) (hlater : later.width = a.width) :
    ∃ marks, backBitwise a b later = .ok marks ∧
      SufficientBoth (Sized.binary op) a b later marks := by
  obtain ⟨m, hm, hasks, hmarked⟩ := limit_ok hlater
  obtain ⟨n, hn, hasks', hmarked'⟩ := limit_ok (hlater.trans hw.symm)
  refine ⟨(m, n), ?_, sufficientFor_of_settles ha hb hasks hasks' ?_⟩
  · rw [backBitwise, hm, hn]
    rfl
  intro a' b' h h' _
  obtain ⟨w, x⟩ := a'
  obtain ⟨v, y⟩ := b'
  obtain rfl : v = w := h'.width.trans (hw.trans h.width.symm)
  obtain ⟨r, hr, hunknown⟩ := Value.binary_unknown op h.built.val h'.built.val
  refine ⟨_, hr, Set.disjoint_left.2 fun k hk hkr => ?_⟩
  rcases Ternary.unknown_bitwise hop (hunknown k hkr) with hx | hy
  · exact h.notMem_unknown (hmarked k hk) hx
  · exact h'.notMem_unknown (hmarked' k hk) hy

/-! ## Changes of width -/

/-- A number that has a bit at a position is not zero when it is shifted less far. -/
theorem shiftRight_ne_zero {w n : Nat} {x : BitVec w} (hk : x.getLsbD k = true) (hn : n ≤ k) :
    x.toNat >>> n ≠ 0 := by
  intro hzero
  have hbit := Nat.testBit_shiftRight (i := n) (j := k - n) x.toNat
  rw [hzero, Nat.add_sub_cancel' hn, Nat.zero_testBit] at hbit
  exact Bool.false_ne_true (hbit.trans hk)

/-- Marks go to the bits that sign extension copies. -/
theorem mem_marked_backSext {w v : Nat} {a : Reduced w} {later : Mark v}
    (hk : later.bits.getLsbD k = true)
    (hu : (if k < w then k else w - 1) ∈ Value.unknown ⟨w, a⟩) :
    (if k < w then k else w - 1) ∈ Marking.marked ⟨w, Mark.backSext a later⟩ := by
  refine mem_marked_limit.2 ⟨?_, hu⟩
  have hlt : (if k < w then k else w - 1) < w := BitVec.lt_of_getLsbD hu
  by_cases hkw : k < w
  · simp [marked, hkw, hk]
  · -- a mark beyond the operand is on a copy of the sign bit
    rw [if_neg hkw] at hlt ⊢
    have hadded := shiftRight_ne_zero hk (Nat.le_of_not_lt hkw)
    simp [marked, hadded, BitVec.getLsbD_intMin]
    omega

/-- A bit that is extended or truncated comes from the same bit, or from the sign bit. -/
theorem sufficient_extend (op : ExtendOp) (ha : a.Built) (hlater : later.width ≤ Word.maxWidth) :
    Sufficient (fun a' => Sized.extend op a' later.width) a later (backExtend op a later) := by
  obtain ⟨w, a⟩ := a
  obtain ⟨u, later⟩ := later
  have hasks : Asks ⟨w, a⟩ (backExtend op ⟨w, a⟩ ⟨u, later⟩) := by
    cases op <;> exact ⟨rfl, fun k hk => (mem_marked_limit.1 hk).2⟩
  refine sufficient_of_settles ha hasks fun a' h => ?_
  obtain ⟨v, x⟩ := a'
  obtain rfl : v = w := h.width
  obtain ⟨r, hr, hunknown⟩ := Value.extend_unknown op h.built.val hlater
  refine ⟨_, hr, Set.disjoint_left.2 fun k hk hkr => ?_⟩
  have hlast : later.bits.getLsbD k = true := hk
  cases op with
  | uext =>
    have hbit : k ∈ Value.unknown ⟨v, x⟩ := Ternary.unknown_uext (hunknown k hkr)
    refine h.notMem_unknown (fun hu => mem_marked_limit.2 ⟨?_, hu⟩) hbit
    have hkv : k < v := BitVec.lt_of_getLsbD hu
    simp [marked, hkv, hlast]
  | sext =>
    have hbit : (if k < v then k else v - 1) ∈ Value.unknown ⟨v, x⟩ :=
      Ternary.unknown_sext (hunknown k hkr)
    exact h.notMem_unknown (mem_marked_backSext hlast) hbit

/-! ## The operators -/

/-- Backward marks through negation, complement, changes of width, binary operators other than the
    shifts, comparisons and divisions are sufficient. -/
theorem backward_sufficient (ha : a.Built) (hb : b.Built) (hw : b.width = a.width)
    (later : Marking) :
    Sufficient (Sized.unary .neg) a later (back a later) ∧
    (later.width = a.width →
      ∃ m, backNot a later = .ok m ∧ Sufficient (Sized.unary .not) a later m) ∧
    (∀ op, later.width ≤ Word.maxWidth →
      Sufficient (fun a' => Sized.extend op a' later.width) a later (backExtend op a later)) ∧
    (∀ op, op ∉ [BinaryOp.shl, .lshr, .ashr] → later.width = a.width →
      ∃ marks, backBinary op a b later = .ok marks ∧
        SufficientBoth (Sized.binary op) a b later marks) ∧
    (∀ op, SufficientBoth (Sized.compare op) a b later (backArith a b later)) ∧
    (∀ op, SufficientBoth (fun a' b' => (Sized.divide op a' b').map Prod.fst) a b later
      (backArith a b later)) ∧
    ∀ op, SufficientBoth (fun a' b' => (Sized.divide op a' b').map Prod.snd) a b later
      (backArith a b later) := by
  refine ⟨sufficient_neg ha, sufficient_not ha, fun op => sufficient_extend op ha, ?_, ?_, ?_, ?_⟩
  · intro op hop hlater
    -- known operands give a known result, so that all of both may be asked for
    have harith : SufficientBoth (Sized.binary op) a b later (backArith a b later) := by
      refine sufficientBoth_back ha hb hw fun hx hy => ?_
      obtain ⟨r, hr, hunknown⟩ := Value.binary_unknown op hx hy
      exact ⟨_, hr, fun hx hy =>
        Value.unknown_eq_empty_of (Ternary.binary_known op hx hy) hunknown⟩
    cases op with
    | add | sub | mul => exact ⟨_, rfl, harith⟩
    -- bit by bit, less suffices: a bit of the result needs the bits at its place
    | and => exact sufficientBoth_bitwise (.inl rfl) ha hb hw hlater
    | or => exact sufficientBoth_bitwise (.inr (.inl rfl)) ha hb hw hlater
    | xor => exact sufficientBoth_bitwise (.inr (.inr rfl)) ha hb hw hlater
    | shl | lshr | ashr => exact absurd hop (by decide)
  · intro op
    refine sufficientBoth_back ha hb hw fun hx hy => ?_
    obtain ⟨r, hr, hunknown⟩ := Value.compare_unknown op hx hy
    exact ⟨_, hr, fun hx hy =>
      Value.unknown_eq_empty_of (Ternary.compare_known op hx hy) hunknown⟩
  · intro op
    refine sufficientBoth_back ha hb hw fun hx hy => ?_
    obtain ⟨p, r, hd, hpanic, -⟩ := Value.divide_unknown op hx hy
    exact ⟨⟨_, p⟩, by rw [hd]; rfl, fun hx hy =>
      Value.unknown_eq_empty_of (Ternary.divide_known op hx hy).1 hpanic⟩
  · intro op
    refine sufficientBoth_back ha hb hw fun hx hy => ?_
    obtain ⟨p, r, hd, -, hresult⟩ := Value.divide_unknown op hx hy
    exact ⟨⟨_, r⟩, by rw [hd]; rfl, fun hx hy =>
      Value.unknown_eq_empty_of (Ternary.divide_known op hx hy).2 hresult⟩

/-- In the conjunction of any word with five the lowest bit may be zero or one, and a mark of it
    asks for a bit of an operand. -/
theorem backward_sufficient_and :
    Value.Built ⟨4, .full 4⟩ ∧ (Value.ofNat 4 5).Built ∧
      Sized.binary .and ⟨4, .full 4⟩ (Value.ofNat 4 5) = .ok ⟨4, .ofTernary (.ofKnown 0 10)⟩ ∧
      ∃ marks, backBinary .and ⟨4, .full 4⟩ (.ofNat 4 5) ⟨4, .of 1 1⟩ = .ok marks ∧
        (marks.1.isMarked = true ∨ marks.2.isMarked = true) := by
  have ha : Value.Built ⟨4, .full 4⟩ := ⟨by decide, .full 4⟩
  have hb : (Value.ofNat 4 5).Built := Value.built_ofNat (by decide) 5
  obtain ⟨-, -, -, hbinary, -⟩ := backward_sufficient ha hb rfl ⟨4, .of 1 1⟩
  obtain ⟨marks, hmarks, hsufficient⟩ := hbinary .and (by decide) rfl
  have hr : Sized.binary .and ⟨4, .full 4⟩ (Value.ofNat 4 5) =
      .ok ⟨4, .ofTernary (.ofKnown 0 10)⟩ := by decide
  have hmarked : (0 : Nat) ∈ Marking.marked ⟨4, .of 1 1⟩ :=
    show (Mark.of (1 : BitVec 4) 1).bits.getLsbD 0 = true by decide
  have hunknown : (0 : Nat) ∈ Value.unknown ⟨4, .ofTernary (.ofKnown 0 10)⟩ :=
    show (Reduced.ofTernary (.ofKnown (0 : BitVec 4) 10)).bits.unknown.getLsbD 0 = true by decide
  exact ⟨ha, hb, hr, marks, hmarks,
    hsufficient.culprit trivial hr (Set.not_disjoint_iff.2 ⟨0, hmarked, hunknown⟩)⟩

end Marking

end RefineCheck
