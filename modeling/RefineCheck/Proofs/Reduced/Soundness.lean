/-
  RefineCheck.Proofs.Reduced.Soundness

  The operators of the reduced product never fail on tight values: each component holds the
  result for every pair of members, so the components of the result have a common member.
  Of a division the panic codes are exact.
-/

import RefineCheck.Domain
import RefineCheck.Proofs.Reduced.Reduction

namespace RefineCheck

variable {w : Nat}

/-! ## Operators of the components, all at once -/

theorem Ternary.unary_mem (op : UnaryOp) {a : Ternary w} {x : BitVec w} (hx : x ∈ a) :
    op.onWords x ∈ a.unary op := by
  cases op with
  | neg => exact neg_mem hx
  | not => exact not_mem hx

theorem Ternary.binary_mem (op : BinaryOp) {a b : Ternary w} {x y : BitVec w} (hx : x ∈ a)
    (hy : y ∈ b) : op.onWords x y ∈ binary op a b := by
  cases op with
  | add => exact add_mem hx hy
  | sub => exact sub_mem hx hy
  | mul => exact mul_mem hx hy
  | and => exact and_mem hx hy
  | or => exact or_mem hx hy
  | xor => exact xor_mem hx hy
  | shl => exact shl_mem hx hy
  | lshr => exact lshr_mem hx hy
  | ashr => exact ashr_mem hx hy

theorem not_ofBool (b : Bool) : ~~~BitVec.ofBool b = BitVec.ofBool !b := by
  cases b <;> rfl

theorem Ternary.compare_mem (op : CompareOp) {a b : Ternary w} {x y : BitVec w} (hx : x ∈ a)
    (hy : y ∈ b) : BitVec.ofBool (op.onWords x y) ∈ compare op a b := by
  cases op with
  | eq => exact eq_mem hx hy
  | ne =>
    have h := not_mem (eq_mem hx hy)
    rwa [not_ofBool] at h
  | ult => exact ult_mem hx hy
  | ule => exact ule_mem hx hy
  | slt => exact slt_mem hx hy
  | sle => exact sle_mem hx hy

theorem Ternary.divide_mem (op : DivideOp) {a b : Ternary w} {x y : BitVec w} (hx : x ∈ a)
    (hy : y ∈ b) :
    (op.divide x y).panic ∈ (divide op a b).panic ∧
      (op.divide x y).result ∈ (divide op a b).result := by
  refine ⟨panicOf_mem hy _, ?_⟩
  cases op with
  | udiv => exact udiv_mem hx hy
  | urem => exact urem_mem hx hy
  | sdiv => exact enumerate_mem hx hy _
  | srem => exact enumerate_mem hx hy _

theorem Ternary.extend_mem (op : ExtendOp) {a : Ternary w} {x : BitVec w} (hx : x ∈ a) (v : Nat) :
    op.onWords x v ∈ extend op a v := by
  cases op with
  | uext => exact uext_mem hx v
  | sext => exact sext_mem hx v

theorem SplitRange.unary_mem (op : UnaryOp) {d : SplitRange w} {x : BitVec w} (hx : x ∈ d) :
    op.onWords x ∈ d.unary op := by
  cases op with
  | neg => exact neg_mem hx
  | not => exact not_mem hx

theorem SplitRange.binary_mem (op : BinaryOp) {d e : SplitRange w} {x y : BitVec w} (hx : x ∈ d)
    (hy : y ∈ e) : op.onWords x y ∈ binary op d e := by
  cases op with
  | add => exact add_mem hx hy
  | sub => exact sub_mem hx hy
  | mul => exact mul_mem hx hy
  | and => exact viaTernary_mem Ternary.and_mem hx hy
  | or => exact viaTernary_mem Ternary.or_mem hx hy
  | xor => exact viaTernary_mem Ternary.xor_mem hx hy
  | shl => exact viaTernary_mem Ternary.shl_mem hx hy
  | lshr => exact viaTernary_mem Ternary.lshr_mem hx hy
  | ashr => exact viaTernary_mem Ternary.ashr_mem hx hy

theorem SplitRange.compare_mem (op : CompareOp) {d e : SplitRange w} {x y : BitVec w} (hx : x ∈ d)
    (hy : y ∈ e) : BitVec.ofBool (op.onWords x y) ∈ compare op d e := by
  cases op with
  | eq => exact eq_mem hx hy
  | ne =>
    have h := not_mem (eq_mem hx hy)
    rwa [not_ofBool] at h
  | ult => exact ult_mem hx hy
  | ule => exact ule_mem hx hy
  | slt => exact slt_mem hx hy
  | sle => exact sle_mem hx hy

theorem SplitRange.divide_mem (op : DivideOp) {d e : SplitRange w} {x y : BitVec w} (hx : x ∈ d)
    (hy : y ∈ e) :
    (op.divide x y).panic ∈ (divide op d e).panic ∧
      (op.divide x y).result ∈ (divide op d e).result := by
  refine ⟨panicOf_mem hy _, ?_⟩
  cases op with
  | udiv => exact udiv_mem hx hy
  | urem => exact urem_mem hx hy
  | sdiv => exact exactOrFull_mem hx hy _
  | srem => exact exactOrFull_mem hx hy _

theorem SplitRange.extend_mem (op : ExtendOp) {d : SplitRange w} {x : BitVec w} (hx : x ∈ d)
    (v : Nat) : op.onWords x v ∈ extend op d v := by
  cases op with
  | uext => exact uext_mem hx v
  | sext => exact sext_mem hx v

namespace Reduced

/-! ## Operators that reduce their result -/

theorem unary_ok (op : UnaryOp) {a : Reduced w} (ha : a.Tight) :
    ∃ r, a.unary op = .ok r ∧ r.Tight ∧ ∀ x ∈ a, op.onWords x ∈ r := by
  obtain ⟨x, hx⟩ := ha.exists_mem
  obtain ⟨r, hr, htight, hmem⟩ :=
    reduce_ok (Ternary.unary_mem op hx.1) (SplitRange.unary_mem op hx.2)
  exact ⟨r, hr, htight, fun y hy =>
    (hmem _).2 ⟨Ternary.unary_mem op hy.1, SplitRange.unary_mem op hy.2⟩⟩

theorem binary_ok (op : BinaryOp) {a b : Reduced w} (ha : a.Tight) (hb : b.Tight) :
    ∃ r, binary op a b = .ok r ∧ r.Tight ∧ ∀ x ∈ a, ∀ y ∈ b, op.onWords x y ∈ r := by
  obtain ⟨x, hx⟩ := ha.exists_mem
  obtain ⟨y, hy⟩ := hb.exists_mem
  obtain ⟨r, hr, htight, hmem⟩ :=
    reduce_ok (Ternary.binary_mem op hx.1 hy.1) (SplitRange.binary_mem op hx.2 hy.2)
  exact ⟨r, hr, htight, fun x hx y hy =>
    (hmem _).2 ⟨Ternary.binary_mem op hx.1 hy.1, SplitRange.binary_mem op hx.2 hy.2⟩⟩

theorem extend_ok (op : ExtendOp) {a : Reduced w} (ha : a.Tight) (v : Nat) :
    ∃ r, extend op a v = .ok r ∧ r.Tight ∧ ∀ x ∈ a, op.onWords x v ∈ r := by
  obtain ⟨x, hx⟩ := ha.exists_mem
  obtain ⟨r, hr, htight, hmem⟩ :=
    reduce_ok (Ternary.extend_mem op hx.1 v) (SplitRange.extend_mem op hx.2 v)
  exact ⟨r, hr, htight, fun y hy =>
    (hmem _).2 ⟨Ternary.extend_mem op hy.1 v, SplitRange.extend_mem op hy.2 v⟩⟩

theorem join_ok {a b : Reduced w} (ha : a.Tight) :
    ∃ r, a.join b = .ok r ∧ r.Tight ∧ (∀ x ∈ a, x ∈ r) ∧ ∀ x ∈ b, x ∈ r := by
  obtain ⟨x, hx⟩ := ha.exists_mem
  obtain ⟨r, hr, htight, hmem⟩ :=
    reduce_ok (Ternary.mem_join_left b.bits hx.1) (SplitRange.mem_join_left b.ranges hx.2)
  refine ⟨r, hr, htight, fun y hy => (hmem y).2 ?_, fun y hy => (hmem y).2 ?_⟩
  · exact ⟨Ternary.mem_join_left _ hy.1, SplitRange.mem_join_left _ hy.2⟩
  · exact ⟨Ternary.mem_join_right _ hy.1, SplitRange.mem_join_right _ hy.2⟩

/-! ## Comparisons -/

theorem exists_ofBool : ∀ x : BitVec 1, ∃ b, x = BitVec.ofBool b := by decide

theorem canBeFalse_of_mem {a : Ternary 1} (h : BitVec.ofBool false ∈ a) : a.canBeFalse = true := by
  have hz := Ternary.zeros_of_mem h (k := 0) (by decide) rfl
  simp only [Ternary.canBeFalse, Bool.or_eq_true, bne_iff_ne]
  left
  intro e
  simp [e] at hz

theorem canBeTrue_of_mem {a : Ternary 1} (h : BitVec.ofBool true ∈ a) : a.canBeTrue = true := by
  have ho := Ternary.ones_of_mem h (k := 0) (by decide) rfl
  simp only [Ternary.canBeTrue, bne_iff_ne]
  intro e
  simp [e] at ho

/-- The truth values of the two components are the same. -/
theorem tight_truth {canBeFalse canBeTrue : Bool} (h : (canBeFalse || canBeTrue) = true) :
    (Reduced.mk (.truth canBeFalse canBeTrue h) (.truth canBeFalse canBeTrue h)).Tight := by
  have hmem (x : BitVec 1) (hx : x ∈ SplitRange.truth canBeFalse canBeTrue h) :
      x ∈ Ternary.truth canBeFalse canBeTrue h := by
    obtain ⟨b, rfl⟩ := exists_ofBool x
    rw [Ternary.mem_truth]
    rw [SplitRange.truth] at hx
    split at hx
    · simp_all
    · rw [SplitRange.mem_ofWord] at hx
      revert hx
      cases b <;> cases canBeFalse <;> cases canBeTrue <;> simp_all
  intro r hr
  exact ⟨hmem _ (SplitRange.mem_iff.2 ⟨r, hr, BitVec.le_refl _, r.ordered⟩),
    hmem _ (SplitRange.mem_iff.2 ⟨r, hr, r.ordered, BitVec.le_refl _⟩)⟩

/-- A comparison with a truth value that both components admit succeeds. -/
theorem truth_ok {bits : Ternary 1} {ranges : SplitRange 1} {b : Bool}
    (hb : BitVec.ofBool b ∈ bits) (hr : BitVec.ofBool b ∈ ranges) :
    ∃ r, truth bits ranges = .ok r ∧ r.Tight ∧
      ∀ c, BitVec.ofBool c ∈ bits → BitVec.ofBool c ∈ ranges → BitVec.ofBool c ∈ r := by
  have flag (c : Bool) (hcb : BitVec.ofBool c ∈ bits) (hcr : BitVec.ofBool c ∈ ranges) :
      (c = true → (bits.canBeTrue && ranges.has 1) = true) ∧
        (c = false → (bits.canBeFalse && ranges.has 0) = true) := by
    constructor
    · rintro rfl
      rw [canBeTrue_of_mem hcb, Bool.true_and]
      exact (SplitRange.has_iff ranges 1).2 hcr
    · rintro rfl
      rw [canBeFalse_of_mem hcb, Bool.true_and]
      exact (SplitRange.has_iff ranges 0).2 hcr
  have hpop : ((bits.canBeFalse && ranges.has 0) || (bits.canBeTrue && ranges.has 1)) = true := by
    rw [Bool.or_eq_true]
    cases b
    · exact .inl ((flag false hb hr).2 rfl)
    · exact .inr ((flag true hb hr).1 rfl)
  refine ⟨_, ?_, tight_truth hpop, fun c hcb hcr => ?_⟩
  · simp only [truth]
    rw [dif_pos hpop]
  · exact ⟨(Ternary.mem_truth hpop c).2 (flag c hcb hcr),
      SplitRange.mem_truth (h := hpop) (flag c hcb hcr).1 (flag c hcb hcr).2⟩

theorem compare_ok (op : CompareOp) {a b : Reduced w} (ha : a.Tight) (hb : b.Tight) :
    ∃ r, compare op a b = .ok r ∧ r.Tight ∧
      ∀ x ∈ a, ∀ y ∈ b, BitVec.ofBool (op.onWords x y) ∈ r := by
  obtain ⟨x, hx⟩ := ha.exists_mem
  obtain ⟨y, hy⟩ := hb.exists_mem
  obtain ⟨r, hr, htight, hmem⟩ :=
    truth_ok (Ternary.compare_mem op hx.1 hy.1) (SplitRange.compare_mem op hx.2 hy.2)
  exact ⟨r, hr, htight, fun x hx y hy =>
    hmem _ (Ternary.compare_mem op hx.1 hy.1) (SplitRange.compare_mem op hx.2 hy.2)⟩

/-! ## Division -/

theorem divide_ok (op : DivideOp) {a b : Reduced w} (ha : a.Tight) (hb : b.Tight) :
    ∃ d, divide op a b = .ok d ∧ d.panic.Tight ∧ d.result.Tight ∧
      (∀ c, c ∈ d.panic ↔ c ∈ b.bits.panicOf op.panicCode ∧ c ∈ b.ranges.panicOf op.panicCode) ∧
      ∀ x ∈ a, ∀ y ∈ b, (op.divide x y).result ∈ d.result := by
  obtain ⟨x, hx⟩ := ha.exists_mem
  obtain ⟨y, hy⟩ := hb.exists_mem
  have hbits := Ternary.divide_mem op hx.1 hy.1
  have hranges := SplitRange.divide_mem op hx.2 hy.2
  obtain ⟨p, hp⟩ := reduce?_isSome hbits.1 hranges.1
  obtain ⟨hptight, hpmem⟩ := reduce?_eq_some hp
  obtain ⟨r, hr, hrtight, hrmem⟩ := reduce_ok hbits.2 hranges.2
  refine ⟨⟨p, r⟩, ?_, hptight, hrtight, hpmem, fun x hx y hy => ?_⟩
  · simp only [divide, hp, hr]
    rfl
  · exact (hrmem _).2 ⟨(Ternary.divide_mem op hx.1 hy.1).2, (SplitRange.divide_mem op hx.2 hy.2).2⟩

/-- A word with one bit joined with zero admits no third word. -/
theorem eq_of_mem_join_twoPow {c : BitVec w} {n : Nat}
    (h : c ∈ (Ternary.ofWord 0).join (.ofWord (BitVec.twoPow w n))) :
    c = 0 ∨ c = BitVec.twoPow w n := by
  have hother : ∀ k < w, k ≠ n → c.getLsbD k = false := by
    intro k hk hne
    cases hc : c.getLsbD k
    · rfl
    · have := Ternary.ones_of_mem h hk hc
      simp [Ternary.join, Ternary.ofWord, Ne.symm hne] at this
  cases hc : c.getLsbD n
  · left
    apply BitVec.eq_of_getLsbD_eq
    intro k hk
    by_cases hkn : k = n
    · rw [hkn, hc]
      simp
    · rw [hother k hk hkn]
      simp
  · right
    apply BitVec.eq_of_getLsbD_eq
    intro k hk
    rw [BitVec.getLsbD_twoPow]
    by_cases hkn : k = n
    · rw [hkn, hc]
      simp [BitVec.lt_of_getLsbD hc]
    · rw [hother k hk hkn]
      simp [Ne.symm hkn]

/-- Every panic code has a single one bit. -/
theorem panicCode_eq_twoPow (op : DivideOp) :
    ∃ n, BitVec.ofNat panicWidth op.panicCode = BitVec.twoPow panicWidth n := by
  cases op with
  | udiv | sdiv => exact ⟨0, by decide⟩
  | urem | srem => exact ⟨1, by decide⟩

/-- A tight value with more members than zero has a nonzero one. -/
theorem Tight.exists_ne_zero {a : Reduced w} (ha : a.Tight) (h : a.ranges.word? ≠ some 0) :
    ∃ y ∈ a, y ≠ 0 := by
  by_contra hnone
  have hzero {x : BitVec w} (hx : x ∈ a) : x = 0 := by
    by_contra hne
    exact hnone ⟨x, hx, hne⟩
  have hends {r : Range w} (hr : r ∈ a.ranges.ranges) : r.lo = 0 ∧ r.hi = 0 :=
    ⟨hzero ⟨(ha r hr).1, SplitRange.mem_iff.2 ⟨r, hr, BitVec.le_refl _, r.ordered⟩⟩,
      hzero ⟨(ha r hr).2, SplitRange.mem_iff.2 ⟨r, hr, r.ordered, BitVec.le_refl _⟩⟩⟩
  cases hf : a.ranges.far with
  | some j =>
    -- a negative end is not zero
    have hlo := (hends (r := j.toRange) (by simp [SplitRange.ranges, hf])).1
    have hs := j.lo_sign
    rw [show j.lo = 0 from hlo] at hs
    simp at hs
  | none =>
    have hpop := a.ranges.populated
    cases hn : a.ranges.near with
    | none => simp [hn, hf] at hpop
    | some i =>
      have hi := hends (r := i.toRange) (by simp [SplitRange.ranges, hn])
      apply h
      simp [SplitRange.word?, SplitRange.ranges, hn, hf, hi.1, hi.2]

/-- The panic codes of a division are exactly those that a pair of members raises. -/
theorem panic_exact (op : DivideOp) {a b : Reduced w} (ha : a.Tight) (hb : b.Tight)
    {c : BitVec panicWidth} :
    (c ∈ b.bits.panicOf op.panicCode ∧ c ∈ b.ranges.panicOf op.panicCode) ↔
      ∃ x ∈ a, ∃ y ∈ b, c = (op.divide x y).panic := by
  constructor
  · rintro ⟨hbits, hranges⟩
    obtain ⟨x, hx⟩ := ha.exists_mem
    obtain ⟨y, hy⟩ := hb.exists_mem
    -- some member of the divisor is zero, or some is not
    have raised {z : BitVec w} (hz : z ∈ b) (h0 : z = 0)
        (hc : c = BitVec.ofNat panicWidth op.panicCode) :
        ∃ x ∈ a, ∃ y ∈ b, c = (op.divide x y).panic :=
      ⟨x, hx, z, hz, by rw [DivideOp.divide, if_pos h0, hc]⟩
    have quiet {z : BitVec w} (hz : z ∈ b) (h0 : z ≠ 0)
        (hc : c = BitVec.ofNat panicWidth noPanic) :
        ∃ x ∈ a, ∃ y ∈ b, c = (op.divide x y).panic :=
      ⟨x, hx, z, hz, by rw [DivideOp.divide, if_neg h0, hc]⟩
    rw [Ternary.panicOf] at hbits
    rw [SplitRange.panicOf] at hranges
    -- the divisor may be known to be zero by its bits or by its ranges alone
    by_cases hwb : b.bits.word? = some 0
    · rw [if_pos hwb, Ternary.mem_ofWord] at hbits
      exact raised hy (Ternary.eq_of_word? hwb hy.1) hbits
    · by_cases hwr : b.ranges.word? = some 0
      · rw [if_pos hwr, SplitRange.mem_ofWord] at hranges
        exact raised hy (SplitRange.eq_of_word? hwr hy.2) hranges
      · rw [if_neg hwb] at hbits
        rw [if_neg hwr] at hranges
        obtain ⟨z, hz, hz0⟩ := hb.exists_ne_zero hwr
        -- zero has to be in both parts for the division to panic
        by_cases hzb : (0 : BitVec w) ∈ b.bits
        · by_cases hzr : b.ranges.has 0 = true
          · obtain ⟨n, hn⟩ := panicCode_eq_twoPow op
            rw [if_pos hzb, hn] at hbits
            rcases eq_of_mem_join_twoPow hbits with hc | hc
            · exact quiet hz hz0 hc
            · exact raised ⟨hzb, (SplitRange.has_iff _ _).1 hzr⟩ rfl (hc.trans hn.symm)
          · rw [if_neg hzr, SplitRange.mem_ofWord] at hranges
            exact quiet hz hz0 hranges
        · rw [if_neg hzb, Ternary.mem_ofWord] at hbits
          exact quiet hz hz0 hbits
  · rintro ⟨x, hx, y, hy, rfl⟩
    exact ⟨Ternary.panicOf_mem hy.1 _, SplitRange.panicOf_mem hy.2 _⟩

end Reduced

end RefineCheck
