/-
  RefineCheck.Proofs.Ternary.Monotone

  Every operator on three-valued words is monotone: narrower operands give a result that the result
  of the wider ones contains. The operators that decide by cases take the finer case for narrower
  operands, and it gives no more than the coarser one.
-/

import RefineCheck.Proofs.Ternary.Order
import RefineCheck.Proofs.Word.Subsets

namespace RefineCheck

namespace Word

variable {w : Nat}

/-! ## Words -/

section Comparison

variable {x y x' y' : BitVec w}

theorem ult_of_le_of_le (hx : x ≤ x') (hy : y' ≤ y) (h : x'.ult y' = true) : x.ult y = true := by
  simp only [BitVec.ult, BitVec.le_def, decide_eq_true_eq] at *
  omega

theorem ule_of_le_of_le (hx : x ≤ x') (hy : y' ≤ y) (h : x'.ule y' = true) : x.ule y = true := by
  simp only [BitVec.ule, BitVec.le_def, decide_eq_true_eq] at *
  omega

theorem slt_of_sle_of_sle (hx : x.sle x' = true) (hy : y'.sle y = true) (h : x'.slt y' = true) :
    x.slt y = true := by
  simp only [BitVec.slt, BitVec.sle, decide_eq_true_eq] at *
  omega

theorem sle_of_sle_of_sle (hx : x.sle x' = true) (hy : y'.sle y = true) (h : x'.sle y' = true) :
    x.sle y = true := by
  simp only [BitVec.sle, decide_eq_true_eq] at *
  omega

end Comparison

end Word

namespace Ternary

variable {w : Nat} {a b a' b' : Ternary w}

/-! ## Bounds -/

theorem umin_anti (ha : a.contains a' = true) : a.umin ≤ a'.umin :=
  umin_le (mem_of_contains ha a'.umin_mem)

theorem umax_mono (ha : a.contains a' = true) : a'.umax ≤ a.umax :=
  le_umax (mem_of_contains ha a'.umax_mem)

theorem smin_mem (a : Ternary w) : a.smin ∈ a := by
  refine mem_of_either a.umin_mem a.umax_mem fun k hk => ?_
  simp only [smin, umax, BitVec.getLsbD_or, BitVec.getLsbD_and, BitVec.getLsbD_not, hk,
    decide_true, Bool.true_and]
  cases (BitVec.intMin w).getLsbD k <;> simp

theorem smax_mem (a : Ternary w) : a.smax ∈ a := by
  refine mem_of_either a.umin_mem a.umax_mem fun k hk => ?_
  simp only [smax, umax, BitVec.getLsbD_or, BitVec.getLsbD_and, BitVec.getLsbD_not, hk,
    decide_true, Bool.true_and]
  cases (BitVec.intMin w).getLsbD k <;> simp

theorem smin_anti (ha : a.contains a' = true) : a.smin.sle a'.smin = true :=
  smin_sle (mem_of_contains ha a'.smin_mem)

theorem smax_mono (ha : a.contains a' = true) : a'.smax.sle a.smax = true :=
  sle_smax (mem_of_contains ha a'.smax_mem)

/-! ## Arithmetic -/

/-- Extremes that agree leave no room for narrower ones to differ. -/
theorem ofExtremes_mono {lo hi lo' hi' : Nat → Int}
    (h : ∀ k < w, lo k ≤ lo' k ∧ lo' k ≤ hi' k ∧ hi' k ≤ hi k) :
    (ofExtremes lo hi : Ternary w).contains (ofExtremes lo' hi') = true := by
  rw [contains_iff]
  intro x hx
  rw [ofExtremes, mem_ofKnown] at hx ⊢
  intro k hk hknown
  have hx := hx k hk
  simp only [Word.getLsbD_ofBits, hk, decide_true, Bool.true_and, beq_iff_eq] at hknown hx ⊢
  obtain ⟨hlo, hle, hhi⟩ := h k hk
  have e : lo' k = lo k := by omega
  rw [hx (by omega), e]

/-- An operation on the operands modulo a power of two that grows with both. -/
theorem modular_mono {op : Nat → Nat → Nat}
    (hop : ∀ {m n m' n' : Nat}, m ≤ m' → n ≤ n' → op m n ≤ op m' n') (ha : a.contains a' = true)
    (hb : b.contains b' = true) :
    let part (x y : BitVec w) (k : Nat) : Nat :=
      op (x.toNat % Word.card (k + 1)) (y.toNat % Word.card (k + 1)) / Word.card k
    (ofExtremes (fun k => part a.umin b.umin k) fun k => part a.umax b.umax k : Ternary w).contains
      (ofExtremes (fun k => part a'.umin b'.umin k) fun k => part a'.umax b'.umax k) = true := by
  apply ofExtremes_mono
  intro k _
  refine ⟨?_, ?_, ?_⟩
  · exact_mod_cast Nat.div_le_div_right (hop (umin_mod_le (mem_of_contains ha a'.umin_mem) _)
      (umin_mod_le (mem_of_contains hb b'.umin_mem) _))
  · exact_mod_cast Nat.div_le_div_right (hop (umin_mod_le a'.umax_mem _)
      (umin_mod_le b'.umax_mem _))
  · exact_mod_cast Nat.div_le_div_right (hop (mod_le_umax (mem_of_contains ha a'.umax_mem) _)
      (mod_le_umax (mem_of_contains hb b'.umax_mem) _))

theorem add_mono (ha : a.contains a' = true) (hb : b.contains b' = true) :
    (a.add b).contains (a'.add b') = true :=
  modular_mono Nat.add_le_add ha hb

theorem mul_mono (ha : a.contains a' = true) (hb : b.contains b' = true) :
    (a.mul b).contains (a'.mul b') = true :=
  modular_mono Nat.mul_le_mul ha hb

theorem sub_mono (ha : a.contains a' = true) (hb : b.contains b' = true) :
    (a.sub b).contains (a'.sub b') = true := by
  apply ofExtremes_mono
  intro k _
  have hcard : (0 : Int) < (Word.card k : Nat) := by exact_mod_cast Nat.two_pow_pos k
  have hamin := umin_mod_le (mem_of_contains ha a'.umin_mem) (k + 1)
  have hamax := mod_le_umax (mem_of_contains ha a'.umax_mem) (k + 1)
  have ha' := umin_mod_le a'.umax_mem (k + 1)
  have hbmin := umin_mod_le (mem_of_contains hb b'.umin_mem) (k + 1)
  have hbmax := mod_le_umax (mem_of_contains hb b'.umax_mem) (k + 1)
  have hb' := umin_mod_le b'.umax_mem (k + 1)
  refine ⟨?_, ?_, ?_⟩ <;>
  · apply Int.ediv_le_ediv hcard
    omega

theorem neg_mono (ha : a.contains a' = true) : a.neg.contains a'.neg = true :=
  sub_mono (contains_refl _) ha

/-! ## Bitwise operators -/

theorem not_mono (ha : a.contains a' = true) : a.not.contains a'.not = true := by
  rw [contains_iff_bits] at *
  intro k hk
  exact (ha k hk).symm

theorem and_mono (ha : a.contains a' = true) (hb : b.contains b' = true) :
    (a.and b).contains (a'.and b') = true := by
  rw [contains_iff_bits] at *
  intro k hk
  obtain ⟨haz, hao⟩ := ha k hk
  obtain ⟨hbz, hbo⟩ := hb k hk
  simp only [and, BitVec.getLsbD_or, BitVec.getLsbD_and, Bool.or_eq_true, Bool.and_eq_true]
  exact ⟨Or.imp haz hbz, And.imp hao hbo⟩

theorem or_mono (ha : a.contains a' = true) (hb : b.contains b' = true) :
    (a.or b).contains (a'.or b') = true :=
  not_mono (and_mono (not_mono ha) (not_mono hb))

theorem xor_mono (ha : a.contains a' = true) (hb : b.contains b' = true) :
    (a.xor b).contains (a'.xor b') = true := by
  rw [contains_iff_bits] at *
  intro k hk
  obtain ⟨haz, hao⟩ := ha k hk
  obtain ⟨hbz, hbo⟩ := hb k hk
  simp only [xor, BitVec.getLsbD_or, BitVec.getLsbD_and, Bool.or_eq_true, Bool.and_eq_true]
  exact ⟨Or.imp (And.imp haz hbz) (And.imp hao hbo), Or.imp (And.imp haz hbo) (And.imp hao hbz)⟩

/-! ## Shifts -/

theorem shlBy_mono (ha : a.contains a' = true) (n : Nat) :
    (a.shlBy n).contains (a'.shlBy n) = true := by
  rw [contains_iff_bits] at *
  intro k hk
  simp only [shlBy, BitVec.getLsbD_not, BitVec.getLsbD_shiftLeft, hk, decide_true, Bool.true_and]
  by_cases hkn : k < n
  · simp [hkn]
  · obtain ⟨hz, ho⟩ := ha (k - n) (by omega)
    simpa [hkn, show k - n < w by omega] using And.intro hz ho

theorem lshrBy_mono (ha : a.contains a' = true) (n : Nat) :
    (a.lshrBy n).contains (a'.lshrBy n) = true := by
  rw [contains_iff_bits] at *
  intro k hk
  simp only [lshrBy, BitVec.getLsbD_not, BitVec.getLsbD_ushiftRight, hk, decide_true,
    Bool.true_and]
  by_cases hnk : n + k < w
  · obtain ⟨hz, ho⟩ := ha (n + k) hnk
    simpa [hnk] using And.intro hz ho
  · simp [hnk, BitVec.getLsbD_of_ge _ _ (Nat.le_of_not_lt hnk)]

theorem ashrBy_mono (ha : a.contains a' = true) (n : Nat) :
    (a.ashrBy n).contains (a'.ashrBy n) = true := by
  rw [contains_iff_bits] at *
  intro k hk
  simp only [ashrBy, BitVec.getLsbD_sshiftRight, show ¬ w ≤ k by omega, decide_false,
    Bool.not_false, Bool.true_and]
  split
  · exact ha (n + k) ‹_›
  · simp only [BitVec.msb_eq_getLsbD_last]
    exact ha (w - 1) (by omega)

/-- A narrower operand admits fewer amounts. -/
theorem amounts_subset (hb : b.contains b' = true) : b'.amounts ⊆ b.amounts := by
  intro n hn
  rw [amounts, List.mem_append, List.mem_filter] at hn ⊢
  refine hn.imp (fun h => ⟨h.1, ?_⟩) fun h => ?_
  · rw [decide_eq_true_eq] at h ⊢
    exact mem_of_contains hb h.2
  · have hle := umax_mono hb
    rw [BitVec.le_def] at hle
    split at h
    · rwa [if_pos (by omega)]
    · cases h

theorem shift_mono {by_ by_' : Nat → Ternary w} (hb : b.contains b' = true)
    (h : ∀ n, (by_ n).contains (by_' n) = true) : (b.shift by_).contains (b'.shift by_') = true := by
  apply joinAll_mono
  intro r hr
  obtain ⟨n, hn, rfl⟩ := List.mem_map.1 hr
  exact ⟨by_ n, List.mem_map.2 ⟨n, amounts_subset hb hn, rfl⟩, h n⟩

theorem shl_mono (ha : a.contains a' = true) (hb : b.contains b' = true) :
    (a.shl b).contains (a'.shl b') = true :=
  shift_mono hb (shlBy_mono ha)

theorem lshr_mono (ha : a.contains a' = true) (hb : b.contains b' = true) :
    (a.lshr b).contains (a'.lshr b') = true :=
  shift_mono hb (lshrBy_mono ha)

theorem ashr_mono (ha : a.contains a' = true) (hb : b.contains b' = true) :
    (a.ashr b).contains (a'.ashr b') = true :=
  shift_mono hb (ashrBy_mono ha)

/-! ## Change of width -/

theorem uext_mono (ha : a.contains a' = true) (v : Nat) :
    (a.uext v).contains (a'.uext v) = true := by
  rw [contains_iff_bits] at *
  intro k hk
  simp only [uext, BitVec.getLsbD_not, BitVec.getLsbD_setWidth, hk, decide_true, Bool.true_and]
  by_cases hkw : k < w
  · obtain ⟨hz, ho⟩ := ha k hkw
    simpa [hkw] using And.intro hz ho
  · simp [hkw, BitVec.getLsbD_of_ge _ _ (Nat.le_of_not_lt hkw)]

theorem sext_mono (ha : a.contains a' = true) (v : Nat) :
    (a.sext v).contains (a'.sext v) = true := by
  rw [contains_iff_bits] at *
  intro k hk
  simp only [sext, BitVec.getLsbD_not, BitVec.getLsbD_signExtend, hk, decide_true, Bool.true_and]
  by_cases hkw : k < w
  · obtain ⟨hz, ho⟩ := ha k hkw
    simpa [hkw] using And.intro hz ho
  · simp only [hkw, if_false, BitVec.msb_eq_getLsbD_last, BitVec.getLsbD_not]
    rcases Nat.eq_zero_or_pos w with rfl | hw
    · simp
    · obtain ⟨hz, ho⟩ := ha (w - 1) (by omega)
      simpa [show w - 1 < w by omega] using And.intro hz ho

/-! ## Comparisons -/

theorem truth_mono {f t f' t' : Bool} (h : (f || t) = true) (h' : (f' || t') = true)
    (hf : f' = true → f = true) (ht : t' = true → t = true) :
    (truth f t h).contains (truth f' t' h') = true := by
  revert h h' hf ht
  cases f <;> cases t <;> cases f' <;> cases t' <;> decide

theorem canDiffer_mono (ha : a.contains a' = true) (hb : b.contains b' = true)
    (h : a'.canDiffer b' = true) : a.canDiffer b = true := by
  rw [contains_iff_bits] at ha hb
  simp only [canDiffer, bne_iff_ne] at h ⊢
  contrapose! h
  apply BitVec.eq_of_getLsbD_eq
  intro k hk
  have hk' := congrArg (BitVec.getLsbD · k) h
  obtain ⟨haz, hao⟩ := ha k hk
  obtain ⟨hbz, hbo⟩ := hb k hk
  simp only [BitVec.getLsbD_or, BitVec.getLsbD_and] at hk' ⊢
  revert haz hao hbz hbo hk'
  cases a'.zeros.getLsbD k <;> cases a'.ones.getLsbD k <;> cases b'.zeros.getLsbD k <;>
    cases b'.ones.getLsbD k <;> simp +contextual

theorem canAgree_mono (ha : a.contains a' = true) (hb : b.contains b' = true)
    (h : a'.canAgree b' = true) : a.canAgree b = true := by
  rw [contains_iff_bits] at ha hb
  simp only [canAgree, beq_iff_eq] at h ⊢
  apply total_of_bits
  intro k hk
  have hk' := congrArg (BitVec.getLsbD · k) h
  obtain ⟨haz, hao⟩ := ha k hk
  obtain ⟨hbz, hbo⟩ := hb k hk
  simp only [BitVec.getLsbD_or, BitVec.getLsbD_and, BitVec.getLsbD_allOnes, hk, decide_true,
    Bool.or_eq_true, Bool.and_eq_true] at hk' ⊢
  exact hk'.imp (And.imp haz hbz) (And.imp hao hbo)

theorem eq_mono (ha : a.contains a' = true) (hb : b.contains b' = true) :
    (a.eq b).contains (a'.eq b') = true :=
  truth_mono _ _ (canDiffer_mono ha hb) (canAgree_mono ha hb)

theorem ult_mono (ha : a.contains a' = true) (hb : b.contains b' = true) :
    (a.ult b).contains (a'.ult b') = true :=
  truth_mono _ _ (Word.ule_of_le_of_le (umin_anti hb) (umax_mono ha))
    (Word.ult_of_le_of_le (umin_anti ha) (umax_mono hb))

theorem ule_mono (ha : a.contains a' = true) (hb : b.contains b' = true) :
    (a.ule b).contains (a'.ule b') = true :=
  truth_mono _ _ (Word.ult_of_le_of_le (umin_anti hb) (umax_mono ha))
    (Word.ule_of_le_of_le (umin_anti ha) (umax_mono hb))

theorem slt_mono (ha : a.contains a' = true) (hb : b.contains b' = true) :
    (a.slt b).contains (a'.slt b') = true :=
  truth_mono _ _ (Word.sle_of_sle_of_sle (smin_anti hb) (smax_mono ha))
    (Word.slt_of_sle_of_sle (smin_anti ha) (smax_mono hb))

theorem sle_mono (ha : a.contains a' = true) (hb : b.contains b' = true) :
    (a.sle b).contains (a'.sle b') = true :=
  truth_mono _ _ (Word.slt_of_sle_of_sle (smin_anti hb) (smax_mono ha))
    (Word.sle_of_sle_of_sle (smin_anti ha) (smax_mono hb))

/-! ## Division -/

theorem panicOf_mono (hb : b.contains b' = true) (code : Nat) :
    (b.panicOf code).contains (b'.panicOf code) = true := by
  rw [panicOf, panicOf]
  by_cases h0 : b.word? = some 0
  · rw [if_pos h0, if_pos (word?_mono hb h0)]
    exact contains_refl _
  · rw [if_neg h0]
    by_cases h0' : b'.word? = some 0
    · have hmem : (0 : BitVec w) ∈ b := by
        apply mem_of_contains hb
        rw [word?_eq_some.1 h0']
        exact mem_ofWord.2 rfl
      rw [if_pos h0', if_pos hmem]
      exact join_contains_right _ _
    · rw [if_neg h0']
      by_cases hmem' : (0 : BitVec w) ∈ b'
      · rw [if_pos hmem', if_pos (mem_of_contains hb hmem')]
        exact contains_refl _
      · rw [if_neg hmem']
        split
        · exact join_contains_left _ _
        · exact contains_refl _

theorem udiv_mono (ha : a.contains a' = true) (hb : b.contains b' = true) :
    (a.udiv b).contains (a'.udiv b') = true :=
  ofRange_mono (Word.udiv_le_udiv (umin_anti ha) (umax_mono hb))
    (Word.udiv_le_udiv a'.umin_le_umax b'.umin_le_umax)
    (Word.udiv_le_udiv (umax_mono ha) (umin_anti hb))

/-- Narrower operands keep a single quotient. -/
theorem urem_mono (ha : a.contains a' = true) (hb : b.contains b' = true) :
    (a.urem b).contains (a'.urem b') = true := by
  rw [urem, urem]
  by_cases hq : Word.udiv a.umin b.umax = Word.udiv a.umax b.umin
  · have hmin := Word.udiv_eq_of_between (umin_anti ha)
      (BitVec.le_trans a'.umin_le_umax (umax_mono ha))
      (BitVec.le_trans (umin_anti hb) b'.umin_le_umax) (umax_mono hb) hq
    have hmax := Word.udiv_eq_of_between (BitVec.le_trans (umin_anti ha) a'.umin_le_umax)
      (umax_mono ha) (umin_anti hb) (BitVec.le_trans b'.umin_le_umax (umax_mono hb)) hq
    have hq' : Word.udiv a'.umin b'.umax = Word.udiv a'.umax b'.umin :=
      hmin.1.symm.trans hmax.1
    rw [if_pos hq, if_pos hq']
    exact ofRange_mono (Word.urem_le_urem (umin_anti ha) (umax_mono hb) hmin.1)
      (Word.urem_le_urem a'.umin_le_umax b'.umin_le_umax hq')
      (Word.urem_le_urem (umax_mono ha) (umin_anti hb) hmax.2)
  · rw [if_neg hq]
    exact full_contains _

theorem unknown_mono (ha : a.contains a' = true) {k : Nat} (h : a'.unknown.getLsbD k = true) :
    a.unknown.getLsbD k = true := by
  rw [contains_iff_bits] at ha
  rw [unknown, BitVec.getLsbD_and, Bool.and_eq_true] at h ⊢
  have hk := BitVec.lt_of_getLsbD h.1
  exact ⟨(ha k hk).1 h.1, (ha k hk).2 h.2⟩

theorem count_unknown_mono (ha : a.contains a' = true) :
    Word.count a'.unknown ≤ Word.count a.unknown :=
  List.countP_mono_left fun _ _ h => unknown_mono ha h

/-- Only members are listed. -/
theorem mem_of_mem_members {x : BitVec w} (h : x ∈ a.members) : x ∈ a := by
  obtain ⟨y, hy, rfl⟩ := List.mem_map.1 h
  have hbits : ∀ k, y.getLsbD k = true → a.unknown.getLsbD k = true :=
    Word.subset_iff.1 (Word.mem_subsets_iff.1 hy)
  refine mem_of_either a.umin_mem a.umax_mem fun k hk => ?_
  rw [BitVec.getLsbD_or]
  cases hyk : y.getLsbD k
  · exact .inl (Bool.or_false _)
  · right
    have hu := hbits k hyk
    rw [unknown, BitVec.getLsbD_and, Bool.and_eq_true] at hu
    rw [umax, hu.2, Bool.or_true]

theorem enumerate_mono (ha : a.contains a' = true) (hb : b.contains b' = true)
    (f : BitVec w → BitVec w → BitVec w) :
    (a.enumerate b f).contains (a'.enumerate b' f) = true := by
  have hcount := Nat.add_le_add (count_unknown_mono ha) (count_unknown_mono hb)
  rw [enumerate, enumerate]
  split
  · exact full_contains _
  · rw [if_neg (by omega)]
    apply joinAll_mono
    intro r hr
    obtain ⟨x, hx, hr⟩ := List.mem_flatMap.1 hr
    obtain ⟨y, hy, rfl⟩ := List.mem_map.1 hr
    have hx := mem_members (mem_of_contains ha (mem_of_mem_members hx))
    have hy := mem_members (mem_of_contains hb (mem_of_mem_members hy))
    exact ⟨_, List.mem_flatMap.2 ⟨x, hx, List.mem_map.2 ⟨y, hy, rfl⟩⟩, contains_refl _⟩

end Ternary

end RefineCheck
