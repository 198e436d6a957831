/-
  RefineCheck.Proofs.Word.Bits

  The masks and bit searches of words, bit by bit, and the order of words read off the
  highest bit in which they differ.
-/

import Mathlib
import RefineCheck.Word

namespace RefineCheck.Word

variable {w : Nat}

/-! ## Masks -/

theorem getLsbD_low (n k : Nat) : (low w n).getLsbD k = (decide (k < w) && decide (k < n)) := by
  rw [low, BitVec.getLsbD_ofNat]
  show (decide (k < w) && (2 ^ n - 1).testBit k) = _
  rw [Nat.testBit_two_pow_sub_one]

theorem getLsbD_highestBit {x : BitVec w} (h : x ≠ 0) : x.getLsbD (highestBit x) = true := by
  have hx : x.toNat ≠ 0 := fun e => h (BitVec.eq_of_toNat_eq (by simpa using e))
  exact Nat.testBit_log2 hx

theorem highestBit_lt {x : BitVec w} (h : x ≠ 0) : highestBit x < w :=
  BitVec.lt_of_getLsbD (getLsbD_highestBit h)

theorem getLsbD_above_highestBit {x : BitVec w} {k : Nat} (h : highestBit x < k) :
    x.getLsbD k = false := by
  refine Nat.testBit_lt_two_pow (Nat.lt_of_lt_of_le Nat.lt_log2_self ?_)
  exact Nat.pow_le_pow_right (by decide) h

theorem getLsbD_spread (x : BitVec w) {k : Nat} (hk : k < w) :
    (spread x).getLsbD k = (decide (x ≠ 0) && decide (k ≤ highestBit x)) := by
  rw [spread]
  by_cases h : x = 0
  · simp [h]
  · rw [if_neg h, getLsbD_low, decide_eq_true hk, decide_eq_true h, Bool.true_and, Bool.true_and,
      decide_eq_decide]
    exact Nat.lt_succ_iff

/-- The lowest one bit is kept, all bits above it are cleared. -/
theorem getLsbD_lowestBit (x : BitVec w) (k : Nat) :
    (lowestBit x).getLsbD k = (x.getLsbD k && decide (∀ j < k, x.getLsbD j = false)) := by
  rw [lowestBit, BitVec.getLsbD_and, BitVec.getLsbD_neg]
  cases hx : x.getLsbD k
  · rfl
  · have hk : k < w := BitVec.lt_of_getLsbD hx
    by_cases hj : ∃ j < k, x.getLsbD j = true
    · have : ¬ ∀ j < k, x.getLsbD j = false := by
        obtain ⟨j, hjk, hj⟩ := hj
        exact fun h => by simp [h j hjk] at hj
      rw [decide_eq_true hk, decide_eq_true hj, decide_eq_false this]
      rfl
    · have : ∀ j < k, x.getLsbD j = false := by
        intro j hjk
        cases hxj : x.getLsbD j
        · rfl
        · exact absurd ⟨j, hjk, hxj⟩ hj
      rw [decide_eq_true hk, decide_eq_false hj, decide_eq_true this]
      rfl

/-- The lowest one bit of a nonzero word is a power of two at a one bit with zeros below. -/
theorem lowestBit_eq_twoPow {x : BitVec w} (h : x ≠ 0) :
    ∃ p < w, lowestBit x = BitVec.twoPow w p ∧ x.getLsbD p = true ∧
      ∀ j < p, x.getLsbD j = false := by
  have hex : ∃ p, x.getLsbD p = true := ⟨_, getLsbD_highestBit h⟩
  classical
  have hp := Nat.find_spec hex
  have hlow : ∀ j < Nat.find hex, x.getLsbD j = false := fun j hj => by
    simpa using Nat.find_min hex hj
  refine ⟨Nat.find hex, BitVec.lt_of_getLsbD hp, ?_, hp, hlow⟩
  apply BitVec.eq_of_getLsbD_eq
  intro k hk
  rw [getLsbD_lowestBit, BitVec.getLsbD_twoPow]
  have hpw : Nat.find hex < w := BitVec.lt_of_getLsbD hp
  rcases Nat.lt_trichotomy k (Nat.find hex) with hlt | heq | hgt
  · simp [hlow k hlt, show ¬ Nat.find hex = k by omega]
  · subst heq
    rw [hp, decide_eq_true hlow, decide_eq_true hpw]
    simp
  · have : ¬ ∀ j < k, x.getLsbD j = false := fun hall => by simp [hall _ hgt] at hp
    rw [decide_eq_false this]
    simp [show ¬ Nat.find hex = k by omega]

/-- One less than a power of two has exactly the bits below it. -/
theorem twoPow_sub_one {p : Nat} (h : p < w) : BitVec.twoPow w p - 1 = low w p := by
  apply BitVec.eq_of_toNat_eq
  have hlt := Nat.pow_lt_pow_right (show 1 < 2 by decide) h
  have hpos := Nat.two_pow_pos p
  have hw : 1 < 2 ^ w := Nat.lt_of_le_of_lt hpos hlt
  rw [BitVec.toNat_sub, BitVec.toNat_twoPow_of_lt h, low, BitVec.toNat_ofNat]
  show (2 ^ w - (1 : BitVec w).toNat + 2 ^ p) % 2 ^ w = (2 ^ p - 1) % 2 ^ w
  have h1 : (1 : BitVec w).toNat = 1 := by
    simp [BitVec.toNat_ofNat, Nat.mod_eq_of_lt hw]
  rw [h1, show 2 ^ w - 1 + 2 ^ p = (2 ^ p - 1) + 2 ^ w by omega, Nat.add_mod_right]

/-! ## Shifts

An amount of at least the width shifts like the width. -/

/-- Bit `k` of an arithmetic shift is bit `n + k` of the word, or its sign bit above the width. -/
theorem getLsbD_sshiftRight (x : BitVec w) (n : Nat) {k : Nat} (hk : k < w) :
    (x.sshiftRight n).getLsbD k = x.getLsbD (if n + k < w then n + k else w - 1) := by
  rw [BitVec.getLsbD_sshiftRight, BitVec.msb_eq_getLsbD_last]
  simp only [show ¬ w ≤ k by omega, decide_false, Bool.not_false, Bool.true_and]
  split <;> rfl

theorem shl_eq (x y : BitVec w) : shl x y = x <<< min y.toNat w := by
  rw [shl]
  split
  · rw [Nat.min_eq_left (by omega)]
  · rw [Nat.min_eq_right (by omega), BitVec.shiftLeft_eq_zero (Nat.le_refl w)]
    rfl

theorem lshr_eq (x y : BitVec w) : lshr x y = x >>> min y.toNat w := by
  rw [lshr]
  split
  · rw [Nat.min_eq_left (by omega)]
  · rw [Nat.min_eq_right (by omega), BitVec.ushiftRight_eq_zero (Nat.le_refl w)]
    rfl

/-! ## Order -/

theorem toNat_pos {x : BitVec w} (h : x ≠ 0) : 0 < x.toNat :=
  Nat.pos_of_ne_zero fun h0 => h (BitVec.eq_of_toNat_eq (h0.trans BitVec.toNat_zero.symm))

theorem toNat_sub_one {x : BitVec w} (h : 0 < x.toNat) : (x - 1).toNat = x.toNat - 1 := by
  have hone : (1 : BitVec w).toNat = 1 := Nat.mod_eq_of_lt (lt_of_le_of_lt h x.isLt)
  rw [BitVec.toNat_sub_of_le (BitVec.le_def.2 (hone ▸ h)), hone]

/-- A word is below another one if it has a zero where they differ first, seen from above. -/
theorem lt_of_highest {x y : BitVec w} (p : Nat) (hx : x.getLsbD p = false)
    (hy : y.getLsbD p = true) (h : ∀ k < w, p < k → x.getLsbD k = y.getLsbD k) : x < y := by
  rw [BitVec.lt_def]
  refine Nat.lt_of_testBit p hx hy fun k hk => ?_
  by_cases hkw : k < w
  · exact h k hkw hk
  · exact (BitVec.getLsbD_of_ge x k (Nat.le_of_not_lt hkw)).trans
      (BitVec.getLsbD_of_ge y k (Nat.le_of_not_lt hkw)).symm

/-- Two different words have a highest bit in which they differ. -/
theorem exists_highest {x y : BitVec w} (h : x < y) :
    ∃ p < w, x.getLsbD p = false ∧ y.getLsbD p = true ∧
      ∀ k, p < k → x.getLsbD k = y.getLsbD k := by
  have hne : x.toNat ^^^ y.toNat ≠ 0 := by
    intro e
    rw [BitVec.lt_def, Nat.xor_eq_zero_iff.1 e] at h
    exact Nat.lt_irrefl _ h
  obtain ⟨p, hp, habove⟩ := Nat.exists_most_significant_bit hne
  have hagree : ∀ k, p < k → x.getLsbD k = y.getLsbD k := by
    intro k hk
    have := habove k hk
    rw [Nat.testBit_xor] at this
    simpa [BitVec.getLsbD] using this
  rw [Nat.testBit_xor] at hp
  have hxy : x.getLsbD p = false ∧ y.getLsbD p = true := by
    cases hx : x.getLsbD p
    · refine ⟨rfl, ?_⟩
      simp only [BitVec.getLsbD] at hx ⊢
      simpa [hx] using hp
    · -- otherwise `y` would be the smaller one
      have hy : y.getLsbD p = false := by
        simp only [BitVec.getLsbD] at hx ⊢
        simpa [hx] using hp
      have hlt := lt_of_highest p hy hx fun k _ hk => (hagree k hk).symm
      rw [BitVec.lt_def] at h hlt
      omega
  exact ⟨p, BitVec.lt_of_getLsbD hxy.2, hxy.1, hxy.2, hagree⟩

/-- A word between two others that agree from a bit on agrees with them there. -/
theorem getLsbD_of_between {lo x hi : BitVec w} (hlo : lo ≤ x) (hhi : x ≤ hi) {p : Nat}
    (h : ∀ k, p ≤ k → lo.getLsbD k = hi.getLsbD k) {k : Nat} (hk : p ≤ k) :
    x.getLsbD k = lo.getLsbD k := by
  have heq : lo.toNat >>> p = hi.toNat >>> p := by
    apply Nat.eq_of_testBit_eq
    intro j
    rw [Nat.testBit_shiftRight, Nat.testBit_shiftRight]
    exact h (p + j) (Nat.le_add_right p j)
  rw [BitVec.le_def] at hlo hhi
  have h1 : lo.toNat >>> p ≤ x.toNat >>> p := by
    rw [Nat.shiftRight_eq_div_pow, Nat.shiftRight_eq_div_pow]
    exact Nat.div_le_div_right hlo
  have h2 : x.toNat >>> p ≤ hi.toNat >>> p := by
    rw [Nat.shiftRight_eq_div_pow, Nat.shiftRight_eq_div_pow]
    exact Nat.div_le_div_right hhi
  have hx : x.toNat >>> p = lo.toNat >>> p := by omega
  have hbit := congrArg (fun n => Nat.testBit n (k - p)) hx
  simp only [Nat.testBit_shiftRight, Nat.add_sub_cancel' hk] at hbit
  exact hbit

/-- Between two equal quotients of extremes lies no other one. -/
theorem udiv_eq_of_between {x y xmin xmax ymin ymax : BitVec w} (hx : xmin ≤ x)
    (hx' : x ≤ xmax) (hy : ymin ≤ y) (hy' : y ≤ ymax) (h : udiv xmin ymax = udiv xmax ymin) :
    udiv xmin ymax = udiv x y ∧ udiv x y = udiv xmax ymin := by
  have h1 : udiv xmin ymax ≤ udiv x y := udiv_le_udiv hx hy'
  have h2 : udiv x y ≤ udiv xmax ymin := udiv_le_udiv hx' hy
  rw [← h] at h2 ⊢
  have e := BitVec.le_antisymm h1 h2
  exact ⟨e, e.symm⟩

/-! ## Subsets of a word -/

/-- A word whose highest bit is known is that bit and what is below it. -/
theorem low_or_twoPow {y : BitVec w} {n : Nat} (hn : y.getLsbD n = true)
    (h : ∀ k, y.getLsbD k = true → k < n + 1) : (y &&& low w n) ||| BitVec.twoPow w n = y := by
  apply BitVec.eq_of_getLsbD_eq
  intro k hk
  rw [BitVec.getLsbD_or, BitVec.getLsbD_and, getLsbD_low, BitVec.getLsbD_twoPow]
  cases hyk : y.getLsbD k
  · have : ¬ n = k := by
      rintro rfl
      simp [hn] at hyk
    simp [this]
  · have := h k hyk
    simp only [hk, decide_true, Bool.true_and, Bool.or_eq_true, Bool.and_eq_true,
      decide_eq_true_eq]
    omega

theorem mem_subsetsBelow {x y : BitVec w} {n : Nat}
    (h : ∀ k, y.getLsbD k = true → x.getLsbD k = true ∧ k < n) : y ∈ subsetsBelow x n := by
  induction n generalizing y with
  | zero =>
    have hy : y = 0 := by
      apply BitVec.eq_of_getLsbD_eq
      intro k hk
      cases hyk : y.getLsbD k
      · simp
      · exact absurd (h k hyk).2 (Nat.not_lt_zero k)
    exact List.mem_singleton.2 hy
  | succ n ih =>
    rw [subsetsBelow]
    by_cases hyn : y.getLsbD n = true
    · -- split off the highest bit that may be set
      rw [if_pos (h n hyn).1, List.mem_append, List.mem_map]
      right
      refine ⟨y &&& low w n, ih fun k hk => ?_, low_or_twoPow hyn fun k hk => (h k hk).2⟩
      rw [BitVec.getLsbD_and, getLsbD_low, Bool.and_eq_true, Bool.and_eq_true] at hk
      exact ⟨(h k hk.1).1, by simpa using hk.2.2⟩
    · -- the highest bit is not set, so that the word is among the first half
      have hrest : y ∈ subsetsBelow x n := by
        apply ih
        intro k hk
        obtain ⟨hx, hlt⟩ := h k hk
        refine ⟨hx, ?_⟩
        rcases Nat.lt_succ_iff_lt_or_eq.1 hlt with hlt | rfl
        · exact hlt
        · exact absurd hk hyn
      split
      · exact List.mem_append_left _ hrest
      · exact hrest

/-- Every word whose one bits are one bits of another is among its subsets. -/
theorem mem_subsets {x y : BitVec w} (h : ∀ k, y.getLsbD k = true → x.getLsbD k = true) :
    y ∈ subsets x :=
  mem_subsetsBelow fun k hk => ⟨h k hk, BitVec.lt_of_getLsbD hk⟩

end RefineCheck.Word
