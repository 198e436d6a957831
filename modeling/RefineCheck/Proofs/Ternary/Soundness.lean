/-
  RefineCheck.Proofs.Ternary.Soundness

  Every operator on three-valued words holds the result of the operator on words, for all
  members of its operands. Sums, differences and products are decided from the extremes
  modulo a power of two: the part below a bit grows with the members, so if its extremes
  agree the bit has one value.
-/

import Mathlib
import RefineCheck.Proofs.Word.Bits
import RefineCheck.Ternary.Operations

namespace RefineCheck.Ternary

variable {w : Nat}

/-! ## Members of constructed words -/

theorem mem_ofWord {x y : BitVec w} : x ∈ ofWord y ↔ x = y := by
  rw [mem_iff]
  constructor
  · intro h
    apply BitVec.eq_of_getLsbD_eq
    intro k hk
    have hb := h k hk
    simp only [ofWord, BitVec.getLsbD_not, hk, decide_true, Bool.true_and] at hb
    cases hx : x.getLsbD k <;> simp_all
  · rintro rfl k hk
    simp only [ofWord, BitVec.getLsbD_not, hk, decide_true, Bool.true_and]
    cases x.getLsbD k <;> simp

theorem mem_join_left {a : Ternary w} (b : Ternary w) {x : BitVec w} (h : x ∈ a) :
    x ∈ a.join b := by
  refine mem_of_getLsbD (fun k hk hx => ?_) fun k hk hx => ?_
  · rw [join, BitVec.getLsbD_or, ones_of_mem h hk hx, Bool.true_or]
  · rw [join, BitVec.getLsbD_or, zeros_of_mem h hk hx, Bool.true_or]

theorem mem_join_right (a : Ternary w) {b : Ternary w} {x : BitVec w} (h : x ∈ b) :
    x ∈ a.join b := by
  refine mem_of_getLsbD (fun k hk hx => ?_) fun k hk hx => ?_
  · rw [join, BitVec.getLsbD_or, ones_of_mem h hk hx, Bool.or_true]
  · rw [join, BitVec.getLsbD_or, zeros_of_mem h hk hx, Bool.or_true]

theorem mem_foldl_join {x : BitVec w} {rest : List (Ternary w)} {a : Ternary w}
    (h : x ∈ a ∨ ∃ b ∈ rest, x ∈ b) : x ∈ rest.foldl join a := by
  induction rest generalizing a with
  | nil => simpa using h
  | cons b rest ih =>
    apply ih
    rcases h with h | ⟨c, hc, hx⟩
    · exact .inl (mem_join_left b h)
    · rcases List.mem_cons.1 hc with rfl | hc
      · exact .inl (mem_join_right a hx)
      · exact .inr ⟨c, hc, hx⟩

/-- The join of a list holds the members of each part. -/
theorem mem_joinAll {x : BitVec w} {l : List (Ternary w)} (hl : l ≠ []) {a : Ternary w}
    (ha : a ∈ l) (h : x ∈ a) : x ∈ joinAll l hl := by
  cases l with
  | nil => exact absurd rfl hl
  | cons b rest =>
    apply mem_foldl_join
    rcases List.mem_cons.1 ha with rfl | ha
    · exact .inl h
    · exact .inr ⟨a, ha, h⟩

/-- The common members of two three-valued words are those of their meet. -/
theorem meet?_eq_some {a b c : Ternary w} (h : a.meet? b = some c) (x : BitVec w) :
    x ∈ c ↔ x ∈ a ∧ x ∈ b := by
  rw [meet?, ofFlags?] at h
  split at h
  · obtain rfl := Option.some.inj h
    simp only [mem_iff, BitVec.getLsbD_and, ← forall_and]
    refine forall_congr' fun k => forall_congr' fun _ => ?_
    split <;> simp
  · cases h

theorem mem_of_contains {a b : Ternary w} (h : a.contains b = true) {x : BitVec w} (hx : x ∈ b) :
    x ∈ a := by
  simp only [contains, Bool.and_eq_true, beq_iff_eq] at h
  refine mem_of_getLsbD (fun k hk hk1 => ?_) fun k hk hk0 => ?_
  · have hb := ones_of_mem hx hk hk1
    have e := congrArg (BitVec.getLsbD · k) h.2
    simpa [hb, hk] using e
  · have hb := zeros_of_mem hx hk hk0
    have e := congrArg (BitVec.getLsbD · k) h.1
    simpa [hb, hk] using e

/-! ## Arithmetic -/

/-- Bit `k` of a word follows from any number that is congruent to it modulo `2 ^ (k + 1)`. -/
theorem getLsbD_of_emod {z : BitVec w} {n : Int} {k : Nat}
    (h : (z.toNat : Int) % 2 ^ (k + 1) = n % 2 ^ (k + 1)) :
    z.getLsbD k = decide (n / 2 ^ k % 2 = 1) := by
  obtain ⟨t, ht⟩ := Int.ModEq.dvd h
  have e : n = z.toNat + 2 ^ k * (2 * t) := by
    rw [pow_succ] at ht
    linarith
  show z.toNat.testBit k = _
  rw [Nat.testBit_eq_decide_div_mod_eq, decide_eq_decide, e,
    Int.add_mul_ediv_left _ _ (pow_ne_zero k two_ne_zero), Int.add_mul_emod_self_left]
  norm_cast

/-- A word of which each bit lies between two extremes of a growing quantity, so that the bit is
    its parity where the extremes agree. -/
theorem mem_ofExtremes {z : BitVec w} {lo hi : Nat → Int} (part : Nat → Int)
    (hbit : ∀ k < w, z.getLsbD k = decide (part k % 2 = 1))
    (hlo : ∀ k < w, lo k ≤ part k) (hhi : ∀ k < w, part k ≤ hi k) : z ∈ ofExtremes lo hi := by
  rw [ofExtremes, mem_ofKnown]
  intro k hk hknown
  rw [Word.getLsbD_ofBits] at hknown ⊢
  simp only [hk, decide_true, Bool.true_and, beq_iff_eq] at hknown ⊢
  have h1 := hlo k hk
  have h2 := hhi k hk
  have e : part k = lo k := by omega
  rw [hbit k hk, e]
  rfl

/-- The lowest bits of a member lie between those of the extremes. -/
theorem mod_card_le {x y : BitVec w} (n : Nat)
    (h : ∀ k < w, x.getLsbD k = true → y.getLsbD k = true) :
    x.toNat % Word.card n ≤ y.toNat % Word.card n := by
  have hle : x.setWidth n ≤ y.setWidth n := by
    apply Word.le_of_bits
    intro k hk hx
    rw [BitVec.getLsbD_setWidth, Bool.and_eq_true] at hx ⊢
    exact ⟨hx.1, h k (BitVec.lt_of_getLsbD hx.2) hx.2⟩
  rw [BitVec.le_def, BitVec.toNat_setWidth, BitVec.toNat_setWidth] at hle
  exact hle

theorem umin_mod_le {a : Ternary w} {x : BitVec w} (h : x ∈ a) (n : Nat) :
    a.umin.toNat % Word.card n ≤ x.toNat % Word.card n := by
  apply mod_card_le
  intro k hk hm
  cases hx : x.getLsbD k
  · simp [umin, zeros_of_mem h hk hx] at hm
  · rfl

theorem mod_le_umax {a : Ternary w} {x : BitVec w} (h : x ∈ a) (n : Nat) :
    x.toNat % Word.card n ≤ a.umax.toNat % Word.card n :=
  mod_card_le n fun _ hk hx => ones_of_mem h hk hx

theorem card_eq (n : Nat) : ((Word.card n : Nat) : Int) = 2 ^ n := by
  show ((2 ^ n : Nat) : Int) = 2 ^ n
  norm_cast

/-- Reducing a word modulo a power of two within its width, as an integer. -/
theorem toNat_emod_of_dvd {w k : Nat} (hk : k < w) (n : Nat) :
    ((n % 2 ^ w : Nat) : Int) % 2 ^ (k + 1) = (n : Int) % 2 ^ (k + 1) := by
  have hd : (2 : Nat) ^ (k + 1) ∣ 2 ^ w := Nat.pow_dvd_pow 2 hk
  have := Nat.mod_mod_of_dvd n hd
  exact_mod_cast this

/-- Bit `k` of a sum is the parity of the lowest `k + 1` bits of the operands, added up and counted
    from bit `k` on. -/
theorem getLsbD_add_eq (x y : BitVec w) {k : Nat} (hk : k < w) :
    (x + y).getLsbD k = decide ((((x.toNat % Word.card (k + 1) + y.toNat % Word.card (k + 1)) /
      Word.card k : Nat) : Int) % 2 = 1) := by
  push_cast
  simp only [card_eq]
  apply getLsbD_of_emod
  rw [BitVec.toNat_add, toNat_emod_of_dvd hk]
  push_cast
  simp [Int.add_emod]

theorem add_mem {a b : Ternary w} {x y : BitVec w} (hx : x ∈ a) (hy : y ∈ b) :
    x + y ∈ a.add b := by
  refine mem_ofExtremes (fun k =>
    ((x.toNat % Word.card (k + 1) + y.toNat % Word.card (k + 1)) / Word.card k : Nat))
    (fun k => getLsbD_add_eq x y) ?_ ?_
  · intro k _
    exact_mod_cast Nat.div_le_div_right (Nat.add_le_add (umin_mod_le hx _) (umin_mod_le hy _))
  · intro k _
    exact_mod_cast Nat.div_le_div_right (Nat.add_le_add (mod_le_umax hx _) (mod_le_umax hy _))

theorem mul_mem {a b : Ternary w} {x y : BitVec w} (hx : x ∈ a) (hy : y ∈ b) :
    x * y ∈ a.mul b := by
  refine mem_ofExtremes (fun k =>
    (x.toNat % Word.card (k + 1) * (y.toNat % Word.card (k + 1)) / Word.card k : Nat)) ?_ ?_ ?_
  · intro k hk
    push_cast
    simp only [card_eq]
    apply getLsbD_of_emod
    rw [BitVec.toNat_mul, toNat_emod_of_dvd hk]
    push_cast
    simp [Int.mul_emod]
  · intro k _
    exact_mod_cast Nat.div_le_div_right (Nat.mul_le_mul (umin_mod_le hx _) (umin_mod_le hy _))
  · intro k _
    exact_mod_cast Nat.div_le_div_right (Nat.mul_le_mul (mod_le_umax hx _) (mod_le_umax hy _))

/-- Bit `k` of a difference follows from the lowest `k + 1` bits in the same way. -/
theorem getLsbD_sub_eq (x y : BitVec w) {k : Nat} (hk : k < w) :
    (x - y).getLsbD k = decide ((((x.toNat % Word.card (k + 1) : Nat) : Int) -
      (y.toNat % Word.card (k + 1) : Nat)) / (Word.card k : Nat) % 2 = 1) := by
  push_cast
  simp only [card_eq]
  apply getLsbD_of_emod
  rw [BitVec.toNat_sub, toNat_emod_of_dvd hk]
  have hle : y.toNat ≤ 2 ^ w := Nat.le_of_lt y.isLt
  have hd : (2 : Int) ^ (k + 1) ∣ 2 ^ w := pow_dvd_pow 2 hk
  push_cast [Nat.cast_sub hle]
  rw [show (2 : Int) ^ w - y.toNat + x.toNat = 2 ^ w + (x.toNat - y.toNat) by ring,
    Int.add_emod, Int.emod_eq_zero_of_dvd hd]
  simp [Int.sub_emod]

theorem sub_mem {a b : Ternary w} {x y : BitVec w} (hx : x ∈ a) (hy : y ∈ b) :
    x - y ∈ a.sub b := by
  refine mem_ofExtremes (fun k =>
    (((x.toNat % Word.card (k + 1) : Nat) : Int) - (y.toNat % Word.card (k + 1) : Nat)) /
      (Word.card k : Nat)) (fun k => getLsbD_sub_eq x y) ?_ ?_
  · intro k _
    apply Int.ediv_le_ediv (by exact_mod_cast Nat.two_pow_pos k)
    have h1 := umin_mod_le hx (k + 1)
    have h2 := mod_le_umax hy (k + 1)
    omega
  · intro k _
    apply Int.ediv_le_ediv (by exact_mod_cast Nat.two_pow_pos k)
    have h1 := mod_le_umax hx (k + 1)
    have h2 := umin_mod_le hy (k + 1)
    omega

theorem neg_mem {a : Ternary w} {x : BitVec w} (hx : x ∈ a) : -x ∈ a.neg := by
  have h := sub_mem (mem_ofWord.2 (rfl : (0 : BitVec w) = 0)) hx
  rwa [show (0 : BitVec w) - x = -x from BitVec.zero_sub x] at h

/-! ## Bitwise operators -/

theorem not_mem {a : Ternary w} {x : BitVec w} (hx : x ∈ a) : ~~~x ∈ a.not := by
  refine mem_of_getLsbD (fun k hk h => ?_) fun k hk h => ?_
  · rw [BitVec.getLsbD_not, Bool.and_eq_true] at h
    exact zeros_of_mem hx hk (by simpa using h.2)
  · rw [BitVec.getLsbD_not] at h
    exact ones_of_mem hx hk (by simpa [hk] using h)

theorem and_mem {a b : Ternary w} {x y : BitVec w} (hx : x ∈ a) (hy : y ∈ b) :
    x &&& y ∈ a.and b := by
  refine mem_of_getLsbD (fun k hk h => ?_) fun k hk h => ?_
  · rw [BitVec.getLsbD_and, Bool.and_eq_true] at h
    rw [and, BitVec.getLsbD_and, ones_of_mem hx hk h.1, ones_of_mem hy hk h.2]
    rfl
  · rw [BitVec.getLsbD_and, Bool.and_eq_false_iff] at h
    rw [and, BitVec.getLsbD_or]
    rcases h with h | h
    · rw [zeros_of_mem hx hk h, Bool.true_or]
    · rw [zeros_of_mem hy hk h, Bool.or_true]

theorem or_mem {a b : Ternary w} {x y : BitVec w} (hx : x ∈ a) (hy : y ∈ b) :
    x ||| y ∈ a.or b := by
  have h := not_mem (and_mem (not_mem hx) (not_mem hy))
  rwa [BitVec.not_and, BitVec.not_not, BitVec.not_not] at h

theorem xor_mem {a b : Ternary w} {x y : BitVec w} (hx : x ∈ a) (hy : y ∈ b) :
    x ^^^ y ∈ a.xor b := by
  refine mem_of_getLsbD (fun k hk h => ?_) fun k hk h => ?_
  · rw [xor, BitVec.getLsbD_or, BitVec.getLsbD_and, BitVec.getLsbD_and]
    rw [BitVec.getLsbD_xor] at h
    cases hxk : x.getLsbD k
    · have hyk : y.getLsbD k = true := by simpa [hxk] using h
      rw [zeros_of_mem hx hk hxk, ones_of_mem hy hk hyk]
      rfl
    · have hyk : y.getLsbD k = false := by simpa [hxk] using h
      rw [ones_of_mem hx hk hxk, zeros_of_mem hy hk hyk]
      exact Bool.or_true _
  · rw [xor, BitVec.getLsbD_or, BitVec.getLsbD_and, BitVec.getLsbD_and]
    rw [BitVec.getLsbD_xor] at h
    cases hxk : x.getLsbD k
    · have hyk : y.getLsbD k = false := by simpa [hxk] using h
      rw [zeros_of_mem hx hk hxk, zeros_of_mem hy hk hyk]
      rfl
    · have hyk : y.getLsbD k = true := by simpa [hxk] using h
      rw [ones_of_mem hx hk hxk, ones_of_mem hy hk hyk]
      exact Bool.or_true _

/-! ## Shifts -/

theorem shlBy_mem {a : Ternary w} {x : BitVec w} (hx : x ∈ a) (n : Nat) : x <<< n ∈ a.shlBy n := by
  refine mem_of_getLsbD (fun k hk h => ?_) fun k hk h => ?_
  · rw [BitVec.getLsbD_shiftLeft] at h
    simp only [Bool.and_eq_true, Bool.not_eq_true', decide_eq_true_eq, decide_eq_false_iff_not] at h
    rw [shlBy, BitVec.getLsbD_shiftLeft, ones_of_mem hx (show k - n < w by omega) h.2]
    simp [hk, h.1.2]
  · rw [BitVec.getLsbD_shiftLeft] at h
    rw [shlBy, BitVec.getLsbD_not, BitVec.getLsbD_shiftLeft, BitVec.getLsbD_not]
    by_cases hn : k < n
    · simp [hk, hn]
    · have hxk : x.getLsbD (k - n) = false := by simpa [hk, hn] using h
      rw [zeros_of_mem hx (show k - n < w by omega) hxk]
      simp [hk]

theorem lshrBy_mem {a : Ternary w} {x : BitVec w} (hx : x ∈ a) (n : Nat) :
    x >>> n ∈ a.lshrBy n := by
  refine mem_of_getLsbD (fun k hk h => ?_) fun k hk h => ?_
  · rw [BitVec.getLsbD_ushiftRight] at h
    rw [lshrBy, BitVec.getLsbD_ushiftRight]
    exact ones_of_mem hx (BitVec.lt_of_getLsbD h) h
  · rw [BitVec.getLsbD_ushiftRight] at h
    rw [lshrBy, BitVec.getLsbD_not, BitVec.getLsbD_ushiftRight, BitVec.getLsbD_not]
    by_cases hn : n + k < w
    · simp [hk, zeros_of_mem hx hn h]
    · simp [hk, hn]

theorem ashrBy_mem {a : Ternary w} {x : BitVec w} (hx : x ∈ a) (n : Nat) :
    x.sshiftRight n ∈ a.ashrBy n := by
  refine mem_of_getLsbD (fun k hk h => ?_) fun k hk h => ?_
  · rw [Word.getLsbD_sshiftRight x n hk] at h
    rw [ashrBy, Word.getLsbD_sshiftRight _ n hk]
    exact ones_of_mem hx (by split <;> omega) h
  · rw [Word.getLsbD_sshiftRight x n hk] at h
    rw [ashrBy, Word.getLsbD_sshiftRight _ n hk]
    exact zeros_of_mem hx (by split <;> omega) h

/-- A shift holds the result for every amount that its operand admits. -/
theorem shift_mem {amount : Ternary w} {y z : BitVec w} {by_ : Nat → Ternary w}
    (hy : y ∈ amount) (h : z ∈ by_ (min y.toNat w)) : z ∈ amount.shift by_ := by
  refine mem_joinAll _ (List.mem_map.2 ⟨min y.toNat w, ?_, rfl⟩) h
  rw [amounts, List.mem_append, List.mem_filter, List.mem_range]
  by_cases hlt : y.toNat < w
  · left
    rw [Nat.min_eq_left (Nat.le_of_lt hlt)]
    exact ⟨hlt, by simpa using hy⟩
  · right
    have hle := le_umax hy
    rw [BitVec.le_def] at hle
    rw [Nat.min_eq_right (by omega), if_pos (by omega)]
    exact List.mem_singleton.2 rfl

theorem shl_mem {a b : Ternary w} {x y : BitVec w} (hx : x ∈ a) (hy : y ∈ b) :
    Word.shl x y ∈ a.shl b := by
  rw [Word.shl_eq]
  exact shift_mem hy (shlBy_mem hx _)

theorem lshr_mem {a b : Ternary w} {x y : BitVec w} (hx : x ∈ a) (hy : y ∈ b) :
    Word.lshr x y ∈ a.lshr b := by
  rw [Word.lshr_eq]
  exact shift_mem hy (lshrBy_mem hx _)

theorem ashr_mem {a b : Ternary w} {x y : BitVec w} (hx : x ∈ a) (hy : y ∈ b) :
    Word.ashr x y ∈ a.ashr b :=
  shift_mem hy (ashrBy_mem hx _)

/-! ## Change of width -/

theorem uext_mem {a : Ternary w} {x : BitVec w} (hx : x ∈ a) (v : Nat) :
    x.setWidth v ∈ a.uext v := by
  refine mem_of_getLsbD (fun k hk h => ?_) fun k hk h => ?_
  · rw [BitVec.getLsbD_setWidth, Bool.and_eq_true] at h
    rw [uext, BitVec.getLsbD_setWidth, ones_of_mem hx (BitVec.lt_of_getLsbD h.2) h.2, h.1]
    rfl
  · rw [BitVec.getLsbD_setWidth] at h
    rw [uext, BitVec.getLsbD_not, BitVec.getLsbD_setWidth, BitVec.getLsbD_not]
    have hxk : x.getLsbD k = false := by simpa [hk] using h
    by_cases hw : k < w
    · simp [hk, zeros_of_mem hx hw hxk]
    · simp [hk, hw]

theorem sext_mem {a : Ternary w} {x : BitVec w} (hx : x ∈ a) (v : Nat) :
    x.signExtend v ∈ a.sext v := by
  have msb_not {w : Nat} (hw : 0 < w) (z : BitVec w) :
      (~~~z).getLsbD (w - 1) = !z.getLsbD (w - 1) := by
    rw [BitVec.getLsbD_not]
    simp [show w - 1 < w by omega]
  refine mem_of_getLsbD (fun k hk h => ?_) fun k hk h => ?_
  · rw [BitVec.getLsbD_signExtend, Bool.and_eq_true] at h
    rw [sext, BitVec.getLsbD_signExtend, h.1, Bool.true_and]
    have hb := h.2
    split at hb
    · rw [if_pos ‹_›]
      exact ones_of_mem hx ‹_› hb
    · rw [if_neg ‹_›]
      rw [BitVec.msb_eq_getLsbD_last] at hb ⊢
      exact ones_of_mem hx (BitVec.lt_of_getLsbD hb) hb
  · rw [BitVec.getLsbD_signExtend] at h
    simp only [hk, decide_true, Bool.true_and] at h
    rw [sext, BitVec.getLsbD_not, BitVec.getLsbD_signExtend]
    simp only [hk, decide_true, Bool.true_and]
    split at h
    · rw [if_pos ‹_›, BitVec.getLsbD_not, zeros_of_mem hx ‹_› h]
      simp
    · rw [if_neg ‹_›, BitVec.msb_eq_getLsbD_last]
      rw [BitVec.msb_eq_getLsbD_last] at h
      rcases Nat.eq_zero_or_pos w with rfl | hw
      · simp
      · rw [msb_not hw, zeros_of_mem hx (show w - 1 < w by omega) h]
        rfl

/-! ## Comparisons -/

theorem mem_truth {canBeFalse canBeTrue : Bool} (h : (canBeFalse || canBeTrue) = true) (b : Bool) :
    BitVec.ofBool b ∈ truth canBeFalse canBeTrue h ↔
      (b = true → canBeTrue = true) ∧ (b = false → canBeFalse = true) := by
  revert h
  cases canBeFalse <;> cases canBeTrue <;> cases b <;> decide

theorem eq_mem {a b : Ternary w} {x y : BitVec w} (hx : x ∈ a) (hy : y ∈ b) :
    BitVec.ofBool (x == y) ∈ a.eq b := by
  rw [eq, mem_truth]
  constructor
  · intro h
    obtain rfl : x = y := by simpa using h
    rw [canAgree, beq_iff_eq]
    apply total_of_bits
    intro k hk
    rw [BitVec.getLsbD_and, BitVec.getLsbD_and]
    cases hxk : x.getLsbD k
    · rw [zeros_of_mem hx hk hxk, zeros_of_mem hy hk hxk]
      rfl
    · rw [ones_of_mem hx hk hxk, ones_of_mem hy hk hxk]
      exact Bool.or_true _
  · intro h
    rw [canDiffer, bne_iff_ne]
    intro e
    -- if no bit may differ, the members agree on every bit
    refine absurd ?_ (show ¬ x = y by simpa using h)
    apply BitVec.eq_of_getLsbD_eq
    intro k hk
    have hk' := congrArg (BitVec.getLsbD · k) e
    simp only [BitVec.getLsbD_or, BitVec.getLsbD_and] at hk'
    cases hxk : x.getLsbD k <;> cases hyk : y.getLsbD k
    · rfl
    · simp [zeros_of_mem hx hk hxk, ones_of_mem hy hk hyk] at hk'
    · simp [ones_of_mem hx hk hxk, zeros_of_mem hy hk hyk] at hk'
    · rfl

theorem ult_mem {a b : Ternary w} {x y : BitVec w} (hx : x ∈ a) (hy : y ∈ b) :
    BitVec.ofBool (x.ult y) ∈ a.ult b := by
  have h1 := umin_le hx
  have h2 := le_umax hx
  have h3 := umin_le hy
  have h4 := le_umax hy
  rw [ult, mem_truth]
  simp only [BitVec.ult, BitVec.ule, BitVec.le_def, decide_eq_true_eq, decide_eq_false_iff_not] at *
  omega

theorem ule_mem {a b : Ternary w} {x y : BitVec w} (hx : x ∈ a) (hy : y ∈ b) :
    BitVec.ofBool (x.ule y) ∈ a.ule b := by
  have h1 := umin_le hx
  have h2 := le_umax hx
  have h3 := umin_le hy
  have h4 := le_umax hy
  rw [ule, mem_truth]
  simp only [BitVec.ult, BitVec.ule, BitVec.le_def, decide_eq_true_eq, decide_eq_false_iff_not] at *
  omega

theorem slt_mem {a b : Ternary w} {x y : BitVec w} (hx : x ∈ a) (hy : y ∈ b) :
    BitVec.ofBool (x.slt y) ∈ a.slt b := by
  have h1 := smin_sle hx
  have h2 := sle_smax hx
  have h3 := smin_sle hy
  have h4 := sle_smax hy
  rw [slt, mem_truth]
  simp only [BitVec.slt, BitVec.sle, decide_eq_true_eq, decide_eq_false_iff_not] at *
  omega

theorem sle_mem {a b : Ternary w} {x y : BitVec w} (hx : x ∈ a) (hy : y ∈ b) :
    BitVec.ofBool (x.sle y) ∈ a.sle b := by
  have h1 := smin_sle hx
  have h2 := sle_smax hx
  have h3 := smin_sle hy
  have h4 := sle_smax hy
  rw [sle, mem_truth]
  simp only [BitVec.slt, BitVec.sle, decide_eq_true_eq, decide_eq_false_iff_not] at *
  omega

/-! ## Division -/

theorem mem_ofRange {lo hi x : BitVec w} (hlo : lo ≤ x) (hhi : x ≤ hi) : x ∈ ofRange lo hi := by
  rw [ofRange, mem_ofKnown]
  intro k hk hknown
  rw [BitVec.getLsbD_not, Word.getLsbD_spread _ hk] at hknown
  by_cases he : lo ^^^ hi = 0
  · -- the ends are one word
    have hends : ∀ j, 0 ≤ j → lo.getLsbD j = hi.getLsbD j := by
      intro j _
      have := congrArg (BitVec.getLsbD · j) he
      simpa [BitVec.getLsbD_xor] using this
    exact Word.getLsbD_of_between hlo hhi hends (Nat.zero_le k)
  · have habove : Word.highestBit (lo ^^^ hi) + 1 ≤ k := by
      rw [decide_eq_true hk, decide_eq_true he] at hknown
      have : ¬ k ≤ Word.highestBit (lo ^^^ hi) := by simpa using hknown
      omega
    refine Word.getLsbD_of_between hlo hhi (fun j hj => ?_) habove
    have := Word.getLsbD_above_highestBit (x := lo ^^^ hi) (k := j) (by omega)
    simpa [BitVec.getLsbD_xor] using this

theorem udiv_mem {a b : Ternary w} {x y : BitVec w} (hx : x ∈ a) (hy : y ∈ b) :
    Word.udiv x y ∈ a.udiv b :=
  mem_ofRange (Word.udiv_le_udiv (umin_le hx) (le_umax hy))
    (Word.udiv_le_udiv (le_umax hx) (umin_le hy))

theorem urem_mem {a b : Ternary w} {x y : BitVec w} (hx : x ∈ a) (hy : y ∈ b) :
    Word.urem x y ∈ a.urem b := by
  rw [urem]
  split
  · rename_i hq
    obtain ⟨hlo, hhi⟩ := Word.udiv_eq_of_between (umin_le hx) (le_umax hx) (umin_le hy)
      (le_umax hy) hq
    exact mem_ofRange (Word.urem_le_urem (umin_le hx) (le_umax hy) hlo)
      (Word.urem_le_urem (le_umax hx) (umin_le hy) hhi)
  · exact mem_full _

/-- The members of a three-valued word are listed. -/
theorem mem_members {a : Ternary w} {x : BitVec w} (h : x ∈ a) : x ∈ a.members := by
  rw [members, List.mem_map]
  refine ⟨x &&& a.unknown, Word.mem_subsets fun k hk => ?_, ?_⟩
  · rw [BitVec.getLsbD_and, Bool.and_eq_true] at hk
    exact hk.2
  · apply BitVec.eq_of_getLsbD_eq
    intro k hk
    have := a.getLsbD_total hk
    simp only [umin, unknown, BitVec.getLsbD_or, BitVec.getLsbD_and, BitVec.getLsbD_not, hk,
      decide_true, Bool.true_and]
    cases hxk : x.getLsbD k
    · simp [zeros_of_mem h hk hxk]
    · simp [ones_of_mem h hk hxk]

theorem enumerate_mem {a b : Ternary w} {x y : BitVec w} (hx : x ∈ a) (hy : y ∈ b)
    (f : BitVec w → BitVec w → BitVec w) : f x y ∈ a.enumerate b f := by
  rw [enumerate]
  split
  · exact mem_full _
  · refine mem_joinAll _ (List.mem_flatMap.2 ⟨x, mem_members hx, ?_⟩) (mem_ofWord.2 rfl)
    exact List.mem_map.2 ⟨y, mem_members hy, rfl⟩

theorem eq_of_word? {a : Ternary w} {x y : BitVec w} (h : a.word? = some y) (hx : x ∈ a) :
    x = y := by
  rw [word?] at h
  split at h
  · rename_i hu
    obtain rfl := Option.some.inj h
    apply BitVec.eq_of_getLsbD_eq
    intro k hk
    have hb := congrArg (BitVec.getLsbD · k) hu
    simp only [unknown, BitVec.getLsbD_and] at hb
    cases hxk : x.getLsbD k
    · simpa [zeros_of_mem hx hk hxk] using hb.symm
    · exact (ones_of_mem hx hk hxk).symm
  · cases h

/-- The codes a division may raise: the operator's own one if the divisor may be zero, and none
    if it may be nonzero. -/
theorem panicOf_mem {b : Ternary w} {y : BitVec w} (hy : y ∈ b) (code : Nat) :
    BitVec.ofNat panicWidth (if y = 0 then code else noPanic) ∈ b.panicOf code := by
  rw [panicOf]
  by_cases h0 : b.word? = some 0
  · rw [if_pos h0, if_pos (eq_of_word? h0 hy)]
    exact mem_ofWord.2 rfl
  · rw [if_neg h0]
    by_cases hm : (0 : BitVec w) ∈ b
    · rw [if_pos hm]
      split
      · exact mem_join_right _ (mem_ofWord.2 rfl)
      · exact mem_join_left _ (mem_ofWord.2 rfl)
    · have hne : ¬ y = 0 := fun e => hm (by rwa [e] at hy)
      rw [if_neg hm, if_neg hne]
      exact mem_ofWord.2 rfl

end RefineCheck.Ternary
