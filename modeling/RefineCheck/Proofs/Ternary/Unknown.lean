/-
  RefineCheck.Proofs.Ternary.Unknown

  Where the unknown bits of a result come from. A bit of a result is unknown only if members of
  the operands give it different values, so it is enough to look for the bits of the operands
  that it depends on: all of them for arithmetic and comparisons, the same bit for the bitwise
  operators, and a moved one for shifts and changes of width.
-/

import Mathlib
import RefineCheck.Proofs.Ternary.Best

namespace RefineCheck.Ternary

variable {w v : Nat} {a b r : Ternary w} {words : Set (BitVec w)} {x y : BitVec w} {k : Nat}

/-! ## Different members -/

/-- Members differ in unknown bits only. -/
theorem unknown_of_ne (hx : x ∈ a) (hy : y ∈ a) (h : x.getLsbD k ≠ y.getLsbD k) :
    a.unknown.getLsbD k = true := by
  have hk : k < w := by
    by_contra hk
    rw [BitVec.getLsbD_of_ge x k (by omega), BitVec.getLsbD_of_ge y k (by omega)] at h
    exact h rfl
  by_contra hu
  have hknown : a.known.getLsbD k = true := by
    rw [known, BitVec.getLsbD_not, decide_eq_true hk]
    simpa using hu
  exact h (getLsbD_eq_of_known hx hy hk hknown)

/-- Both values of an unknown bit are attained. -/
theorem Attained.exists_ne (h : r.Attained words) (hk : r.unknown.getLsbD k = true) :
    ∃ x ∈ words, ∃ y ∈ words, x.getLsbD k ≠ y.getLsbD k := by
  rw [unknown, BitVec.getLsbD_and, Bool.and_eq_true] at hk
  have hkw := BitVec.lt_of_getLsbD hk.1
  obtain ⟨x, hx, hzero⟩ := h k hkw false hk.1
  obtain ⟨y, hy, hone⟩ := h k hkw true hk.2
  exact ⟨x, hx, y, hy, by rw [hzero, hone]; decide⟩

theorem Attained.unknown_eq_zero (h : r.Attained words) (hsingle : words.Subsingleton) :
    r.unknown = 0 := by
  by_contra hne
  obtain ⟨x, hx, y, hy, hxy⟩ := h.exists_ne (Word.getLsbD_highestBit hne)
  exact hxy (by rw [hsingle hx hy])

/-! ## Known operands -/

theorem unknown_ofWord (x : BitVec w) : (ofWord x).unknown = 0 := by
  rw [unknown, ofWord, BitVec.and_comm]
  exact BitVec.and_not_self x

theorem unknown_ofKnown (x known : BitVec w) : (ofKnown x known).unknown = ~~~known := by
  apply BitVec.eq_of_getLsbD_eq
  intro k hk
  simp only [unknown, ofKnown, BitVec.getLsbD_and, BitVec.getLsbD_or, BitVec.getLsbD_not]
  cases x.getLsbD k <;> simp [hk]

/-- A word all of whose bits are known has one member. -/
theorem subsingleton_of_unknown (h : a.unknown = 0) : {x | x ∈ a}.Subsingleton := by
  intro x hx y hy
  have hword : a.word? = some a.ones := if_pos h
  exact (eq_of_word? hword hx).trans (eq_of_word? hword hy).symm

theorem umin_eq_umax (h : a.unknown = 0) : a.umin = a.umax :=
  subsingleton_of_unknown h a.umin_mem a.umax_mem

theorem image2_subsingleton {f : BitVec w → BitVec w → BitVec v} (ha : a.unknown = 0)
    (hb : b.unknown = 0) : (Set.image2 f {x | x ∈ a} {y | y ∈ b}).Subsingleton := by
  rintro _ ⟨x, hx, y, hy, rfl⟩ _ ⟨x', hx', y', hy', rfl⟩
  rw [subsingleton_of_unknown ha hx hx', subsingleton_of_unknown hb hy hy']

theorem unary_known (op : UnaryOp) (ha : a.unknown = 0) : (a.unary op).unknown = 0 :=
  (unary_attained op a).unknown_eq_zero ((subsingleton_of_unknown ha).image _)

theorem ofExtremes_known (lo : Nat → Int) : (ofExtremes lo lo : Ternary w).unknown = 0 := by
  rw [ofExtremes, unknown_ofKnown]
  apply BitVec.eq_of_getLsbD_eq
  intro k hk
  simp [Word.getLsbD_ofBits, hk]

/-- Products are not decided exactly, but those of known operands are known. -/
theorem binary_known (op : BinaryOp) (ha : a.unknown = 0) (hb : b.unknown = 0) :
    (binary op a b).unknown = 0 := by
  by_cases hop : op = .mul
  · subst hop
    rw [binary, mul, umin_eq_umax ha, umin_eq_umax hb]
    exact ofExtremes_known _
  · exact (binary_attained hop a b).unknown_eq_zero (image2_subsingleton ha hb)

theorem compare_known (op : CompareOp) (ha : a.unknown = 0) (hb : b.unknown = 0) :
    (compare op a b).unknown = 0 :=
  (compare_attained op a b).unknown_eq_zero (image2_subsingleton ha hb)

theorem ofRange_known (x : BitVec w) : (ofRange x x).unknown = 0 := by
  rw [ofRange, unknown_ofKnown, BitVec.xor_self, Word.spread]
  simp

theorem attained_ofWord (hx : x ∈ words) : (ofWord x).Attained words := by
  intro k hk c hc
  refine ⟨x, hx, ?_⟩
  cases c with
  | false => simpa [flag, ofWord, hk] using hc
  | true => exact hc

/-- An enumeration that is not given up has no possible bits but those of results. -/
theorem enumerate_attained (f : BitVec w → BitVec w → BitVec w)
    (hcount : Word.count a.unknown + Word.count b.unknown ≤ enumerationLimit) :
    (a.enumerate b f).Attained (Set.image2 f {x | x ∈ a} {y | y ∈ b}) := by
  rw [enumerate, if_neg (Nat.not_lt_of_le hcount)]
  refine attained_joinAll _ fun r hr => ?_
  obtain ⟨x, hx, hr⟩ := List.mem_flatMap.1 hr
  obtain ⟨y, hy, rfl⟩ := List.mem_map.1 hr
  exact attained_ofWord ⟨x, mem_of_mem_members hx, y, mem_of_mem_members hy, rfl⟩

/-- Signed division of known operands is small enough to be enumerated. -/
theorem enumerate_known (f : BitVec w → BitVec w → BitVec w) (ha : a.unknown = 0)
    (hb : b.unknown = 0) : (a.enumerate b f).unknown = 0 := by
  have hcount : Word.count (0 : BitVec w) = 0 := by simp [Word.count]
  have hfew : Word.count a.unknown + Word.count b.unknown ≤ enumerationLimit := by
    rw [ha, hb, hcount]
    decide
  exact (enumerate_attained f hfew).unknown_eq_zero (image2_subsingleton ha hb)

theorem panicOf_known (hb : b.unknown = 0) (code : Nat) : (b.panicOf code).unknown = 0 := by
  have hword : b.word? = some b.ones := if_pos hb
  rw [panicOf]
  split
  · exact unknown_ofWord _
  · rename_i hne
    split
    · -- a divisor that may be zero is known to be zero
      rename_i hzero
      exact absurd (hword.trans (congrArg some (eq_of_word? hword hzero).symm)) hne
    · exact unknown_ofWord _

theorem divide_known (op : DivideOp) (ha : a.unknown = 0) (hb : b.unknown = 0) :
    (divide op a b).panic.unknown = 0 ∧ (divide op a b).result.unknown = 0 := by
  refine ⟨panicOf_known hb _, ?_⟩
  cases op with
  | udiv =>
    show (a.udiv b).unknown = 0
    rw [udiv, umin_eq_umax ha, umin_eq_umax hb]
    exact ofRange_known _
  | urem =>
    show (a.urem b).unknown = 0
    rw [urem, umin_eq_umax ha, umin_eq_umax hb, if_pos rfl]
    exact ofRange_known _
  | sdiv => exact enumerate_known _ ha hb
  | srem => exact enumerate_known _ ha hb

/-! ## Bits that keep their place -/

theorem unknown_not (a : Ternary w) : a.not.unknown = a.unknown := BitVec.and_comm _ _

/-- A bit of a conjunction, a disjunction or an exclusive or comes from the same bit of the
    operands. -/
theorem unknown_bitwise {op : BinaryOp} (hop : op = .and ∨ op = .or ∨ op = .xor)
    (h : (binary op a b).unknown.getLsbD k = true) :
    a.unknown.getLsbD k = true ∨ b.unknown.getLsbD k = true := by
  have hmul : op ≠ .mul := by rintro rfl; simp at hop
  obtain ⟨_, ⟨x, hx, y, hy, rfl⟩, _, ⟨x', hx', y', hy', rfl⟩, hne⟩ :=
    (binary_attained hmul a b).exists_ne h
  -- members that agree at this bit in both operands would give the same bit
  by_cases hxx : x.getLsbD k = x'.getLsbD k
  · right
    refine unknown_of_ne hy hy' fun hyy => hne ?_
    rcases hop with rfl | rfl | rfl <;> simp [BinaryOp.onWords, hxx, hyy]
  · exact .inl (unknown_of_ne hx hx' hxx)

/-! ## Bits that move -/

theorem unknown_uext (h : (a.uext v).unknown.getLsbD k = true) : a.unknown.getLsbD k = true := by
  obtain ⟨_, ⟨x, hx, rfl⟩, _, ⟨y, hy, rfl⟩, hne⟩ := (uext_attained a v).exists_ne h
  refine unknown_of_ne hx hy fun he => hne ?_
  rw [BitVec.getLsbD_setWidth, BitVec.getLsbD_setWidth, he]

/-- The bits that sign extension adds come from the sign bit. -/
theorem unknown_sext (h : (a.sext v).unknown.getLsbD k = true) :
    a.unknown.getLsbD (if k < w then k else w - 1) = true := by
  obtain ⟨_, ⟨x, hx, rfl⟩, _, ⟨y, hy, rfl⟩, hne⟩ := (sext_attained a v).exists_ne h
  refine unknown_of_ne hx hy fun he => hne ?_
  rw [BitVec.getLsbD_signExtend, BitVec.getLsbD_signExtend, BitVec.msb_eq_getLsbD_last,
    BitVec.msb_eq_getLsbD_last]
  split at he
  · rename_i hk
    rw [if_pos hk, if_pos hk, he]
  · rename_i hk
    rw [if_neg hk, if_neg hk, he]

section Shift

variable (hy : y ∈ b) (hb : b.unknown = 0)
include hy hb

theorem unknown_shl (h : (a.shl b).unknown.getLsbD k = true) :
    y.toNat < w ∧ y.toNat ≤ k ∧ a.unknown.getLsbD (k - y.toNat) = true := by
  obtain ⟨_, ⟨x, hx, z, hz, rfl⟩, _, ⟨x', hx', z', hz', rfl⟩, hne⟩ := (shl_attained a b).exists_ne h
  obtain rfl := subsingleton_of_unknown hb hy hz
  obtain rfl := subsingleton_of_unknown hb hy hz'
  rw [Word.shl, Word.shl] at hne
  by_cases hlt : y.toNat < w
  · rw [if_pos hlt, if_pos hlt, BitVec.getLsbD_shiftLeft, BitVec.getLsbD_shiftLeft] at hne
    by_cases hle : y.toNat ≤ k
    · refine ⟨hlt, hle, unknown_of_ne hx hx' fun he => hne (by rw [he])⟩
    · -- zeros are shifted in
      simp [show k < y.toNat by omega] at hne
  · simp [hlt] at hne

theorem unknown_lshr (h : (a.lshr b).unknown.getLsbD k = true) :
    y.toNat < w ∧ a.unknown.getLsbD (y.toNat + k) = true := by
  obtain ⟨_, ⟨x, hx, z, hz, rfl⟩, _, ⟨x', hx', z', hz', rfl⟩, hne⟩ := (lshr_attained a b).exists_ne h
  obtain rfl := subsingleton_of_unknown hb hy hz
  obtain rfl := subsingleton_of_unknown hb hy hz'
  rw [Word.lshr, Word.lshr] at hne
  by_cases hlt : y.toNat < w
  · rw [if_pos hlt, if_pos hlt, BitVec.getLsbD_ushiftRight, BitVec.getLsbD_ushiftRight] at hne
    exact ⟨hlt, unknown_of_ne hx hx' hne⟩
  · simp [hlt] at hne

/-- The bits that are shifted in come from the sign bit, all of them if the amount is at least the
    width. -/
theorem unknown_ashr (h : (a.ashr b).unknown.getLsbD k = true) :
    a.unknown.getLsbD (if y.toNat + k < w then y.toNat + k else w - 1) = true := by
  have hk : k < w := BitVec.lt_of_getLsbD h
  obtain ⟨_, ⟨x, hx, z, hz, rfl⟩, _, ⟨x', hx', z', hz', rfl⟩, hne⟩ := (ashr_attained a b).exists_ne h
  obtain rfl := subsingleton_of_unknown hb hy hz
  obtain rfl := subsingleton_of_unknown hb hy hz'
  have hsource : (if min y.toNat w + k < w then min y.toNat w + k else w - 1) =
      if y.toNat + k < w then y.toNat + k else w - 1 := by
    split <;> split <;> omega
  rw [Word.ashr, Word.ashr, Word.getLsbD_sshiftRight _ _ hk, Word.getLsbD_sshiftRight _ _ hk,
    hsource] at hne
  exact unknown_of_ne hx hx' hne

end Shift

end RefineCheck.Ternary
