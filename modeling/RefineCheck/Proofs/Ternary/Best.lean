/-
  RefineCheck.Proofs.Ternary.Best

  The operators on three-valued words other than the product know every bit that can be known: a
  bit of the result may have a value only if it has that value for some members of the operands. So
  the result is the least three-valued word that holds the results on words.

  A bit of a sum or difference depends on the bits below it through a carry or borrow only. If the
  bit is unknown in an operand, changing it there changes the result. Otherwise the carry takes two
  values at most, so extremes that differ have different parities, and both are attained.
-/

import RefineCheck.Proofs.Domain.Best
import RefineCheck.Proofs.Ternary.Monotone

namespace RefineCheck

/-! ## Words -/

namespace Word

variable {w : Nat} {x y : BitVec w}

theorem ult_eq_false (h : y.ule x = true) : x.ult y = false := by
  rwa [BitVec.ule_eq_not_ult, Bool.not_eq_true'] at h

theorem ule_eq_false (h : y.ult x = true) : x.ule y = false := by
  rw [BitVec.ule_eq_not_ult, h, Bool.not_true]

theorem slt_eq_false (h : y.sle x = true) : x.slt y = false := by
  rwa [BitVec.sle_eq_not_slt, Bool.not_eq_true'] at h

theorem sle_eq_false (h : y.slt x = true) : x.sle y = false := by
  rw [BitVec.sle_eq_not_slt, h, Bool.not_true]

end Word

namespace Ternary

variable {w v : Nat} {a b r : Ternary w} {words words' : Set (BitVec w)}

/-! ## Possible bits -/

/-- The bits that may have a value. -/
def flag (a : Ternary w) : Bool → BitVec w
  | false => a.zeros
  | true => a.ones

/-- A three-valued word that shows, for each bit, which values it has among the words of a set. -/
def Bitwise (a : Ternary w) (words : Set (BitVec w)) : Prop :=
  ∀ k < w, ∀ c, (a.flag c).getLsbD k = true ↔ ∃ x ∈ words, x.getLsbD k = c

/-- Every possible bit of a three-valued word is a bit of a word of the set. -/
def Attained (a : Ternary w) (words : Set (BitVec w)) : Prop :=
  ∀ k < w, ∀ c, (a.flag c).getLsbD k = true → ∃ x ∈ words, x.getLsbD k = c

theorem flag_of_mem {x : BitVec w} (h : x ∈ a) {k : Nat} (hk : k < w) :
    (a.flag (x.getLsbD k)).getLsbD k = true := by
  cases hx : x.getLsbD k
  · exact zeros_of_mem h hk hx
  · exact ones_of_mem h hk hx

/-- The bounds attain every possible bit. -/
theorem exists_mem_of_flag {k : Nat} {c : Bool} (h : (a.flag c).getLsbD k = true) :
    ∃ x ∈ a, x.getLsbD k = c := by
  cases c with
  | false =>
    refine ⟨a.umin, a.umin_mem, ?_⟩
    have hzero : a.zeros.getLsbD k = true := h
    simp [umin, hzero]
  | true => exact ⟨a.umax, a.umax_mem, h⟩

theorem Attained.bitwise (h : a.Attained words) (hholds : ∀ x ∈ words, x ∈ a) :
    a.Bitwise words := by
  intro k hk c
  refine ⟨h k hk c, ?_⟩
  rintro ⟨x, hx, rfl⟩
  exact flag_of_mem (hholds x hx) hk

theorem Bitwise.best (h : a.Bitwise words) : Domain.Best a words where
  holds x hx := mem_of_getLsbD (fun k hk h1 => (h k hk true).2 ⟨x, hx, h1⟩)
    fun k hk h0 => (h k hk false).2 ⟨x, hx, h0⟩
  least b hb := by
    have inside {k : Nat} (hk : k < w) (c : Bool) (hc : (a.flag c).getLsbD k = true) :
        (b.flag c).getLsbD k = true := by
      obtain ⟨x, hx, rfl⟩ := (h k hk c).1 hc
      exact flag_of_mem (hb x hx) hk
    exact contains_iff_bits.2 fun k hk => ⟨inside hk false, inside hk true⟩

theorem Attained.mono (h : a.Attained words) (hsub : words ⊆ words') : a.Attained words' := by
  intro k hk c hc
  obtain ⟨x, hx, hxc⟩ := h k hk c hc
  exact ⟨x, hsub hx, hxc⟩

theorem Attained.join (ha : a.Attained words) (hb : b.Attained words) :
    (a.join b).Attained words := by
  intro k hk c hc
  cases c <;> rw [flag, Ternary.join, BitVec.getLsbD_or, Bool.or_eq_true] at hc
  · exact hc.elim (ha k hk false) (hb k hk false)
  · exact hc.elim (ha k hk true) (hb k hk true)

theorem attained_foldl_join {rest : List (Ternary w)} (ha : a.Attained words)
    (h : ∀ b ∈ rest, b.Attained words) : (rest.foldl join a).Attained words := by
  induction rest generalizing a with
  | nil => exact ha
  | cons b rest ih =>
    exact ih (ha.join (h b List.mem_cons_self)) fun c hc => h c (List.mem_cons_of_mem b hc)

/-- A join has no possible bits but those of its parts. -/
theorem attained_joinAll {l : List (Ternary w)} (hl : l ≠ []) (h : ∀ a ∈ l, a.Attained words) :
    (joinAll l hl).Attained words := by
  cases l with
  | nil => exact absurd rfl hl
  | cons a rest =>
    exact attained_foldl_join (h a List.mem_cons_self) fun b hb => h b (List.mem_cons_of_mem a hb)

/-! ## Arithmetic -/

/-- Two words that differ in a bit show both of its values. -/
theorem exists_of_ne {x y : BitVec w} (hx : x ∈ words) (hy : y ∈ words) {k : Nat}
    (hne : x.getLsbD k ≠ y.getLsbD k) (c : Bool) : ∃ z ∈ words, z.getLsbD k = c := by
  by_cases hxc : x.getLsbD k = c
  · exact ⟨x, hx, hxc⟩
  · refine ⟨y, hy, ?_⟩
    revert hne hxc
    cases x.getLsbD k <;> cases y.getLsbD k <;> cases c <;> simp

/-- Members agree on the known bits. -/
theorem getLsbD_eq_of_known {x y : BitVec w} (hx : x ∈ a) (hy : y ∈ a) {k : Nat} (hk : k < w)
    (h : a.known.getLsbD k = true) : x.getLsbD k = y.getLsbD k :=
  (mem_iff_known.1 hx k hk h).trans (mem_iff_known.1 hy k hk h).symm

/-- Where a bit is unknown, some member may be raised by the power of two of the bit. -/
theorem exists_add_twoPow_mem {k : Nat} (hk : k < w) (h : ¬ a.known.getLsbD k = true) :
    ∃ x ∈ a, x + BitVec.twoPow w k ∈ a := by
  rw [a.getLsbD_known hk, Bool.not_eq_true', Bool.not_eq_false, Bool.and_eq_true] at h
  have hmin : a.umin.getLsbD k = false := by rw [a.getLsbD_umin hk, h.1, Bool.not_true]
  have hdisjoint : a.umin &&& BitVec.twoPow w k = 0#w := by
    apply BitVec.eq_of_getLsbD_eq
    intro j _
    rw [BitVec.getLsbD_and, BitVec.getLsbD_twoPow, BitVec.getLsbD_zero]
    by_cases hkj : k = j
    · rw [← hkj, hmin, Bool.false_and]
    · simp [hkj]
  refine ⟨a.umin, a.umin_mem, ?_⟩
  rw [BitVec.add_eq_or_of_and_eq_zero _ _ hdisjoint]
  refine mem_of_either a.umin_mem a.umax_mem fun j hj => ?_
  rw [BitVec.getLsbD_or, BitVec.getLsbD_twoPow]
  by_cases hkj : k = j
  · right
    rw [← hkj, umax, h.2]
    simp [hk]
  · left
    simp [hkj]

/-- The possible bits of an operation that is decided from the extremes of its parts, of which part
    `k` has the parity of bit `k`. The operation passes a change of a bit in an operand on to the
    result, and parts for operands that agree on the bit are at most one apart. -/
theorem attained_ofExtremes {f : BitVec w → BitVec w → BitVec w}
    (part : BitVec w → BitVec w → Nat → Int)
    (hbit : ∀ x y, ∀ k < w, (f x y).getLsbD k = decide (part x y k % 2 = 1))
    (hleft : ∀ x y, ∀ k < w, (f (x + BitVec.twoPow w k) y).getLsbD k = !(f x y).getLsbD k)
    (hright : ∀ x y, ∀ k < w, (f x (y + BitVec.twoPow w k)).getLsbD k = !(f x y).getLsbD k)
    (hclose : ∀ x y x' y' k, x.getLsbD k = x'.getLsbD k → y.getLsbD k = y'.getLsbD k →
      part x y k ≤ part x' y' k + 1)
    {x y x' y' : BitVec w} (hx : x ∈ a) (hy : y ∈ b) (hx' : x' ∈ a) (hy' : y' ∈ b) :
    (ofExtremes (part x y) (part x' y')).Attained (Set.image2 f {x | x ∈ a} {y | y ∈ b}) := by
  have result {x y : BitVec w} (hx : x ∈ a) (hy : y ∈ b) :
      f x y ∈ Set.image2 f {x | x ∈ a} {y | y ∈ b} := ⟨x, hx, y, hy, rfl⟩
  intro k hk c hc
  by_cases he : part x y k = part x' y' k
  · refine ⟨f x y, result hx hy, ?_⟩
    rw [hbit x y k hk]
    cases c <;>
    · simp only [flag, ofExtremes, ofKnown, BitVec.getLsbD_or, BitVec.getLsbD_not,
        Word.getLsbD_ofBits, hk, he, decide_true, Bool.true_and, beq_self_eq_true, Bool.not_true,
        Bool.or_false] at hc
      simpa [he] using hc
  · by_cases ha : a.known.getLsbD k = true
    · by_cases hb : b.known.getLsbD k = true
      · -- the extremes agree on the bit in both operands, so they are one apart
        refine exists_of_ne (result hx hy) (result hx' hy') ?_ c
        have hxk := getLsbD_eq_of_known hx hx' hk ha
        have hyk := getLsbD_eq_of_known hy hy' hk hb
        have h := hclose x y x' y' k hxk hyk
        have h' := hclose x' y' x y k hxk.symm hyk.symm
        rw [hbit x y k hk, hbit x' y' k hk, Ne, decide_eq_decide]
        omega
      · obtain ⟨z, hz, hz'⟩ := exists_add_twoPow_mem hk hb
        exact exists_of_ne (result hx hz) (result hx hz') (by simp [hright x z k hk]) c
    · obtain ⟨z, hz, hz'⟩ := exists_add_twoPow_mem hk ha
      exact exists_of_ne (result hz hy) (result hz' hy) (by simp [hleft z y k hk]) c

/-- The lowest `k + 1` bits are bit `k` and the bits below it. -/
theorem mod_card_succ (x : BitVec w) (k : Nat) :
    x.toNat % Word.card (k + 1) = x.toNat % Word.card k + Word.card k * (x.getLsbD k).toNat := by
  show x.toNat % 2 ^ (k + 1) = x.toNat % 2 ^ k + 2 ^ k * _
  rw [Nat.mod_pow_succ, BitVec.getLsbD, Nat.testBit_eq_decide_div_mod_eq]
  rcases Nat.mod_two_eq_zero_or_one (x.toNat / 2 ^ k) with h | h <;> simp [h]

/-- Adding a power of two changes its bit. -/
theorem getLsbD_add_twoPow (x : BitVec w) {k : Nat} (hk : k < w) :
    (x + BitVec.twoPow w k).getLsbD k = !x.getLsbD k := by
  rw [BitVec.getLsbD, BitVec.toNat_add, BitVec.toNat_twoPow_of_lt hk, Nat.testBit_mod_two_pow,
    Nat.add_comm, Nat.testBit_two_pow_add_eq, decide_eq_true hk, Bool.true_and]
  rfl

/-- The lowest `k + 1` bits of a sum, counted from bit `k` on, are the two bits and a carry. -/
theorem exists_carry (x y : BitVec w) (k : Nat) :
    ∃ carry ≤ 1, (x.toNat % Word.card (k + 1) + y.toNat % Word.card (k + 1)) / Word.card k =
      carry + ((x.getLsbD k).toNat + (y.getLsbD k).toNat) := by
  have hpos : 0 < Word.card k := Nat.two_pow_pos k
  have hx := Nat.mod_lt x.toNat hpos
  have hy := Nat.mod_lt y.toNat hpos
  refine ⟨(x.toNat % Word.card k + y.toNat % Word.card k) / Word.card k, ?_, ?_⟩
  · exact Nat.le_of_lt_succ (Nat.div_lt_of_lt_mul (by omega))
  · rw [mod_card_succ, mod_card_succ, Nat.add_add_add_comm, ← Nat.mul_add,
      Nat.add_mul_div_left _ _ hpos]

/-- Those of a difference are the difference of the two bits and a borrow. -/
theorem exists_borrow (x y : BitVec w) (k : Nat) :
    ∃ borrow : Int, -1 ≤ borrow ∧ borrow ≤ 0 ∧
      (((x.toNat % Word.card (k + 1) : Nat) : Int) - (y.toNat % Word.card (k + 1) : Nat)) /
        (Word.card k : Nat) = borrow + ((x.getLsbD k).toNat - (y.getLsbD k).toNat) := by
  have hpos : 0 < Word.card k := Nat.two_pow_pos k
  have hx := Nat.mod_lt x.toNat hpos
  have hy := Nat.mod_lt y.toNat hpos
  have hsplit : ((x.toNat % Word.card (k + 1) : Nat) : Int) - (y.toNat % Word.card (k + 1) : Nat) =
      ((x.toNat % Word.card k : Nat) : Int) - (y.toNat % Word.card k : Nat) +
        (Word.card k : Nat) * ((x.getLsbD k).toNat - (y.getLsbD k).toNat) := by
    rw [mod_card_succ, mod_card_succ]
    push_cast
    ring
  refine ⟨(((x.toNat % Word.card k : Nat) : Int) - (y.toNat % Word.card k : Nat)) /
    (Word.card k : Nat), ?_, ?_, ?_⟩
  · rw [Int.le_ediv_iff_mul_le (by omega)]
    omega
  · exact Int.le_of_lt_add_one (Int.ediv_lt_of_lt_mul (by omega) (by omega))
  · rw [hsplit, Int.add_mul_ediv_left _ _ (by omega)]

theorem add_attained (a b : Ternary w) :
    (a.add b).Attained (Set.image2 (· + ·) {x | x ∈ a} {y | y ∈ b}) := by
  refine attained_ofExtremes (fun x y k =>
    ((x.toNat % Word.card (k + 1) + y.toNat % Word.card (k + 1)) / Word.card k : Nat))
    (fun x y k => getLsbD_add_eq x y) (fun x y k hk => ?_) (fun x y k hk => ?_)
    (fun x y x' y' k hx hy => ?_) a.umin_mem b.umin_mem a.umax_mem b.umax_mem
  · rw [show x + BitVec.twoPow w k + y = x + y + BitVec.twoPow w k by grind]
    exact getLsbD_add_twoPow _ hk
  · rw [← BitVec.add_assoc]
    exact getLsbD_add_twoPow _ hk
  · obtain ⟨carry, hcarry, e⟩ := exists_carry x y k
    obtain ⟨carry', _, e'⟩ := exists_carry x' y' k
    rw [e, e', hx, hy]
    omega

theorem sub_attained (a b : Ternary w) :
    (a.sub b).Attained (Set.image2 (· - ·) {x | x ∈ a} {y | y ∈ b}) := by
  refine attained_ofExtremes (fun x y k =>
    (((x.toNat % Word.card (k + 1) : Nat) : Int) - (y.toNat % Word.card (k + 1) : Nat)) /
      (Word.card k : Nat))
    (fun x y k => getLsbD_sub_eq x y) (fun x y k hk => ?_) (fun x y k hk => ?_)
    (fun x y x' y' k hx hy => ?_) a.umin_mem b.umax_mem a.umax_mem b.umin_mem
  · rw [show x + BitVec.twoPow w k - y = x - y + BitVec.twoPow w k by grind]
    exact getLsbD_add_twoPow _ hk
  · have h := getLsbD_add_twoPow (x - (y + BitVec.twoPow w k)) hk
    rw [show x - (y + BitVec.twoPow w k) + BitVec.twoPow w k = x - y by grind] at h
    rw [h, Bool.not_not]
  · obtain ⟨borrow, _, hborrow, e⟩ := exists_borrow x y k
    obtain ⟨borrow', hborrow', _, e'⟩ := exists_borrow x' y' k
    rw [e, e', hx, hy]
    omega

theorem neg_attained (a : Ternary w) : a.neg.Attained ((- ·) '' {x | x ∈ a}) := by
  refine (sub_attained (ofWord 0) a).mono ?_
  rintro z ⟨x, hx, y, hy, rfl⟩
  refine ⟨y, hy, ?_⟩
  rw [mem_ofWord.1 hx]
  exact (BitVec.zero_sub y).symm

/-! ## Bitwise operators -/

theorem Attained.not (h : a.Attained words) : a.not.Attained ((~~~ ·) '' words) := by
  intro k hk c hc
  have hc' : (a.flag !c).getLsbD k = true := by cases c <;> exact hc
  obtain ⟨x, hx, hxc⟩ := h k hk (!c) hc'
  exact ⟨_, ⟨x, hx, rfl⟩, by rw [BitVec.getLsbD_not, hxc, decide_eq_true hk]; simp⟩

theorem not_attained (a : Ternary w) : a.not.Attained ((~~~ ·) '' {x | x ∈ a}) :=
  Attained.not fun _ _ _ => exists_mem_of_flag

/-- The possible bits of an operation that acts on each bit alone. -/
theorem attained_bitwise {f : BitVec w → BitVec w → BitVec w} {g : Bool → Bool → Bool}
    (hf : ∀ x y, ∀ k < w, (f x y).getLsbD k = g (x.getLsbD k) (y.getLsbD k))
    (h : ∀ k < w, ∀ c, (r.flag c).getLsbD k = true → ∃ c₁ c₂, g c₁ c₂ = c ∧
      (a.flag c₁).getLsbD k = true ∧ (b.flag c₂).getLsbD k = true) :
    r.Attained (Set.image2 f {x | x ∈ a} {y | y ∈ b}) := by
  intro k hk c hc
  obtain ⟨c₁, c₂, rfl, h₁, h₂⟩ := h k hk c hc
  obtain ⟨x, hx, rfl⟩ := exists_mem_of_flag h₁
  obtain ⟨y, hy, rfl⟩ := exists_mem_of_flag h₂
  exact ⟨_, ⟨x, hx, y, hy, rfl⟩, hf x y k hk⟩

/-- A bit that may be zero in one operand may be zero in the conjunction, whatever it is in the
    other one. -/
theorem and_attained (a b : Ternary w) :
    (a.and b).Attained (Set.image2 (· &&& ·) {x | x ∈ a} {y | y ∈ b}) := by
  refine attained_bitwise (g := (· && ·)) (fun x y k _ => BitVec.getLsbD_and) fun k hk c hc => ?_
  cases c with
  | false =>
    rw [flag, and, BitVec.getLsbD_or, Bool.or_eq_true] at hc
    rcases hc with ha | hb
    · exact ⟨false, _, rfl, ha, flag_of_mem b.umin_mem hk⟩
    · exact ⟨_, false, Bool.and_false _, flag_of_mem a.umin_mem hk, hb⟩
  | true =>
    rw [flag, and, BitVec.getLsbD_and, Bool.and_eq_true] at hc
    exact ⟨true, true, rfl, hc⟩

theorem or_attained (a b : Ternary w) :
    (a.or b).Attained (Set.image2 (· ||| ·) {x | x ∈ a} {y | y ∈ b}) := by
  refine (and_attained a.not b.not).not.mono ?_
  rintro _ ⟨_, ⟨x, hx, y, hy, rfl⟩, rfl⟩
  exact ⟨~~~x, not_mem hx, ~~~y, not_mem hy, BitVec.not_and.symm⟩

theorem xor_attained (a b : Ternary w) :
    (a.xor b).Attained (Set.image2 (· ^^^ ·) {x | x ∈ a} {y | y ∈ b}) := by
  refine attained_bitwise (g := Bool.xor) (fun x y k _ => BitVec.getLsbD_xor) fun k hk c hc => ?_
  cases c <;>
    rw [flag, xor, BitVec.getLsbD_or, BitVec.getLsbD_and, BitVec.getLsbD_and, Bool.or_eq_true,
      Bool.and_eq_true, Bool.and_eq_true] at hc
  · rcases hc with h | h
    · exact ⟨false, false, rfl, h⟩
    · exact ⟨true, true, rfl, h⟩
  · rcases hc with h | h
    · exact ⟨false, true, rfl, h⟩
    · exact ⟨true, false, rfl, h⟩

/-! ## Shifts and changes of width

Each bit of the result is a bit of the operand, or has the same value for all of them. -/

theorem attained_of_source {f : BitVec w → BitVec v} {r : Ternary v}
    (h : ∀ k < v, ∀ c, (r.flag c).getLsbD k = true →
      (∃ j, (a.flag c).getLsbD j = true ∧ ∀ x, (f x).getLsbD k = x.getLsbD j) ∨
        ∀ x, (f x).getLsbD k = c) :
    r.Attained (f '' {x | x ∈ a}) := by
  intro k hk c hc
  rcases h k hk c hc with ⟨j, hj, hbit⟩ | hbit
  · obtain ⟨x, hx, rfl⟩ := exists_mem_of_flag hj
    exact ⟨_, ⟨x, hx, rfl⟩, hbit x⟩
  · exact ⟨_, ⟨_, a.umin_mem, rfl⟩, hbit _⟩

theorem shlBy_attained (a : Ternary w) (n : Nat) :
    (a.shlBy n).Attained ((fun x : BitVec w => x <<< n) '' {x | x ∈ a}) := by
  refine attained_of_source fun k hk c hc => ?_
  by_cases hkn : k < n
  · right
    cases c <;> simp [flag, shlBy, hkn] at hc ⊢
  · refine .inl ⟨k - n, ?_, fun x => by rw [BitVec.getLsbD_shiftLeft]; simp [hk, hkn]⟩
    have hkw : k - n < w := by omega
    cases c <;> simpa [flag, shlBy, hk, hkn, hkw] using hc

theorem lshrBy_attained (a : Ternary w) (n : Nat) :
    (a.lshrBy n).Attained ((fun x : BitVec w => x >>> n) '' {x | x ∈ a}) := by
  refine attained_of_source fun k hk c hc => ?_
  by_cases hnk : n + k < w
  · refine .inl ⟨n + k, ?_, fun x => BitVec.getLsbD_ushiftRight x n k⟩
    cases c <;> simpa [flag, lshrBy, hk, hnk] using hc
  · right
    have hzero (x : BitVec w) : x.getLsbD (n + k) = false := BitVec.getLsbD_of_ge _ _ (by omega)
    cases c <;> simp [flag, lshrBy, hzero] at hc ⊢

theorem ashrBy_attained (a : Ternary w) (n : Nat) :
    (a.ashrBy n).Attained ((fun x : BitVec w => x.sshiftRight n) '' {x | x ∈ a}) := by
  refine attained_of_source fun k hk c hc => .inl ⟨_, ?_, fun x => Word.getLsbD_sshiftRight x n hk⟩
  cases c <;>
  · rw [flag, ashrBy, Word.getLsbD_sshiftRight _ n hk] at hc
    exact hc

/-- Every amount that a shift joins over is that of some member. -/
theorem exists_mem_of_amount {n : Nat} (h : n ∈ b.amounts) : ∃ y ∈ b, min y.toNat w = n := by
  rw [amounts, List.mem_append, List.mem_filter, List.mem_range, decide_eq_true_eq] at h
  rcases h with ⟨hlt, hmem⟩ | h
  · refine ⟨BitVec.ofNat w n, hmem, ?_⟩
    rw [BitVec.toNat_ofNat, Nat.mod_eq_of_lt (hlt.trans Nat.lt_two_pow_self)]
    exact Nat.min_eq_left hlt.le
  · split at h
    · obtain rfl := List.mem_singleton.1 h
      exact ⟨b.umax, b.umax_mem, Nat.min_eq_right ‹_›⟩
    · cases h

/-- A shift depends on its amount up to the width only. -/
theorem shift_attained {op : BitVec w → BitVec w → BitVec w} {f : Nat → BitVec w → BitVec w}
    {by_ : Nat → Ternary w} (hop : ∀ x y, op x y = f (min y.toNat w) x)
    (h : ∀ n, (by_ n).Attained (f n '' {x | x ∈ a})) :
    (b.shift by_).Attained (Set.image2 op {x | x ∈ a} {y | y ∈ b}) := by
  refine attained_joinAll _ fun r hr => ?_
  obtain ⟨n, hn, rfl⟩ := List.mem_map.1 hr
  obtain ⟨y, hy, rfl⟩ := exists_mem_of_amount hn
  refine (h _).mono ?_
  rintro _ ⟨x, hx, rfl⟩
  exact ⟨x, hx, y, hy, hop x y⟩

theorem shl_attained (a b : Ternary w) :
    (a.shl b).Attained (Set.image2 Word.shl {x | x ∈ a} {y | y ∈ b}) :=
  shift_attained Word.shl_eq a.shlBy_attained

theorem lshr_attained (a b : Ternary w) :
    (a.lshr b).Attained (Set.image2 Word.lshr {x | x ∈ a} {y | y ∈ b}) :=
  shift_attained Word.lshr_eq a.lshrBy_attained

theorem ashr_attained (a b : Ternary w) :
    (a.ashr b).Attained (Set.image2 Word.ashr {x | x ∈ a} {y | y ∈ b}) :=
  shift_attained (fun _ _ => rfl) a.ashrBy_attained

theorem uext_attained (a : Ternary w) (v : Nat) :
    (a.uext v).Attained ((BitVec.setWidth v) '' {x | x ∈ a}) := by
  refine attained_of_source fun k hk c hc => ?_
  by_cases hkw : k < w
  · refine .inl ⟨k, ?_, fun x => by rw [BitVec.getLsbD_setWidth, decide_eq_true hk, Bool.true_and]⟩
    cases c <;> simpa [flag, uext, hk, hkw] using hc
  · right
    have hzero (x : BitVec w) : x.getLsbD k = false := BitVec.getLsbD_of_ge _ _ (by omega)
    cases c <;> simp [flag, uext, hzero] at hc ⊢

/-- Above the width the bits are the sign bit, if there is one. -/
theorem sext_attained (a : Ternary w) (v : Nat) :
    (a.sext v).Attained ((BitVec.signExtend v) '' {x | x ∈ a}) := by
  refine attained_of_source fun k hk c hc => ?_
  by_cases hkw : k < w
  · refine .inl ⟨k, ?_, fun x => by
      rw [BitVec.getLsbD_signExtend, decide_eq_true hk, Bool.true_and, if_pos hkw]⟩
    cases c <;>
    · simp only [flag, sext, BitVec.getLsbD_not, BitVec.getLsbD_signExtend, hk, hkw, decide_true,
        Bool.true_and, if_true, Bool.not_not] at hc ⊢
      exact hc
  · rcases Nat.eq_zero_or_pos w with rfl | hw
    · right
      cases c <;> simp [flag, sext, BitVec.getLsbD_signExtend, BitVec.msb] at hc ⊢
    · refine .inl ⟨w - 1, ?_, fun x => by
        rw [BitVec.getLsbD_signExtend, decide_eq_true hk, Bool.true_and, if_neg hkw,
          BitVec.msb_eq_getLsbD_last]⟩
      have hlast : w - 1 < w := by omega
      cases c <;>
      · simp only [flag, sext, BitVec.getLsbD_not, BitVec.getLsbD_signExtend,
          BitVec.msb_eq_getLsbD_last, hk, hkw, hlast, decide_true, Bool.true_and, if_false,
          Bool.not_not] at hc ⊢
        exact hc

/-! ## Comparisons -/

theorem truth_attained {canBeFalse canBeTrue : Bool} {h : (canBeFalse || canBeTrue) = true}
    {test : BitVec w → BitVec w → Bool}
    (hfalse : canBeFalse = true → ∃ x ∈ a, ∃ y ∈ b, test x y = false)
    (htrue : canBeTrue = true → ∃ x ∈ a, ∃ y ∈ b, test x y = true) :
    (truth canBeFalse canBeTrue h).Attained
      (Set.image2 (fun x y => BitVec.ofBool (test x y)) {x | x ∈ a} {y | y ∈ b}) := by
  intro k hk c hc
  obtain rfl : k = 0 := by omega
  have hadmitted : ∃ x ∈ a, ∃ y ∈ b, test x y = c := by
    cases c with
    | false => exact hfalse (by simpa [flag, truth] using hc)
    | true => exact htrue (by simpa [flag, truth] using hc)
  obtain ⟨x, hx, y, hy, rfl⟩ := hadmitted
  exact ⟨_, ⟨x, hx, y, hy, rfl⟩, by simp⟩

theorem exists_ne_of_canDiffer (h : a.canDiffer b = true) : ∃ x ∈ a, ∃ y ∈ b, x ≠ y := by
  have differ {k : Nat} (c : Bool) (ha : (a.flag c).getLsbD k = true)
      (hb : (b.flag !c).getLsbD k = true) : ∃ x ∈ a, ∃ y ∈ b, x ≠ y := by
    obtain ⟨x, hx, hxc⟩ := exists_mem_of_flag ha
    obtain ⟨y, hy, hyc⟩ := exists_mem_of_flag hb
    refine ⟨x, hx, y, hy, ?_⟩
    rintro rfl
    cases c <;> simp [hxc] at hyc
  rw [canDiffer, bne_iff_ne] at h
  have hbit := Word.getLsbD_highestBit h
  rw [BitVec.getLsbD_or, BitVec.getLsbD_and, BitVec.getLsbD_and, Bool.or_eq_true,
    Bool.and_eq_true, Bool.and_eq_true] at hbit
  rcases hbit with ⟨ha, hb⟩ | ⟨ha, hb⟩
  · exact differ false ha hb
  · exact differ true ha hb

theorem exists_eq_of_canAgree (h : a.canAgree b = true) : ∃ x ∈ a, x ∈ b := by
  rw [canAgree, beq_iff_eq] at h
  have htotal : (a.zeros &&& b.zeros) ||| (a.ones &&& b.ones) = BitVec.allOnes w := h
  have hmeet : a.meet? b = some ⟨_, _, htotal⟩ := dif_pos htotal
  exact ⟨_, (meet?_eq_some hmeet _).1 (umin_mem _)⟩

/-- The bounds that a comparison is decided by are members. -/
theorem compare_attained (op : CompareOp) (a b : Ternary w) :
    (compare op a b).Attained
      (Set.image2 (fun x y => BitVec.ofBool (op.onWords x y)) {x | x ∈ a} {y | y ∈ b}) := by
  have heq : (a.eq b).Attained
      (Set.image2 (fun x y => BitVec.ofBool (x == y)) {x | x ∈ a} {y | y ∈ b}) := by
    refine truth_attained (fun h => ?_) fun h => ?_
    · obtain ⟨x, hx, y, hy, hne⟩ := exists_ne_of_canDiffer h
      exact ⟨x, hx, y, hy, beq_false_of_ne hne⟩
    · obtain ⟨x, hx, hy⟩ := exists_eq_of_canAgree h
      exact ⟨x, hx, x, hy, beq_self_eq_true x⟩
  -- an order is decided by the bounds, which are members
  cases op with
  | eq => exact heq
  | ne =>
    refine heq.not.mono ?_
    rintro _ ⟨_, ⟨x, hx, y, hy, rfl⟩, rfl⟩
    refine ⟨x, hx, y, hy, ?_⟩
    show BitVec.ofBool (!(x == y)) = ~~~BitVec.ofBool (x == y)
    cases x == y <;> rfl
  | ult =>
    show (a.ult b).Attained _
    refine truth_attained (fun h => ?_) fun h => ?_
    · exact ⟨_, a.umax_mem, _, b.umin_mem, Word.ult_eq_false h⟩
    · exact ⟨_, a.umin_mem, _, b.umax_mem, h⟩
  | ule =>
    show (a.ule b).Attained _
    refine truth_attained (fun h => ?_) fun h => ?_
    · exact ⟨_, a.umax_mem, _, b.umin_mem, Word.ule_eq_false h⟩
    · exact ⟨_, a.umin_mem, _, b.umax_mem, h⟩
  | slt =>
    show (a.slt b).Attained _
    refine truth_attained (fun h => ?_) fun h => ?_
    · exact ⟨_, a.smax_mem, _, b.smin_mem, Word.slt_eq_false h⟩
    · exact ⟨_, a.smin_mem, _, b.smax_mem, h⟩
  | sle =>
    show (a.sle b).Attained _
    refine truth_attained (fun h => ?_) fun h => ?_
    · exact ⟨_, a.smax_mem, _, b.smin_mem, Word.sle_eq_false h⟩
    · exact ⟨_, a.smin_mem, _, b.smax_mem, h⟩

/-! ## The operators -/

theorem unary_attained (op : UnaryOp) (a : Ternary w) :
    (a.unary op).Attained (op.onWords '' {x | x ∈ a}) := by
  cases op with
  | neg => exact neg_attained a
  | not => exact not_attained a

theorem binary_attained {op : BinaryOp} (h : op ≠ .mul) (a b : Ternary w) :
    (binary op a b).Attained (Set.image2 op.onWords {x | x ∈ a} {y | y ∈ b}) := by
  cases op with
  | add => exact add_attained a b
  | sub => exact sub_attained a b
  | mul => exact absurd rfl h
  | and => exact and_attained a b
  | or => exact or_attained a b
  | xor => exact xor_attained a b
  | shl => exact shl_attained a b
  | lshr => exact lshr_attained a b
  | ashr => exact ashr_attained a b

theorem extend_attained (op : ExtendOp) (a : Ternary w) (v : Nat) :
    (extend op a v).Attained ((op.onWords · v) '' {x | x ∈ a}) := by
  cases op with
  | uext => exact uext_attained a v
  | sext => exact sext_attained a v

/-- What a value of this domain that fits a set of words is: the least one, each bit of which may
    have exactly the values that it has in the set. -/
def Fits (a : Ternary w) (words : Set (BitVec w)) : Prop :=
  Domain.Best a words ∧ a.Bitwise words

theorem Attained.fits (h : a.Attained words) (hholds : ∀ x ∈ words, x ∈ a) : a.Fits words :=
  have hbits := h.bitwise hholds
  ⟨hbits.best, hbits⟩

/-- All operators but the product return, for any operands, the least three-valued word that holds
    the results on words. A bit of it may be zero, or one, just if it is in the result for some
    members of the operands. -/
theorem operators_exact : Domain.Exact Ternary Fits (· ≠ .mul) where
  unary op a := ⟨_, Sized.unary_ok rfl, (unary_attained op a).fits <|
    Set.forall_mem_image.2 fun _ hx => unary_mem op hx⟩
  binary op a b h := ⟨_, Sized.binary_ok rfl, (binary_attained h a b).fits <|
    Set.forall_mem_image2.2 fun _ hx _ hy => binary_mem op hx hy⟩
  compare op a b := ⟨_, Sized.compare_ok rfl, (compare_attained op a b).fits <|
    Set.forall_mem_image2.2 fun _ hx _ hy => compare_mem op hx hy⟩
  extend op a v hv := ⟨_, Sized.extend_ok hv rfl, (extend_attained op a v).fits <|
    Set.forall_mem_image.2 fun _ hx => extend_mem op hx v⟩

/-- The sums of one with four and with five differ in their two lowest bits. -/
example : (ofKnown 4 14 : Ternary 4).add (ofWord 1) = ofKnown 4 12 := by decide

end Ternary

end RefineCheck
