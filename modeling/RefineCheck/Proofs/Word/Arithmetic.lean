/-
  RefineCheck.Proofs.Word.Arithmetic

  Two's complement. The operators on words are the operations of the integers modulo the number of
  words, with floors where bits are shifted out and quotients that are truncated towards zero where
  signed words are divided. Stored words compute the same, at every width a word may have.
-/

import RefineCheck.Proofs.Word.Stored

namespace RefineCheck.Word

variable {w : Nat}

/-! ## Signed numbers -/

theorem toInt_modEq (x : BitVec w) : x.toInt ≡ x.toNat [ZMOD 2 ^ w] := by
  have h := Int.bmod_emod (x := x.toNat) (m := 2 ^ w)
  rw [← BitVec.toInt_eq_toNat_bmod] at h
  exact_mod_cast h

/-- A word is the residue of every number that is congruent to it. -/
theorem toNat_of_toInt {x : BitVec w} {n n' : Int} (h : x.toInt = n.bmod (2 ^ w))
    (hn : n ≡ n' [ZMOD 2 ^ w]) : (x.toNat : Int) = n' % 2 ^ w := by
  have hmod : n.bmod (2 ^ w) ≡ n [ZMOD 2 ^ w] := by
    have h := Int.bmod_emod (x := n) (m := 2 ^ w)
    exact_mod_cast h
  have hlt : (x.toNat : Int) < 2 ^ w := by exact_mod_cast x.isLt
  calc (x.toNat : Int) = x.toNat % 2 ^ w := (Int.emod_eq_of_lt (Int.natCast_nonneg _) hlt).symm
    _ = x.toInt % 2 ^ w := (toInt_modEq x).symm
    _ = n % 2 ^ w := h ▸ hmod
    _ = n' % 2 ^ w := hn

/-- The signed number is the one number in the signed range that is congruent to the word. -/
theorem eq_toInt_iff (hw : 0 < w) (x : BitVec w) (n : Int) :
    n = x.toInt ↔ -2 ^ (w - 1) ≤ n ∧ n < 2 ^ (w - 1) ∧ n ≡ x.toNat [ZMOD 2 ^ w] := by
  constructor
  · rintro rfl
    exact ⟨BitVec.le_toInt x, BitVec.toInt_lt, toInt_modEq x⟩
  · rintro ⟨hlo, hhi, hn⟩
    -- a number in the range is its own balanced residue
    have hhalf : ((2 ^ w : Nat) : Int) = 2 * 2 ^ (w - 1) := by
      obtain ⟨m, rfl⟩ := Nat.exists_eq_succ_of_ne_zero hw.ne'
      push_cast
      exact pow_succ' 2 m
    have hself : n.bmod (2 ^ w) = n := Int.bmod_eq_of_le (by omega) (by omega)
    have hmod : n % (2 ^ w : Nat) = (x.toNat : Int) % (2 ^ w : Nat) := by exact_mod_cast hn
    calc n = (n % (2 ^ w : Nat)).bmod (2 ^ w) := by rw [Int.emod_bmod, hself]
      _ = (x.toNat : Int).bmod (2 ^ w) := by rw [hmod, Int.emod_bmod]
      _ = x.toInt := (BitVec.toInt_eq_toNat_bmod x).symm

/-! ## Shifts -/

/-- Shifting all bits out and shifting further fill with the sign alike. -/
theorem ashr_eq (x y : BitVec w) : ashr x y = x.sshiftRight y.toNat := by
  apply BitVec.eq_of_getLsbD_eq
  intro k hk
  rw [ashr, BitVec.getLsbD_sshiftRight, BitVec.getLsbD_sshiftRight]
  by_cases hy : y.toNat ≤ w
  · rw [Nat.min_eq_left hy]
  · rw [Nat.min_eq_right (Nat.le_of_not_le hy), if_neg (by omega), if_neg (by omega)]

theorem toNat_shl (x y : BitVec w) : (shl x y).toNat = x.toNat * 2 ^ y.toNat % 2 ^ w := by
  rw [shl]
  split
  · rw [BitVec.toNat_shiftLeft, Nat.shiftLeft_eq]
  · rename_i hy
    have hdvd : 2 ^ w ∣ x.toNat * 2 ^ y.toNat :=
      Dvd.dvd.mul_left (pow_dvd_pow 2 (Nat.le_of_not_lt hy)) _
    exact (Nat.mod_eq_zero_of_dvd hdvd).symm

theorem toNat_lshr (x y : BitVec w) : (lshr x y).toNat = x.toNat / 2 ^ y.toNat := by
  rw [lshr]
  split
  · rw [BitVec.toNat_ushiftRight, Nat.shiftRight_eq_div_pow]
  · rename_i hy
    have hlt : x.toNat < 2 ^ y.toNat :=
      lt_of_lt_of_le x.isLt (Nat.pow_le_pow_right (by decide) (Nat.le_of_not_lt hy))
    exact (Nat.div_eq_of_lt hlt).symm

/-! ## Operators -/

/-- What the operators compute, in terms of integers. -/
structure Arithmetic (x y : BitVec w) : Prop where
  signed : 0 < w → ∀ n : Int,
    n = x.toInt ↔ -2 ^ (w - 1) ≤ n ∧ n < 2 ^ (w - 1) ∧ n ≡ x.toNat [ZMOD 2 ^ w]
  signed_empty : w = 0 → x.toInt = 0
  neg : ((UnaryOp.neg.onWords x).toNat : Int) = -x.toNat % 2 ^ w
  add : ((BinaryOp.add.onWords x y).toNat : Int) = (x.toNat + y.toNat) % 2 ^ w
  sub : ((BinaryOp.sub.onWords x y).toNat : Int) = (x.toNat - y.toNat) % 2 ^ w
  mul : ((BinaryOp.mul.onWords x y).toNat : Int) = x.toNat * y.toNat % 2 ^ w
  shl : (BinaryOp.shl.onWords x y).toNat = x.toNat * 2 ^ y.toNat % 2 ^ w
  lshr : (BinaryOp.lshr.onWords x y).toNat = x.toNat / 2 ^ y.toNat
  ashr : (BinaryOp.ashr.onWords x y).toInt = x.toInt.fdiv (2 ^ y.toNat)
  uext (n : Nat) : (ExtendOp.uext.onWords x n).toNat = x.toNat % 2 ^ n
  sext (n : Nat) : ((ExtendOp.sext.onWords x n).toNat : Int) = x.toInt % 2 ^ n
  eq : CompareOp.eq.onWords x y = true ↔ x.toNat = y.toNat
  ne : CompareOp.ne.onWords x y = true ↔ x.toNat ≠ y.toNat
  ult : CompareOp.ult.onWords x y = true ↔ x.toNat < y.toNat
  ule : CompareOp.ule.onWords x y = true ↔ x.toNat ≤ y.toNat
  slt : CompareOp.slt.onWords x y = true ↔ x.toInt < y.toInt
  sle : CompareOp.sle.onWords x y = true ↔ x.toInt ≤ y.toInt
  udiv : y ≠ 0 → (DivideOp.udiv.onWords x y).toNat = x.toNat / y.toNat
  urem : y ≠ 0 → (DivideOp.urem.onWords x y).toNat = x.toNat % y.toNat
  sdiv : y ≠ 0 → ((DivideOp.sdiv.onWords x y).toNat : Int) = x.toInt.tdiv y.toInt % 2 ^ w
  srem : y ≠ 0 → ((DivideOp.srem.onWords x y).toNat : Int) = x.toInt.tmod y.toInt % 2 ^ w

theorem arithmetic (x y : BitVec w) : Arithmetic x y where
  signed hw n := eq_toInt_iff hw x n
  signed_empty hw := by
    subst hw
    exact BitVec.toInt_zero_length x
  neg := toNat_of_toInt BitVec.toInt_neg (toInt_modEq x).neg
  add := toNat_of_toInt (BitVec.toInt_add x y) ((toInt_modEq x).add (toInt_modEq y))
  sub := toNat_of_toInt BitVec.toInt_sub ((toInt_modEq x).sub (toInt_modEq y))
  mul := toNat_of_toInt (BitVec.toInt_mul x y) ((toInt_modEq x).mul (toInt_modEq y))
  shl := toNat_shl x y
  lshr := toNat_lshr x y
  -- the shift rounds down, as a division by a positive number does in either convention
  ashr := by
    rw [BinaryOp.onWords, ashr_eq, BitVec.toInt_sshiftRight, Int.shiftRight_eq_div_pow,
      Int.fdiv_eq_ediv_of_nonneg _ (by positivity)]
    push_cast
    rfl
  uext n := BitVec.toNat_setWidth n x
  sext n := toNat_of_toInt (BitVec.toInt_ofInt x.toInt) rfl
  eq := by rw [CompareOp.onWords, beq_iff_eq, BitVec.toNat_eq]
  ne := by rw [CompareOp.onWords, bne_iff_ne, Ne, BitVec.toNat_eq]
  ult := BitVec.ult_iff_toNat_lt
  ule := BitVec.ule_iff_toNat_le
  slt := BitVec.slt_iff_toInt_lt
  sle := BitVec.sle_iff_toInt_le
  udiv hy := by rw [DivideOp.onWords, Word.udiv, if_neg hy, BitVec.toNat_udiv]
  urem _ := BitVec.toNat_umod
  sdiv hy := by
    refine toNat_of_toInt ?_ rfl
    rw [DivideOp.onWords, Word.sdiv, if_neg hy, BitVec.toInt_sdiv]
  srem _ := by
    refine toNat_of_toInt ?_ rfl
    rw [DivideOp.onWords, Word.srem, ← BitVec.toInt_srem, BitVec.toInt_bmod_cancel]

/-! ## Stored words -/

namespace Stored

/-- What is computed with two stored words of one width. -/
structure Computes (x y : BitVec w) : Prop where
  unsigned : (of x).value.toNat = x.toNat
  signed : (of x).signed.toInt = x.toInt
  unary (op : UnaryOp) : unary op (of x) = .ok (of (op.onWords x))
  binary (op : BinaryOp) : binary op (of x) (of y) = .ok (of (op.onWords x y))
  compare (op : CompareOp) : compare op (of x) (of y) = .ok (op.onWords x y)
  divide (op : DivideOp) :
    divide op (of x) (of y) = .ok (of (op.divide x y).result, (op.divide x y).panic.toNat)
  extend (op : ExtendOp) {n : Nat} : n ≤ maxWidth →
    extend op (of x) n = .ok (of (op.onWords x n))

end Stored

/-- Words are stored as the machine words below the number of words of their width. At every width a
    word may have, what stored words compute never fails and is the arithmetic of two's
    complement. -/
theorem twos_complement (hw : w ≤ maxWidth) :
    (∀ a : Stored, a.WellFormed ∧ a.width = w ↔ ∃ x : BitVec w, a = .of x) ∧
      ∀ x y : BitVec w, Stored.Computes x y ∧ Arithmetic x y := by
  refine ⟨fun a => ⟨fun ha => ha.1.exists_of ha.2, ?_⟩, fun x y => ⟨?_, arithmetic x y⟩⟩
  · rintro ⟨x, rfl⟩
    exact ⟨Stored.wellFormed_of hw x, rfl⟩
  · exact
      { unsigned := Stored.toNat_of hw x
        signed := Stored.toInt_signed_of hw x
        unary := fun op => Stored.unary_of hw op x
        binary := fun op => Stored.binary_of hw op x y
        compare := fun op => Stored.compare_of hw op x y
        divide := fun op => Stored.divide_of hw op x y
        extend := fun op _ hn => Stored.extend_of hw op x hn }

/-- The most negative word of the machine divided by minus one. -/
theorem twos_complement_intMin :
    Stored.divide .sdiv (.of (BitVec.intMin 64)) (.of (-1#64)) =
        .ok (.of (BitVec.intMin 64), noPanic) ∧
      ((DivideOp.sdiv.onWords (BitVec.intMin 64) (-1#64)).toNat : Int) =
        (-2 ^ 63 : Int).tdiv (-1) % 2 ^ 64 := by
  obtain ⟨hcomputes, harithmetic⟩ :=
    (twos_complement (w := 64) le_rfl).2 (BitVec.intMin 64) (-1#64)
  exact ⟨hcomputes.divide .sdiv, harithmetic.sdiv (by decide)⟩

end RefineCheck.Word
