/-
  RefineCheck.Word

  Fixed-width two's-complement words. A word of width `w` is a `BitVec w`; this
  module adds the masks and bit searches the abstract domains are built from,
  shifts that accept any amount, and division that is defined for a zero divisor.
-/

namespace RefineCheck.Word

/-- The widest word a value may have. -/
def maxWidth : Nat := 64

/-! ## Masks and bit positions -/

/-- The number of words of a width. -/
def card (w : Nat) : Nat := Nat.pow 2 w

/-- The word whose lowest `n` bits are one. -/
def low (w n : Nat) : BitVec w := BitVec.ofNat w (card n - 1)

/-- The largest number of a word of the width, also for widths no word may have. -/
def last (w : Nat) : Nat := card (min w maxWidth) - 1

/-- The position of the highest one bit of a nonzero word. -/
def highestBit {w : Nat} (x : BitVec w) : Nat := x.toNat.log2

/-- The lowest one bit of a word, alone. -/
def lowestBit {w : Nat} (x : BitVec w) : BitVec w := x &&& -x

/-- Every bit at or below the highest one bit of a word. -/
def spread {w : Nat} (x : BitVec w) : BitVec w :=
  if x = 0 then 0 else low w (highestBit x + 1)

/-- The number of one bits. -/
def count {w : Nat} (x : BitVec w) : Nat := (List.range w).countP x.getLsbD

/-- The word whose bit `k` is `f k`. -/
def ofBits : (w : Nat) → (f : Nat → Bool) → BitVec w
  | 0, _ => 0
  | w + 1, f => BitVec.cons (f w) (ofBits w f)

theorem getLsbD_ofBits (w : Nat) (f : Nat → Bool) (k : Nat) :
    (ofBits w f).getLsbD k = (decide (k < w) && f k) := by
  induction w with
  | zero => simp [ofBits]
  | succ w ih =>
    rw [ofBits, BitVec.getLsbD_cons]
    by_cases hk : k = w
    · simp [hk]
    · have : (k < w) ↔ (k < w + 1) := by omega
      simp [hk, ih, this]

/-- Every word whose one bits lie among the lowest `n` bits of `x`, in increasing order. -/
def subsetsBelow {w : Nat} (x : BitVec w) : Nat → List (BitVec w)
  | 0 => [0]
  | n + 1 =>
    let rest := subsetsBelow x n
    if x.getLsbD n then rest ++ rest.map (· ||| BitVec.twoPow w n) else rest

/-- Every word whose one bits are one bits of `x`, in increasing order. -/
def subsets {w : Nat} (x : BitVec w) : List (BitVec w) := subsetsBelow x w

theorem subsetsBelow_ne_nil {w : Nat} (x : BitVec w) (n : Nat) : subsetsBelow x n ≠ [] := by
  induction n with
  | zero => simp [subsetsBelow]
  | succ n ih =>
    rw [subsetsBelow]
    split
    · exact List.append_ne_nil_of_left_ne_nil ih _
    · exact ih

/-! ## Order -/

/-- A word is at most another one that has all of its one bits. -/
theorem le_of_bits {w : Nat} {x y : BitVec w}
    (h : ∀ k < w, x.getLsbD k = true → y.getLsbD k = true) : x ≤ y := by
  have e : x &&& y = x := by
    apply BitVec.eq_of_getLsbD_eq
    intro k hk
    rw [BitVec.getLsbD_and]
    cases hx : x.getLsbD k
    · rfl
    · simp [h k hk hx]
  rw [BitVec.le_def, ← e, BitVec.toNat_and]
  exact Nat.and_le_right

/-- Among words of one sign the signed order is the unsigned one. -/
theorem sle_of_le {w : Nat} {x y : BitVec w} (h : x ≤ y) (hs : x.msb = y.msb) :
    x.sle y = true := by
  rw [BitVec.le_def] at h
  rw [BitVec.sle_eq_not_slt, BitVec.slt_eq_ult]
  simp [hs, BitVec.ult, h]

/-- Negative words are below the others. -/
theorem sle_of_msb {w : Nat} {x y : BitVec w} (hx : x.msb = true) (hy : y.msb = false) :
    x.sle y = true := by
  rw [BitVec.sle_iff_toInt_le]
  have h1 := BitVec.toInt_neg_of_msb_true hx
  have h2 := BitVec.toInt_nonneg_of_msb_false hy
  omega

/-- A word with fewer one bits is also below in the signed order, if the sign bit is compared the
    other way round. -/
theorem sle_of_bits {w : Nat} {x y : BitVec w} (hs : y.msb = true → x.msb = true)
    (h : ∀ k < w - 1, x.getLsbD k = true → y.getLsbD k = true) : x.sle y = true := by
  by_cases hxy : x.msb = y.msb
  · refine sle_of_le (le_of_bits ?_) hxy
    intro k hk hx
    by_cases hk' : k < w - 1
    · exact h k hk' hx
    · obtain rfl : k = w - 1 := by omega
      rw [← BitVec.msb_eq_getLsbD_last] at hx ⊢
      rw [← hxy, hx]
  · cases hy : y.msb
    · refine sle_of_msb ?_ hy
      cases hx : x.msb
      · exact absurd (hx.trans hy.symm) hxy
      · rfl
    · exact absurd ((hs hy).trans hy.symm) hxy

/-! Of two nonempty sets given by their bounds, some member of the first is below one of the
second, or some member of the second is at most one of the first. -/

theorem ult_flags {w : Nat} {amin amax bmin bmax : BitVec w} (ha : amin ≤ amax)
    (hb : bmin ≤ bmax) : (bmin.ule amax || amin.ult bmax) = true := by
  simp only [BitVec.ule, BitVec.ult, Bool.or_eq_true, decide_eq_true_eq, BitVec.le_def] at *
  omega

theorem ule_flags {w : Nat} {amin amax bmin bmax : BitVec w} (ha : amin ≤ amax)
    (hb : bmin ≤ bmax) : (bmin.ult amax || amin.ule bmax) = true := by
  simp only [BitVec.ule, BitVec.ult, Bool.or_eq_true, decide_eq_true_eq, BitVec.le_def] at *
  omega

theorem slt_flags {w : Nat} {amin amax bmin bmax : BitVec w} (ha : amin.sle amax = true)
    (hb : bmin.sle bmax = true) : (bmin.sle amax || amin.slt bmax) = true := by
  simp only [BitVec.sle, BitVec.slt, Bool.or_eq_true, decide_eq_true_eq] at *
  omega

theorem sle_flags {w : Nat} {amin amax bmin bmax : BitVec w} (ha : amin.sle amax = true)
    (hb : bmin.sle bmax = true) : (bmin.slt amax || amin.sle bmax) = true := by
  simp only [BitVec.sle, BitVec.slt, Bool.or_eq_true, decide_eq_true_eq] at *
  omega

/-! ## Shifts by any amount -/

/-- Shift left; amounts of at least the width give zero. -/
def shl {w : Nat} (x amount : BitVec w) : BitVec w :=
  if amount.toNat < w then x <<< amount.toNat else 0

/-- Shift right filling with zeros; amounts of at least the width give zero. -/
def lshr {w : Nat} (x amount : BitVec w) : BitVec w :=
  if amount.toNat < w then x >>> amount.toNat else 0

/-- Shift right filling with the sign bit, for any amount. -/
def ashr {w : Nat} (x amount : BitVec w) : BitVec w :=
  x.sshiftRight (min amount.toNat w)

/-! ## Division

A zero divisor gives all ones as the quotient and the dividend as the remainder. -/

/-- Unsigned division; by zero it gives the word of all ones. -/
def udiv {w : Nat} (x y : BitVec w) : BitVec w :=
  if y = 0 then BitVec.allOnes w else x / y

/-- Unsigned remainder; by zero it gives the dividend. -/
def urem {w : Nat} (x y : BitVec w) : BitVec w := x % y

/-- Signed division truncates towards zero, and the most negative word divided by
    minus one wraps to itself. -/
def sdiv {w : Nat} (x y : BitVec w) : BitVec w :=
  if y = 0 then BitVec.allOnes w else x.sdiv y

/-- The signed remainder has the sign of the dividend. -/
def srem {w : Nat} (x y : BitVec w) : BitVec w := x.srem y

theorem urem_zero {w : Nat} (x : BitVec w) : urem x 0 = x := by
  apply BitVec.eq_of_toNat_eq
  simp [urem]

/-- A quotient grows with the dividend and shrinks with the divisor. -/
theorem udiv_le_udiv {w : Nat} {x x' y y' : BitVec w} (hx : x ≤ x') (hy : y' ≤ y) :
    udiv x y ≤ udiv x' y' := by
  unfold udiv
  by_cases h' : y' = 0
  · rw [if_pos h', BitVec.le_def, BitVec.toNat_allOnes]
    have := (if y = 0 then BitVec.allOnes w else x / y).isLt
    omega
  · have hpos : 0 < y'.toNat := by
      have : y'.toNat ≠ 0 := fun e => h' (BitVec.eq_of_toNat_eq (by simpa using e))
      omega
    have h : ¬ y = 0 := by
      rintro rfl
      rw [BitVec.le_def] at hy
      simp at hy
      omega
    rw [if_neg h, if_neg h', BitVec.le_def, BitVec.toNat_udiv, BitVec.toNat_udiv]
    rw [BitVec.le_def] at hx hy
    calc x.toNat / y.toNat ≤ x'.toNat / y.toNat := Nat.div_le_div_right hx
      _ ≤ x'.toNat / y'.toNat := Nat.div_le_div_left hy hpos

/-- With one quotient the remainder grows with the dividend and shrinks with the divisor. -/
theorem urem_le_urem {w : Nat} {x x' y y' : BitVec w} (hx : x ≤ x') (hy : y' ≤ y)
    (hq : udiv x y = udiv x' y') : urem x y ≤ urem x' y' := by
  rw [BitVec.le_def] at hx hy
  by_cases h' : y' = 0
  · subst h'
    rw [urem_zero, BitVec.le_def, urem, BitVec.toNat_umod]
    exact Nat.le_trans (Nat.mod_le _ _) hx
  · have hpos : 0 < y'.toNat := by
      have : y'.toNat ≠ 0 := fun e => h' (BitVec.eq_of_toNat_eq (by simpa using e))
      omega
    have h : ¬ y = 0 := by
      rintro rfl
      simp at hy
      omega
    rw [udiv, udiv, if_neg h, if_neg h'] at hq
    have hq' := congrArg BitVec.toNat hq
    rw [BitVec.toNat_udiv, BitVec.toNat_udiv] at hq'
    rw [BitVec.le_def, urem, urem, BitVec.toNat_umod, BitVec.toNat_umod]
    have e1 := Nat.div_add_mod x.toNat y.toNat
    have e2 := Nat.div_add_mod x'.toNat y'.toNat
    rw [← hq'] at e2
    have hm : y'.toNat * (x.toNat / y.toNat) ≤ y.toNat * (x.toNat / y.toNat) :=
      Nat.mul_le_mul_right _ hy
    omega

/-- A word as text: its width, an apostrophe and its unsigned value. -/
def text {w : Nat} (x : BitVec w) : String := s!"{w}'{x.toNat}"

end RefineCheck.Word
