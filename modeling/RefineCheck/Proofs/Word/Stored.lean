/-
  RefineCheck.Proofs.Word.Stored

  Words as they are stored: in a machine word of 64 bits, whose bits above the width are zero,
  together with the width. Every operator computes with machine words and clears what is above the
  width; signed operators first set all bits above it to the sign. On words of one width that is at
  most 64 no operator fails, and the result stores the result of the operator on words.
-/

import RefineCheck.Proofs.Word.Bits
import RefineCheck.Fault
import RefineCheck.Operator
import RefineCheck.Proofs.Result

namespace RefineCheck.Word

/-- A word of the machine. -/
abbrev Machine := BitVec 64

/-- Why an operation on stored words ends without a result. -/
inductive Failure
  | fault (cause : Fault)
  /-- The machine divides by zero. -/
  | zeroDivisor
deriving DecidableEq

/-- A machine word with a width. -/
structure Stored where
  value : Machine
  width : Nat
deriving DecidableEq

namespace Stored

/-- Whether the width is one a word may have and nothing is stored above it. -/
structure WellFormed (a : Stored) : Prop where
  width_le : a.width ≤ maxWidth
  value_lt : a.value.toNat < card a.width

/-! ## Operations of the machine -/

/-- The machine word whose lowest bits are one. -/
def mask (width : Nat) : Machine :=
  if maxWidth ≤ width then BitVec.allOnes 64 else (1#64 <<< width) - 1#64

/-- The sign bit of a word of this width; a word without bits has none. -/
def signBit (width : Nat) : Machine := if width = 0 then 0#64 else 1#64 <<< (width - 1)

/-- Division by the machine, signed or not. -/
def machineDivide (divide : Machine → Machine → Machine) (x y : Machine) : Except Failure Machine :=
  if y = 0 then .error .zeroDivisor else .ok (divide x y)

/-- Stores the lowest bits of a machine word. -/
def new (value : Machine) (width : Nat) : Except Failure Stored :=
  if width ≤ maxWidth then .ok ⟨value &&& mask width, width⟩
  else .error (.fault (.widthLimit width))

/-- Whether both words have the same width. -/
def checkSameWidth (a b : Stored) : Except Failure Unit :=
  if a.width = b.width then .ok () else .error (.fault (.widthMismatch a.width b.width))

/-- Whether the word is negative in two's complement. -/
def isSignBitSet (a : Stored) : Bool := a.value &&& signBit a.width != 0

/-- The number as a signed machine word. -/
def signed (a : Stored) : Machine :=
  if a.width = 0 then 0
  else if a.isSignBitSet then a.value ||| ~~~mask a.width
  else a.value

/-! ## Operators -/

/-- The operators of one stored word. -/
def unary : UnaryOp → Stored → Except Failure Stored
  | .neg, a => new (-a.value) a.width
  | .not, a => new (~~~a.value) a.width

/-- Amounts of at least the width shift all bits out and leave a filling. -/
def shift (a amount : Stored) (filling : Machine) (shifted : Nat → Machine) :
    Except Failure Stored :=
  if a.width ≤ amount.value.toNat then new filling a.width
  else new (shifted amount.value.toNat) a.width

/-- Bitwise operators of words have nothing above the width to clear. -/
def binary (op : BinaryOp) (a b : Stored) : Except Failure Stored := do
  checkSameWidth a b
  match op with
  | .add => new (a.value + b.value) a.width
  | .sub => new (a.value - b.value) a.width
  | .mul => new (a.value * b.value) a.width
  | .and => return ⟨a.value &&& b.value, a.width⟩
  | .or => return ⟨a.value ||| b.value, a.width⟩
  | .xor => return ⟨a.value ^^^ b.value, a.width⟩
  | .shl => shift a b 0 fun n => a.value <<< n
  | .lshr => shift a b 0 fun n => a.value >>> n
  | .ashr => shift a b (if a.isSignBitSet then BitVec.allOnes 64 else 0) fun n =>
    a.signed.sshiftRight n

/-- The comparisons of stored words. -/
def compare (op : CompareOp) (a b : Stored) : Except Failure Bool := do
  checkSameWidth a b
  match op with
  | .eq => return a.value == b.value
  | .ne => return a.value != b.value
  | .ult => return a.value.ult b.value
  | .ule => return a.value.ule b.value
  | .slt => return a.signed.slt b.signed
  | .sle => return a.signed.sle b.signed

/-- The result and the panic code. The machine divides only by what is not zero. -/
def divide (op : DivideOp) (a b : Stored) : Except Failure (Stored × Nat) := do
  checkSameWidth a b
  if b.value = 0 then
    let result ← match op with
      | .udiv | .sdiv => new (BitVec.allOnes 64) a.width
      | .urem | .srem => .ok a
    return (result, op.panicCode)
  else
    let result ← match op with
      | .udiv => machineDivide BitVec.udiv a.value b.value
      | .urem => machineDivide BitVec.umod a.value b.value
      | .sdiv => machineDivide BitVec.sdiv a.signed b.signed
      | .srem => machineDivide BitVec.srem a.signed b.signed
    return (← new result a.width, noPanic)

/-- The extensions and truncations of a stored word. -/
def extend (op : ExtendOp) (a : Stored) (width : Nat) : Except Failure Stored :=
  match op with
  | .uext => new a.value width
  | .sext => new a.signed width

/-! ## Storing words -/

variable {w : Nat}

/-- What a word is stored as. -/
def of (x : BitVec w) : Stored := ⟨x.setWidth 64, w⟩

theorem toNat_of (hw : w ≤ 64) (x : BitVec w) : (of x).value.toNat = x.toNat :=
  BitVec.toNat_setWidth_of_le hw

theorem setWidth_of (hw : w ≤ 64) (x : BitVec w) : (of x).value.setWidth w = x :=
  (BitVec.setWidth_setWidth_of_le x hw).trans (BitVec.setWidth_eq x)

theorem wellFormed_of (hw : w ≤ 64) (x : BitVec w) : (of x).WellFormed :=
  ⟨hw, (toNat_of hw x).symm ▸ x.isLt⟩

/-- Every well-formed machine word stores a word. -/
theorem WellFormed.exists_of {a : Stored} (ha : a.WellFormed) (hw : a.width = w) :
    ∃ x : BitVec w, a = of x := by
  subst hw
  have hvalue : a.value = (of (a.value.setWidth a.width)).value := by
    apply BitVec.eq_of_toNat_eq
    rw [toNat_of ha.width_le, BitVec.toNat_setWidth]
    exact (Nat.mod_eq_of_lt ha.value_lt).symm
  exact ⟨_, congrArg (Stored.mk · a.width) hvalue⟩

/-! ## Clearing what is above the width -/

theorem getLsbD_mask (width k : Nat) :
    (mask width).getLsbD k = (decide (k < 64) && decide (k < width)) := by
  rw [mask]
  split
  · rename_i hw
    have hlt : k < 64 → k < width := fun hk => lt_of_lt_of_le hk hw
    rw [BitVec.getLsbD_allOnes]
    by_cases hk : k < 64 <;> simp [hk, hlt]
  · rename_i hw
    have hpow : 2 ^ width < 2 ^ 64 := Nat.pow_lt_pow_right (by decide) (Nat.lt_of_not_le hw)
    have hmask : (1#64 <<< width) - 1#64 = low 64 width := by
      apply BitVec.eq_of_toNat_eq
      have hone := Nat.one_le_two_pow (n := width)
      have hcard : card width = 2 ^ width := rfl
      simp only [low, hcard, BitVec.toNat_sub, BitVec.toNat_shiftLeft, BitVec.toNat_ofNat,
        Nat.shiftLeft_eq]
      omega
    rw [hmask, getLsbD_low]

/-- Clearing keeps the lowest bits. -/
theorem new_eq (hw : w ≤ 64) (v : Machine) : new v w = .ok (of (v.setWidth w)) := by
  have hvalue : v &&& mask w = (v.setWidth w).setWidth 64 := by
    apply BitVec.eq_of_getLsbD_eq
    intro k hk
    rw [BitVec.getLsbD_and, getLsbD_mask, BitVec.getLsbD_setWidth, BitVec.getLsbD_setWidth]
    cases v.getLsbD k <;> simp
  rw [new, if_pos (show w ≤ maxWidth from hw), hvalue]
  rfl

theorem new_of {v : Machine} {x : BitVec w} (hw : w ≤ 64) (h : v.setWidth w = x) :
    new v w = .ok (of x) := by
  rw [new_eq hw, h]

theorem bmod_bmod (hw : w ≤ 64) (n : Int) : (n.bmod (2 ^ 64)).bmod (2 ^ w) = n.bmod (2 ^ w) :=
  Int.bmod_bmod_of_dvd (pow_dvd_pow 2 hw)

/-- Clearing keeps a number up to multiples of the number of words. -/
theorem new_of_toInt {v : Machine} {x : BitVec w} (hw : w ≤ 64) {n : Int}
    (hv : v.toInt = n.bmod (2 ^ 64)) (hx : x.toInt = n.bmod (2 ^ w)) : new v w = .ok (of x) := by
  refine new_of hw (BitVec.eq_of_toInt_eq ?_)
  rw [BitVec.toInt_setWidth, ← bmod_bmod hw, ← BitVec.toInt_eq_toNat_bmod, hv, bmod_bmod hw, hx]

/-! ## Signs -/

theorem isSignBitSet_of (hw : w ≤ 64) (x : BitVec w) : (of x).isSignBitSet = x.msb := by
  cases w with
  | zero => simp [isSignBitSet, signBit, of, BitVec.msb_eq_getLsbD_last]
  | succ n =>
    have hn : n < 64 := hw
    have hsign : signBit (of x).width = BitVec.twoPow 64 n := rfl
    have hone : BitVec.twoPow 64 n ≠ 0 := by
      rw [Ne, BitVec.toNat_eq, BitVec.toNat_twoPow_of_lt hn]
      exact Nat.two_pow_pos n |>.ne'
    rw [isSignBitSet, hsign, of, BitVec.and_twoPow, BitVec.getLsbD_setWidth, decide_eq_true hn,
      Bool.true_and, BitVec.msb_eq_getLsbD_last, Nat.add_sub_cancel]
    cases x.getLsbD n with
    | true => exact bne_iff_ne.2 hone
    | false => rfl

/-- All bits above the width are the sign. -/
theorem signed_of (hw : w ≤ 64) (x : BitVec w) : (of x).signed = x.signExtend 64 := by
  have hwidth : (of x).width = w := rfl
  rw [signed, isSignBitSet_of hw, hwidth]
  apply BitVec.eq_of_getLsbD_eq
  intro k hk
  have hvalue : (of x).value.getLsbD k = x.getLsbD k := by
    rw [of, BitVec.getLsbD_setWidth, decide_eq_true hk, Bool.true_and]
  have habove : (~~~mask w).getLsbD k = !decide (k < w) := by
    rw [BitVec.getLsbD_not, getLsbD_mask, decide_eq_true hk, Bool.true_and, Bool.true_and]
  rw [BitVec.getLsbD_signExtend, decide_eq_true hk, Bool.true_and]
  by_cases hzero : w = 0
  · subst hzero
    simp [BitVec.msb_eq_getLsbD_last]
  · rw [if_neg hzero]
    by_cases hkw : k < w
    · rw [if_pos hkw]
      split
      · rw [BitVec.getLsbD_or, hvalue, habove, decide_eq_true hkw, Bool.not_true, Bool.or_false]
      · exact hvalue
    · rw [if_neg hkw]
      cases x.msb with
      | true =>
        rw [if_pos rfl, BitVec.getLsbD_or, habove, decide_eq_false hkw, Bool.not_false,
          Bool.or_true]
      | false =>
        rw [if_neg Bool.false_ne_true, hvalue, BitVec.getLsbD_of_ge x k (Nat.le_of_not_lt hkw)]

theorem toInt_signed_of (hw : w ≤ 64) (x : BitVec w) : (of x).signed.toInt = x.toInt := by
  rw [signed_of hw]
  exact BitVec.toInt_signExtend_of_le hw

/-! ## Operators on stored words -/

theorem checkSameWidth_of (x y : BitVec w) : checkSameWidth (of x) (of y) = .ok () := if_pos rfl

theorem unary_of (hw : w ≤ 64) (op : UnaryOp) (x : BitVec w) :
    unary op (of x) = .ok (of (op.onWords x)) := by
  cases op with
  | neg =>
    refine @new_of w _ (-x) hw ?_
    rw [BitVec.setWidth_neg_of_le hw, setWidth_of hw]
  | not =>
    refine @new_of w _ (~~~x) hw ?_
    rw [BitVec.setWidth_not hw, setWidth_of hw]

/-- A shift stores what is shifted on words, if the machine shifts all amounts below the width
    right. -/
theorem shift_of (hw : w ≤ 64) (x y : BitVec w) {filling : Machine} {shifted : Nat → Machine}
    {r : BitVec w} (hfill : w ≤ y.toNat → filling.setWidth w = r)
    (hshift : y.toNat < w → (shifted y.toNat).setWidth w = r) :
    shift (of x) (of y) filling shifted = .ok (of r) := by
  have hwidth : (of x).width = w := rfl
  rw [shift, toNat_of hw, hwidth]
  split
  · exact new_of hw (hfill ‹_›)
  · exact new_of hw (hshift (Nat.lt_of_not_le ‹_›))

/-- What the machine shifts to the left is shifted below the width as well. -/
theorem setWidth_shiftLeft (hw : w ≤ 64) (x : BitVec w) (n : Nat) :
    ((of x).value <<< n).setWidth w = x <<< n := by
  apply BitVec.eq_of_getLsbD_eq
  intro k hk
  have hk' : k < 64 := lt_of_lt_of_le hk hw
  have hrest : k - n < 64 := lt_of_le_of_lt (Nat.sub_le k n) hk'
  rw [BitVec.getLsbD_setWidth, BitVec.getLsbD_shiftLeft, BitVec.getLsbD_shiftLeft, of,
    BitVec.getLsbD_setWidth, decide_eq_true hk, decide_eq_true hk', decide_eq_true hrest,
    Bool.true_and, Bool.true_and, Bool.true_and]

theorem setWidth_ushiftRight (hw : w ≤ 64) (x : BitVec w) (n : Nat) :
    ((of x).value >>> n).setWidth w = x >>> n := by
  apply BitVec.eq_of_toNat_eq
  have hlt : x.toNat >>> n < 2 ^ w := lt_of_le_of_lt (Nat.shiftRight_le x.toNat n) x.isLt
  rw [BitVec.toNat_setWidth, BitVec.toNat_ushiftRight, BitVec.toNat_ushiftRight, toNat_of hw,
    Nat.mod_eq_of_lt hlt]

theorem setWidth_sshiftRight (hw : w ≤ 64) (x : BitVec w) (n : Nat) :
    ((of x).signed.sshiftRight n).setWidth w = x.sshiftRight n := by
  apply BitVec.eq_of_toInt_eq
  rw [BitVec.toInt_setWidth, ← bmod_bmod hw, ← BitVec.toInt_eq_toNat_bmod, BitVec.toInt_sshiftRight,
    toInt_signed_of hw, ← BitVec.toInt_sshiftRight, BitVec.toInt_bmod_cancel]

theorem setWidth_allOnes (hw : w ≤ 64) : (BitVec.allOnes 64).setWidth w = BitVec.allOnes w := by
  apply BitVec.eq_of_getLsbD_eq
  intro k hk
  rw [BitVec.getLsbD_setWidth, BitVec.getLsbD_allOnes, BitVec.getLsbD_allOnes, decide_eq_true hk,
    decide_eq_true (lt_of_lt_of_le hk hw), Bool.and_self]

/-- A machine word filled with the sign is stored as a word filled with it. -/
theorem setWidth_filling (hw : w ≤ 64) (x : BitVec w) :
    (if x.msb then BitVec.allOnes 64 else 0).setWidth w = x.sshiftRight w := by
  apply BitVec.eq_of_getLsbD_eq
  intro k hk
  rw [BitVec.getLsbD_sshiftRight, decide_eq_false (Nat.not_le_of_lt hk), Bool.not_false,
    Bool.true_and, if_neg (Nat.not_lt_of_le (Nat.le_add_right w k))]
  cases x.msb with
  | true => rw [if_pos rfl, setWidth_allOnes hw, BitVec.getLsbD_allOnes, decide_eq_true hk]
  | false => simp

theorem binary_of (hw : w ≤ 64) (op : BinaryOp) (x y : BitVec w) :
    binary op (of x) (of y) = .ok (of (op.onWords x y)) := by
  rw [binary.eq_def, checkSameWidth_of, ok_bind]
  cases op with
  | add =>
    refine @new_of w _ (x + y) hw ?_
    rw [BitVec.setWidth_add _ _ hw, setWidth_of hw, setWidth_of hw]
  | sub =>
    refine @new_of w _ (x - y) hw ?_
    rw [BitVec.sub_eq_add_neg, BitVec.setWidth_add _ _ hw, BitVec.setWidth_neg_of_le hw,
      setWidth_of hw, setWidth_of hw, ← BitVec.sub_eq_add_neg]
  | mul =>
    refine @new_of w _ (x * y) hw ?_
    rw [BitVec.setWidth_mul _ _ hw, setWidth_of hw, setWidth_of hw]
  | and => exact congrArg (fun v => Except.ok (Stored.mk v w)) BitVec.setWidth_and.symm
  | or => exact congrArg (fun v => Except.ok (Stored.mk v w)) BitVec.setWidth_or.symm
  | xor => exact congrArg (fun v => Except.ok (Stored.mk v w)) BitVec.setWidth_xor.symm
  | shl =>
    refine shift_of hw x y (fun hge => ?_) fun hlt => ?_
    · exact (BitVec.setWidth_zero w 64).trans (if_neg (Nat.not_lt_of_le hge)).symm
    · exact (setWidth_shiftLeft hw x _).trans (if_pos hlt).symm
  | lshr =>
    refine shift_of hw x y (fun hge => ?_) fun hlt => ?_
    · exact (BitVec.setWidth_zero w 64).trans (if_neg (Nat.not_lt_of_le hge)).symm
    · exact (setWidth_ushiftRight hw x _).trans (if_pos hlt).symm
  | ashr =>
    -- from the width on only copies of the sign are left
    refine shift_of hw x y (fun hge => ?_) fun hlt => ?_
    · rw [isSignBitSet_of hw, setWidth_filling hw, BinaryOp.onWords, ashr, Nat.min_eq_right hge]
    · refine (setWidth_sshiftRight hw x _).trans ?_
      rw [BinaryOp.onWords, ashr, Nat.min_eq_left hlt.le]

theorem value_inj (hw : w ≤ 64) (x y : BitVec w) : (of x).value = (of y).value ↔ x = y :=
  ⟨fun h => by rw [← setWidth_of hw x, h, setWidth_of hw], fun h => h ▸ rfl⟩

theorem compare_of (hw : w ≤ 64) (op : CompareOp) (x y : BitVec w) :
    compare op (of x) (of y) = .ok (op.onWords x y) := by
  have heq : ((of x).value == (of y).value) = (x == y) := by
    rw [Bool.eq_iff_iff, beq_iff_eq, beq_iff_eq, value_inj hw]
  rw [compare.eq_def, checkSameWidth_of, ok_bind]
  cases op with
  | eq => exact congrArg Except.ok heq
  | ne => exact congrArg (fun b => Except.ok (!b)) heq
  | ult | ule =>
    simp only [BitVec.ult, BitVec.ule, CompareOp.onWords, toNat_of hw, pure_ok]
  | slt | sle =>
    simp only [BitVec.slt, BitVec.sle, CompareOp.onWords, toInt_signed_of hw, pure_ok]

/-- The machine divides by zero only where the divisor is zero. -/
theorem machineDivide_of {f : Machine → Machine → Machine} {u v : Machine} (hv : v ≠ 0) :
    machineDivide f u v = .ok (f u v) := if_neg hv

theorem signed_ne_zero (hw : w ≤ 64) {y : BitVec w} (hy : y ≠ 0) : (of y).signed ≠ 0 := by
  intro h
  refine hy (BitVec.eq_of_toInt_eq ?_)
  rw [← toInt_signed_of hw, h, BitVec.ofNat_eq_ofNat, BitVec.toInt_zero, BitVec.ofNat_eq_ofNat,
    BitVec.toInt_zero]

theorem divide_of_ne_zero (hw : w ≤ 64) (op : DivideOp) {x y : BitVec w} (hy : y ≠ 0) :
    divide op (of x) (of y) = .ok (of (op.onWords x y), noPanic) := by
  have hvalue : (of y).value ≠ 0 := fun h =>
    hy ((value_inj hw y 0).1 (h.trans (BitVec.setWidth_zero 64 w).symm))
  have hsigned := signed_ne_zero hw hy
  have hstored {v : Machine} {r : BitVec w} (h : new v w = .ok (of r)) :
      (do return (← new v (of x).width, noPanic) : Except Failure (Stored × Nat)) =
        .ok (of r, noPanic) := by
    show (new v w >>= fun a => pure (a, noPanic)) = _
    rw [h]
    rfl
  rw [divide.eq_def, checkSameWidth_of, ok_bind, if_neg hvalue]
  cases op with
  | udiv =>
    have hlt : x.toNat / y.toNat < 2 ^ w := lt_of_le_of_lt (Nat.div_le_self _ _) x.isLt
    simp only [machineDivide_of hvalue, ok_bind]
    refine hstored (new_of hw (BitVec.eq_of_toNat_eq ?_))
    rw [DivideOp.onWords, udiv, if_neg hy, BitVec.toNat_udiv, BitVec.toNat_setWidth,
      BitVec.udiv_eq, BitVec.toNat_udiv, toNat_of hw, toNat_of hw, Nat.mod_eq_of_lt hlt]
  | urem =>
    have hlt : x.toNat % y.toNat < 2 ^ w := lt_of_le_of_lt (Nat.mod_le _ _) x.isLt
    simp only [machineDivide_of hvalue, ok_bind]
    refine hstored (new_of hw (BitVec.eq_of_toNat_eq ?_))
    rw [DivideOp.onWords, urem, BitVec.toNat_umod, BitVec.toNat_setWidth, BitVec.umod_eq,
      BitVec.toNat_umod, toNat_of hw, toNat_of hw, Nat.mod_eq_of_lt hlt]
  | sdiv =>
    -- the quotient of the most negative word by minus one wraps in the machine as below the width
    simp only [machineDivide_of hsigned, ok_bind]
    refine hstored (@new_of_toInt w _ _ hw (x.toInt.tdiv y.toInt) ?_ ?_)
    · rw [BitVec.toInt_sdiv, toInt_signed_of hw, toInt_signed_of hw]
    · rw [DivideOp.onWords, sdiv, if_neg hy, BitVec.toInt_sdiv]
  | srem =>
    simp only [machineDivide_of hsigned, ok_bind]
    refine hstored (@new_of_toInt w _ _ hw (x.toInt.tmod y.toInt) ?_ ?_)
    · rw [← toInt_signed_of hw x, ← toInt_signed_of hw y, ← BitVec.toInt_srem,
        BitVec.toInt_bmod_cancel]
    · rw [DivideOp.onWords, srem, ← BitVec.toInt_srem, BitVec.toInt_bmod_cancel]

theorem divide_of_zero (hw : w ≤ 64) (op : DivideOp) (x : BitVec w) :
    divide op (of x) (of (0 : BitVec w)) = .ok (of (op.onWords x 0), op.panicCode) := by
  have hvalue : (of (0 : BitVec w)).value = 0 := BitVec.setWidth_zero 64 w
  have hones : new (BitVec.allOnes 64) (of x).width = .ok (of (BitVec.allOnes w)) :=
    new_of hw (setWidth_allOnes hw)
  rw [divide.eq_def, checkSameWidth_of, ok_bind, if_pos hvalue]
  cases op with
  | udiv | sdiv =>
    simp only [hones, ok_bind, DivideOp.onWords, udiv, sdiv, if_true]
    rfl
  | urem =>
    simp only [ok_bind, DivideOp.onWords, urem_zero]
    rfl
  | srem =>
    have hrem : x.srem 0 = x := BitVec.srem_zero
    simp only [ok_bind, DivideOp.onWords, srem, hrem]
    rfl

/-- A division that raises no code where the divisor is not zero never fails. -/
theorem divide_of (hw : w ≤ 64) (op : DivideOp) (x y : BitVec w) :
    divide op (of x) (of y) = .ok (of (op.divide x y).result, (op.divide x y).panic.toNat) := by
  by_cases hy : y = 0
  · subst hy
    rw [divide_of_zero hw, DivideOp.divide, if_pos rfl]
    cases op <;> rfl
  · rw [divide_of_ne_zero hw op hy, DivideOp.divide, if_neg hy]
    rfl

theorem extend_of (hw : w ≤ 64) (op : ExtendOp) (x : BitVec w) {v : Nat} (hv : v ≤ 64) :
    extend op (of x) v = .ok (of (op.onWords x v)) := by
  cases op with
  | uext => exact new_of hv (BitVec.setWidth_setWidth_of_le x hv)
  | sext =>
    refine new_of_toInt hv (n := x.toInt) ?_ (BitVec.toInt_ofInt x.toInt)
    rw [← toInt_signed_of hw x, BitVec.toInt_bmod_cancel]

end Stored

end RefineCheck.Word
