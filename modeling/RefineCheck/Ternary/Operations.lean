/-
  RefineCheck.Ternary.Operations

  The operators on three-valued words. Sums, differences and products are decided
  bit by bit from the extremes of the operands taken modulo a power of two, shifts
  join over every amount the operand admits, and signed division enumerates small
  operands.
-/

import RefineCheck.Ternary

namespace RefineCheck.Ternary

variable {w : Nat}

/-! ## Arithmetic -/

/-- Bit `k` of a sum follows from the operands modulo `2 ^ (k + 1)`. -/
def add (a b : Ternary w) : Ternary w :=
  let part (x y : BitVec w) (k : Nat) : Nat :=
    (x.toNat % Word.card (k + 1) + y.toNat % Word.card (k + 1)) / Word.card k
  ofExtremes (fun k => part a.umin b.umin k) (fun k => part a.umax b.umax k)

/-- The right operand is subtracted, so its extremes swap. -/
def sub (a b : Ternary w) : Ternary w :=
  let part (x y : BitVec w) (k : Nat) : Int :=
    (((x.toNat % Word.card (k + 1) : Nat) : Int) - (y.toNat % Word.card (k + 1) : Nat)) /
      (Word.card k : Nat)
  ofExtremes (part a.umin b.umax) (part a.umax b.umin)

/-- Multiplication, from the extremes of the product modulo each power of two. -/
def mul (a b : Ternary w) : Ternary w :=
  let part (x y : BitVec w) (k : Nat) : Nat :=
    (x.toNat % Word.card (k + 1)) * (y.toNat % Word.card (k + 1)) / Word.card k
  ofExtremes (fun k => part a.umin b.umin k) (fun k => part a.umax b.umax k)

/-- Negation: what the value is subtracted from is zero. -/
def neg (a : Ternary w) : Ternary w := (ofWord 0).sub a

/-! ## Bitwise operators -/

/-- Complement of every bit. -/
def not (a : Ternary w) : Ternary w where
  zeros := a.ones
  ones := a.zeros
  total := by rw [BitVec.or_comm, a.total]

/-- Bitwise conjunction, exact in every bit. -/
def and (a b : Ternary w) : Ternary w where
  zeros := a.zeros ||| b.zeros
  ones := a.ones &&& b.ones
  total := total_of_bits fun k hk => by
    have ha := a.getLsbD_total hk
    have hb := b.getLsbD_total hk
    simp only [BitVec.getLsbD_or, BitVec.getLsbD_and]
    revert ha hb
    cases a.zeros.getLsbD k <;> cases b.zeros.getLsbD k <;> simp +contextual

/-- Bitwise disjunction, exact in every bit. -/
def or (a b : Ternary w) : Ternary w := (a.not.and b.not).not

/-- A bit of the exclusive or is zero if the operands may agree on it, and one if they
    may differ. -/
def xor (a b : Ternary w) : Ternary w where
  zeros := (a.zeros &&& b.zeros) ||| (a.ones &&& b.ones)
  ones := (a.zeros &&& b.ones) ||| (a.ones &&& b.zeros)
  total := total_of_bits fun k hk => by
    have ha := a.getLsbD_total hk
    have hb := b.getLsbD_total hk
    simp only [BitVec.getLsbD_or, BitVec.getLsbD_and]
    revert ha hb
    cases a.zeros.getLsbD k <;> cases a.ones.getLsbD k <;> cases b.zeros.getLsbD k <;>
      cases b.ones.getLsbD k <;> simp

/-! ## Shifts -/

/-- Shift left by a fixed amount; the freed bits are zero. -/
def shlBy (a : Ternary w) (n : Nat) : Ternary w where
  zeros := ~~~((~~~a.zeros) <<< n)
  ones := a.ones <<< n
  total := total_of_bits fun k hk => by
    simp only [BitVec.getLsbD_not, BitVec.getLsbD_shiftLeft, hk]
    by_cases hn : k < n
    · simp [hn]
    · have := a.getLsbD_total (show k - n < w by omega)
      revert this
      cases a.zeros.getLsbD (k - n) <;> cases a.ones.getLsbD (k - n) <;> simp [hn]

/-- Shift right by a fixed amount; the freed bits are zero. -/
def lshrBy (a : Ternary w) (n : Nat) : Ternary w where
  zeros := ~~~((~~~a.zeros) >>> n)
  ones := a.ones >>> n
  total := total_of_bits fun k hk => by
    simp only [BitVec.getLsbD_not, BitVec.getLsbD_ushiftRight, hk]
    by_cases hn : n + k < w
    · have := a.getLsbD_total hn
      revert this
      cases a.zeros.getLsbD (n + k) <;> cases a.ones.getLsbD (n + k) <;> simp [hn]
    · simp [hn]

/-- Shift right by a fixed amount; the freed bits repeat the sign bit. -/
def ashrBy (a : Ternary w) (n : Nat) : Ternary w where
  zeros := a.zeros.sshiftRight n
  ones := a.ones.sshiftRight n
  total := total_of_bits fun k hk => by
    simp only [BitVec.getLsbD_sshiftRight]
    by_cases hn : n + k < w
    · have := a.getLsbD_total hn
      have hkw : ¬ w ≤ k := by omega
      simp only [hn, hkw, if_true, decide_false, Bool.not_false, Bool.true_and]
      exact this
    · have hkw : ¬ w ≤ k := by omega
      have := a.getLsbD_total (show w - 1 < w by omega)
      simp only [hn, hkw, if_false, decide_false, Bool.not_false, Bool.true_and,
        BitVec.msb_eq_getLsbD_last]
      exact this

/-- The amounts an operand admits; every amount of at least the width counts as the width. -/
def amounts (amount : Ternary w) : List Nat :=
  (List.range w).filter (fun k => BitVec.ofNat w k ∈ amount) ++
    (if w ≤ amount.umax.toNat then [w] else [])

theorem amounts_ne_nil (amount : Ternary w) : amount.amounts ≠ [] := by
  by_cases h : amount.umin.toNat < w
  · apply List.ne_nil_of_mem (a := amount.umin.toNat)
    rw [amounts, List.mem_append, List.mem_filter]
    left
    exact ⟨List.mem_range.2 h, by simpa using amount.umin_mem⟩
  · have hle := amount.umin_le_umax
    rw [BitVec.le_def] at hle
    rw [amounts, if_pos (show w ≤ amount.umax.toNat by omega)]
    exact List.append_ne_nil_of_right_ne_nil _ (by simp)

/-- Joins a shift over every amount. -/
def shift (amount : Ternary w) (by_ : Nat → Ternary w) : Ternary w :=
  joinAll (amount.amounts.map by_) (by simpa using amount.amounts_ne_nil)

/-- Shift to the left by every possible amount. -/
def shl (a amount : Ternary w) : Ternary w := amount.shift a.shlBy

/-- Shift to the right with zeros by every possible amount. -/
def lshr (a amount : Ternary w) : Ternary w := amount.shift a.lshrBy

/-- Shift to the right with the sign by every possible amount. -/
def ashr (a amount : Ternary w) : Ternary w := amount.shift a.ashrBy

/-! ## Change of width -/

/-- Extends with zeros, or truncates. -/
def uext (a : Ternary w) (v : Nat) : Ternary v where
  zeros := ~~~((~~~a.zeros).setWidth v)
  ones := a.ones.setWidth v
  total := total_of_bits fun k hk => by
    simp only [BitVec.getLsbD_not, BitVec.getLsbD_setWidth, hk]
    by_cases hw : k < w
    · have := a.getLsbD_total hw
      revert this
      cases a.zeros.getLsbD k <;> cases a.ones.getLsbD k <;> simp [hw]
    · simp [hw]

/-- Extends with the sign bit, or truncates; there is no sign bit to repeat in width zero. -/
def sext (a : Ternary w) (v : Nat) : Ternary v where
  zeros := ~~~((~~~a.zeros).signExtend v)
  ones := a.ones.signExtend v
  total := total_of_bits fun k hk => by
    simp only [BitVec.getLsbD_not, BitVec.getLsbD_signExtend, hk]
    by_cases hw : k < w
    · have := a.getLsbD_total hw
      revert this
      cases a.zeros.getLsbD k <;> cases a.ones.getLsbD k <;> simp [hw]
    · rcases Nat.eq_zero_or_pos w with h0 | h0
      · subst h0
        simp [BitVec.msb]
      · have := a.getLsbD_total (show w - 1 < w by omega)
        simp only [BitVec.msb_eq_getLsbD_last, BitVec.getLsbD_not]
        revert this
        cases a.zeros.getLsbD (w - 1) <;> cases a.ones.getLsbD (w - 1) <;> simp [hw]

/-! ## Comparisons -/

/-- Whether some bit may differ. -/
def canDiffer (a b : Ternary w) : Bool :=
  (a.zeros &&& b.ones) ||| (a.ones &&& b.zeros) != 0

/-- Whether no bit is known to differ. -/
def canAgree (a b : Ternary w) : Bool :=
  (a.zeros &&& b.zeros) ||| (a.ones &&& b.ones) == BitVec.allOnes w

theorem canDiffer_or_canAgree (a b : Ternary w) : (a.canDiffer b || a.canAgree b) = true := by
  cases h : a.canDiffer b
  · simp only [canDiffer, bne_eq_false_iff_eq] at h
    simp only [canAgree, Bool.false_or, beq_iff_eq]
    apply total_of_bits
    intro k hk
    have hd := congrArg (BitVec.getLsbD · k) h
    have ha := a.getLsbD_total hk
    have hb := b.getLsbD_total hk
    simp only [BitVec.getLsbD_or, BitVec.getLsbD_and] at hd ⊢
    revert hd ha hb
    cases a.zeros.getLsbD k <;> cases a.ones.getLsbD k <;> cases b.zeros.getLsbD k <;>
      cases b.ones.getLsbD k <;> simp
  · rfl

/-- Whether the members are equal. -/
def eq (a b : Ternary w) : Ternary 1 :=
  truth (a.canDiffer b) (a.canAgree b) (canDiffer_or_canAgree a b)

/-- Whether the members are in strict unsigned order. -/
def ult (a b : Ternary w) : Ternary 1 :=
  truth (b.umin.ule a.umax) (a.umin.ult b.umax) (Word.ult_flags a.umin_le_umax b.umin_le_umax)

/-- Whether the members are in unsigned order. -/
def ule (a b : Ternary w) : Ternary 1 :=
  truth (b.umin.ult a.umax) (a.umin.ule b.umax) (Word.ule_flags a.umin_le_umax b.umin_le_umax)

/-- Whether the members are in strict signed order. -/
def slt (a b : Ternary w) : Ternary 1 :=
  truth (b.smin.sle a.smax) (a.smin.slt b.smax) (Word.slt_flags a.smin_sle_smax b.smin_sle_smax)

/-- Whether the members are in signed order. -/
def sle (a b : Ternary w) : Ternary 1 :=
  truth (b.smin.slt a.smax) (a.smin.sle b.smax) (Word.sle_flags a.smin_sle_smax b.smin_sle_smax)

/-! ## Division -/

/-- Operand pairs with at most this many unknown bits are divided member by member. -/
def enumerationLimit : Nat := 12

/-- The code a division by this operand may raise. -/
def panicOf (divisor : Ternary w) (code : Nat) : Ternary panicWidth :=
  let raised := ofWord (BitVec.ofNat panicWidth code)
  let quiet := ofWord (BitVec.ofNat panicWidth noPanic)
  if divisor.word? = some 0 then raised
  else if 0 ∈ divisor then quiet.join raised
  else quiet

/-- Unsigned division, from the extremes of the quotient. -/
def udiv (a b : Ternary w) : Ternary w :=
  ofRange (Word.udiv a.umin b.umax) (Word.udiv a.umax b.umin)

/-- With a single quotient the remainder is linear in both operands. -/
def urem (a b : Ternary w) : Ternary w :=
  if Word.udiv a.umin b.umax = Word.udiv a.umax b.umin then
    ofRange (Word.urem a.umin b.umax) (Word.urem a.umax b.umin)
  else full w

/-- The results of an operation on every pair of members. -/
def pairResults (a b : Ternary w) (f : BitVec w → BitVec w → BitVec w) : List (Ternary w) :=
  a.members.flatMap fun x => b.members.map fun y => ofWord (f x y)

theorem pairResults_ne_nil (a b : Ternary w) (f : BitVec w → BitVec w → BitVec w) :
    a.pairResults b f ≠ [] := by
  obtain ⟨x, hx⟩ := List.exists_mem_of_ne_nil _ a.members_ne_nil
  obtain ⟨y, hy⟩ := List.exists_mem_of_ne_nil _ b.members_ne_nil
  apply List.ne_nil_of_mem (a := ofWord (f x y))
  exact List.mem_flatMap.2 ⟨x, hx, List.mem_map.2 ⟨y, hy, rfl⟩⟩

/-- Joins an operation over every pair of members if there are few enough of them. -/
def enumerate (a b : Ternary w) (f : BitVec w → BitVec w → BitVec w) : Ternary w :=
  if Word.count a.unknown + Word.count b.unknown > enumerationLimit then full w
  else joinAll (a.pairResults b f) (pairResults_ne_nil a b f)

/-- Signed division. -/
def sdiv (a b : Ternary w) : Ternary w := a.enumerate b Word.sdiv

/-- Signed remainder. -/
def srem (a b : Ternary w) : Ternary w := a.enumerate b Word.srem

end RefineCheck.Ternary
