/-
  RefineCheck.SplitRange.Operations

  The operators on split ranges. Arithmetic treats each pair of intervals as an
  interval that may wrap around, bitwise operators and shifts go through three-valued
  words, and signed division is exact on single members only.
-/

import RefineCheck.SplitRange
import RefineCheck.Ternary.Operations

namespace RefineCheck.SplitRange

variable {w : Nat}

/-! ## Wrapping intervals -/

/-- The `steps + 1` words that follow each other from `start`, wrapping around. -/
def wrapping (start : BitVec w) (steps : Nat) : SplitRange w :=
  if Word.card w - 1 ≤ steps then full w
  else
    let stop := start + BitVec.ofNat w steps
    if h : start ≤ stop then ofRange ⟨start, stop, h⟩
    else (ofRange (.above start)).join (ofRange (.upTo stop))

/-- Joins an operation over every pair of intervals. -/
def pairwise (d e : SplitRange w) (f : Range w → Range w → SplitRange w) : SplitRange w :=
  d.joinMap fun r => e.joinMap fun s => f r s

/-! ## Arithmetic -/

/-- Addition of the intervals, half by half. -/
def add (d e : SplitRange w) : SplitRange w :=
  d.pairwise e fun r s => wrapping (r.lo + s.lo) (r.steps + s.steps)

/-- Subtraction of the intervals, half by half. -/
def sub (d e : SplitRange w) : SplitRange w :=
  d.pairwise e fun r s => wrapping (r.lo - s.hi) (r.steps + s.steps)

/-- Multiplication of the intervals, half by half. -/
def mul (d e : SplitRange w) : SplitRange w :=
  d.pairwise e fun r s =>
    wrapping (r.lo * s.lo) (r.hi.toNat * s.hi.toNat - r.lo.toNat * s.lo.toNat)

/-- Negation: what the value is subtracted from is zero. -/
def neg (d : SplitRange w) : SplitRange w := (ofWord 0).sub d

/-! ## Bitwise operators and shifts -/

/-- Complement reverses each interval. -/
def not (d : SplitRange w) : SplitRange w :=
  d.joinMap fun r => ofRange r.complement

/-- Applies an operator to the three-valued words of both operands. -/
def viaTernary (f : Ternary w → Ternary w → Ternary w) (d e : SplitRange w) : SplitRange w :=
  ofTernary (f d.toTernary e.toTernary)

/-- Bitwise conjunction, through the known bits. -/
def and (d e : SplitRange w) : SplitRange w := viaTernary Ternary.and d e

/-- Bitwise disjunction, through the known bits. -/
def or (d e : SplitRange w) : SplitRange w := viaTernary Ternary.or d e

/-- Bitwise exclusive disjunction, through the known bits. -/
def xor (d e : SplitRange w) : SplitRange w := viaTernary Ternary.xor d e

/-- Shift to the left, through the known bits. -/
def shl (d amount : SplitRange w) : SplitRange w := viaTernary Ternary.shl d amount

/-- Shift to the right with zeros, through the known bits. -/
def lshr (d amount : SplitRange w) : SplitRange w := viaTernary Ternary.lshr d amount

/-- Shift to the right with the sign, through the known bits. -/
def ashr (d amount : SplitRange w) : SplitRange w := viaTernary Ternary.ashr d amount

/-! ## Change of width -/

/-- Keeps the lowest bits; each interval may wrap around in the smaller width. -/
def truncate (d : SplitRange w) (v : Nat) : SplitRange v :=
  d.joinMap fun r => wrapping (r.lo.setWidth v) r.steps

/-- Extends with zeros, or truncates. -/
def uext (d : SplitRange w) (v : Nat) : SplitRange v :=
  if h : v < w then d.truncate v
  else d.joinMap fun r => ofRange (r.uext (Nat.le_of_not_lt h))

/-- Extends with the sign bit, or truncates. -/
def sext (d : SplitRange w) (v : Nat) : SplitRange v :=
  if h : v < w then d.truncate v
  else d.joinMap fun r => ofRange (r.sext (Nat.le_of_not_lt h))

/-! ## Comparisons -/

/-- Whether the operands are not the same single word. -/
def canDiffer (d e : SplitRange w) : Bool := !(d.word?.isSome && d.word? == e.word?)

/-- Whether the operands have a common member. -/
def canAgree (d e : SplitRange w) : Bool := (d.meet? e).isSome

theorem canDiffer_or_canAgree (d e : SplitRange w) : (d.canDiffer e || d.canAgree e) = true := by
  cases h : d.canDiffer e
  · simp only [canDiffer, Bool.not_eq_false', Bool.and_eq_true, beq_iff_eq] at h
    obtain ⟨x, hx⟩ := Option.isSome_iff_exists.1 h.1
    have hy : e.word? = some x := h.2.symm.trans hx
    simpa [canAgree] using meet?_isSome (mem_of_word? hx) (mem_of_word? hy)
  · rfl

/-- Whether the members are equal. -/
def eq (d e : SplitRange w) : SplitRange 1 :=
  truth (d.canDiffer e) (d.canAgree e) (canDiffer_or_canAgree d e)

/-- Whether the members are in strict unsigned order. -/
def ult (d e : SplitRange w) : SplitRange 1 :=
  truth (e.umin.ule d.umax) (d.umin.ult e.umax) (Word.ult_flags d.umin_le_umax e.umin_le_umax)

/-- Whether the members are in unsigned order. -/
def ule (d e : SplitRange w) : SplitRange 1 :=
  truth (e.umin.ult d.umax) (d.umin.ule e.umax) (Word.ule_flags d.umin_le_umax e.umin_le_umax)

/-- Whether the members are in strict signed order. -/
def slt (d e : SplitRange w) : SplitRange 1 :=
  truth (e.smin.sle d.smax) (d.smin.slt e.smax) (Word.slt_flags d.smin_sle_smax e.smin_sle_smax)

/-- Whether the members are in signed order. -/
def sle (d e : SplitRange w) : SplitRange 1 :=
  truth (e.smin.slt d.smax) (d.smin.sle e.smax) (Word.sle_flags d.smin_sle_smax e.smin_sle_smax)

/-! ## Division -/

/-- The code a division by this operand may raise. -/
def panicOf (divisor : SplitRange w) (code : Nat) : SplitRange panicWidth :=
  let raised := ofWord (BitVec.ofNat panicWidth code)
  let quiet := ofWord (BitVec.ofNat panicWidth noPanic)
  if divisor.word? = some 0 then raised
  else if divisor.has 0 then quiet.join raised
  else quiet

/-- Unsigned division, from the extremes of the quotient. -/
def udiv (d e : SplitRange w) : SplitRange w :=
  ofRange ⟨Word.udiv d.umin e.umax, Word.udiv d.umax e.umin,
    Word.udiv_le_udiv d.umin_le_umax e.umin_le_umax⟩

/-- With a single quotient the remainder is linear in both operands. Otherwise it never
    exceeds the dividend, and stays below the divisor if that is nonzero. -/
def urem (d e : SplitRange w) : SplitRange w :=
  if h : Word.udiv d.umin e.umax = Word.udiv d.umax e.umin then
    ofRange ⟨Word.urem d.umin e.umax, Word.urem d.umax e.umin,
      Word.urem_le_urem d.umin_le_umax e.umin_le_umax h⟩
  else if e.umin = 0 ∨ d.umax < e.umax then ofRange (.upTo d.umax)
  else ofRange (.upTo (e.umax - 1))

/-- Divides two single words, and knows nothing otherwise. -/
def exactOrFull (f : BitVec w → BitVec w → BitVec w) (d e : SplitRange w) : SplitRange w :=
  match d.word?, e.word? with
  | some x, some y => ofWord (f x y)
  | _, _ => full w

/-- Signed division, exact only for single words. -/
def sdiv (d e : SplitRange w) : SplitRange w := exactOrFull Word.sdiv d e

/-- Signed remainder, exact only for single words. -/
def srem (d e : SplitRange w) : SplitRange w := exactOrFull Word.srem d e

end RefineCheck.SplitRange
