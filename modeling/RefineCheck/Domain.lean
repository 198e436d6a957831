/-
  RefineCheck.Domain

  What the abstract domains have in common: sets of words with bounds, a lattice
  order, and an interpretation of every operator. The three-valued words, the split
  ranges and their reduced product are domains.
-/

import RefineCheck.Reduced

namespace RefineCheck

/-- A family of sets of words that interprets the operators. -/
class Domain (F : Nat → Type) where
  ofWord {w : Nat} : BitVec w → F w
  full (w : Nat) : F w
  has {w : Nat} : F w → BitVec w → Bool
  word? {w : Nat} : F w → Option (BitVec w)
  umin {w : Nat} : F w → BitVec w
  umax {w : Nat} : F w → BitVec w
  smin {w : Nat} : F w → BitVec w
  smax {w : Nat} : F w → BitVec w
  contains {w : Nat} : F w → F w → Bool
  join {w : Nat} : F w → F w → Except Fault (F w)
  meet? {w : Nat} : F w → F w → Option (F w)
  unary {w : Nat} : UnaryOp → F w → Except Fault (F w)
  binary {w : Nat} : BinaryOp → F w → F w → Except Fault (F w)
  compare {w : Nat} : CompareOp → F w → F w → Except Fault (F 1)
  divide {w : Nat} : DivideOp → F w → F w → Except Fault (Divided F w)
  extend {w : Nat} : ExtendOp → F w → (v : Nat) → Except Fault (F v)
  text {w : Nat} : F w → String

/-! ## Three-valued words -/

namespace Ternary

variable {w : Nat}

/-- The operators of one operand. -/
def unary : UnaryOp → Ternary w → Ternary w
  | .neg, a => a.neg
  | .not, a => a.not

/-- The operators of two operands of one width. -/
def binary : BinaryOp → Ternary w → Ternary w → Ternary w
  | .add, a, b => a.add b
  | .sub, a, b => a.sub b
  | .mul, a, b => a.mul b
  | .and, a, b => a.and b
  | .or, a, b => a.or b
  | .xor, a, b => a.xor b
  | .shl, a, b => a.shl b
  | .lshr, a, b => a.lshr b
  | .ashr, a, b => a.ashr b

/-- The comparisons, as a value of one bit. -/
def compare : CompareOp → Ternary w → Ternary w → Ternary 1
  | .eq, a, b => a.eq b
  | .ne, a, b => (a.eq b).not
  | .ult, a, b => a.ult b
  | .ule, a, b => a.ule b
  | .slt, a, b => a.slt b
  | .sle, a, b => a.sle b

/-- The divisions, whose panic says whether the divisor can be zero. -/
def divide (op : DivideOp) (a b : Ternary w) : Divided Ternary w where
  panic := b.panicOf op.panicCode
  result := match op with
    | .udiv => a.udiv b
    | .urem => a.urem b
    | .sdiv => a.sdiv b
    | .srem => a.srem b

/-- The extensions and truncations to another width. -/
def extend : ExtendOp → Ternary w → (v : Nat) → Ternary v
  | .uext, a, v => a.uext v
  | .sext, a, v => a.sext v

instance : Domain Ternary where
  ofWord := ofWord
  full := full
  has a x := decide (x ∈ a)
  word? := word?
  umin := umin
  umax := umax
  smin := smin
  smax := smax
  contains := contains
  join a b := .ok (a.join b)
  meet? := meet?
  unary op a := .ok (a.unary op)
  binary op a b := .ok (binary op a b)
  compare op a b := .ok (compare op a b)
  divide op a b := .ok (divide op a b)
  extend op a v := .ok (extend op a v)
  text := text

end Ternary

/-! ## Split ranges -/

namespace SplitRange

variable {w : Nat}

/-- The operators of one operand. -/
def unary : UnaryOp → SplitRange w → SplitRange w
  | .neg, d => d.neg
  | .not, d => d.not

/-- The operators of two operands of one width. -/
def binary : BinaryOp → SplitRange w → SplitRange w → SplitRange w
  | .add, d, e => d.add e
  | .sub, d, e => d.sub e
  | .mul, d, e => d.mul e
  | .and, d, e => d.and e
  | .or, d, e => d.or e
  | .xor, d, e => d.xor e
  | .shl, d, e => d.shl e
  | .lshr, d, e => d.lshr e
  | .ashr, d, e => d.ashr e

/-- The comparisons, as a value of one bit. -/
def compare : CompareOp → SplitRange w → SplitRange w → SplitRange 1
  | .eq, d, e => d.eq e
  | .ne, d, e => (d.eq e).not
  | .ult, d, e => d.ult e
  | .ule, d, e => d.ule e
  | .slt, d, e => d.slt e
  | .sle, d, e => d.sle e

/-- The divisions, whose panic says whether the divisor can be zero. -/
def divide (op : DivideOp) (d e : SplitRange w) : Divided SplitRange w where
  panic := e.panicOf op.panicCode
  result := match op with
    | .udiv => d.udiv e
    | .urem => d.urem e
    | .sdiv => d.sdiv e
    | .srem => d.srem e

/-- The extensions and truncations to another width. -/
def extend : ExtendOp → SplitRange w → (v : Nat) → SplitRange v
  | .uext, d, v => d.uext v
  | .sext, d, v => d.sext v

instance : Domain SplitRange where
  ofWord := ofWord
  full := full
  has := has
  word? := word?
  umin := umin
  umax := umax
  smin := smin
  smax := smax
  contains := contains
  join d e := .ok (d.join e)
  meet? := meet?
  unary op d := .ok (d.unary op)
  binary op d e := .ok (binary op d e)
  compare op d e := .ok (compare op d e)
  divide op d e := .ok (divide op d e)
  extend op d v := .ok (extend op d v)
  text := text

end SplitRange

/-! ## The reduced product

Each operator is applied to both components and the results are reduced. -/

namespace Reduced

variable {w : Nat}

/-- Both components of an operator of one operand, reduced. -/
def unary (op : UnaryOp) (a : Reduced w) : Except Fault (Reduced w) :=
  reduce (a.bits.unary op) (a.ranges.unary op)

/-- Both components of an operator of two operands, reduced. -/
def binary (op : BinaryOp) (a b : Reduced w) : Except Fault (Reduced w) :=
  reduce (Ternary.binary op a.bits b.bits) (SplitRange.binary op a.ranges b.ranges)

/-- A comparison: only what both components allow is possible. -/
def compare (op : CompareOp) (a b : Reduced w) : Except Fault (Reduced 1) :=
  truth (Ternary.compare op a.bits b.bits) (SplitRange.compare op a.ranges b.ranges)

/-- A division: the panics of both components are reduced before the results are. -/
def divide (op : DivideOp) (a b : Reduced w) : Except Fault (Divided Reduced w) := do
  let bits := Ternary.divide op a.bits b.bits
  let ranges := SplitRange.divide op a.ranges b.ranges
  match reduce? bits.panic ranges.panic with
  | none => throw .disjointPanic
  | some panic => return ⟨panic, ← reduce bits.result ranges.result⟩

/-- Both components of an extension, reduced. -/
def extend (op : ExtendOp) (a : Reduced w) (v : Nat) : Except Fault (Reduced v) :=
  reduce (Ternary.extend op a.bits v) (SplitRange.extend op a.ranges v)

instance : Domain Reduced where
  ofWord := ofWord
  full := full
  has := has
  word? := word?
  umin := umin
  umax := umax
  smin := smin
  smax := smax
  contains := contains
  join := join
  meet? := meet?
  unary := unary
  binary := binary
  compare := compare
  divide := divide
  extend := extend
  text := text

end Reduced

end RefineCheck
