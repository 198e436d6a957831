/-
  RefineCheck.Operator

  The operators a transition system is written with, and what each of them
  computes on words. The abstract domains interpret the same operators.
-/

import RefineCheck.Word

namespace RefineCheck

/-- Operators of one operand. -/
inductive UnaryOp
  | neg | not
deriving DecidableEq, Repr

/-- Operators of two operands whose result has the operands' width. -/
inductive BinaryOp
  | add | sub | mul | and | or | xor | shl | lshr | ashr
deriving DecidableEq, Repr

/-- Comparisons; the `u` ones read their operands as unsigned, the `s` ones as signed. -/
inductive CompareOp
  | eq | ne | ult | ule | slt | sle
deriving DecidableEq, Repr

/-- Division and remainder, which raise a panic code on a zero divisor. -/
inductive DivideOp
  | udiv | urem | sdiv | srem
deriving DecidableEq, Repr

/-- Changes of width; extension repeats zeros or the sign bit, and both truncate. -/
inductive ExtendOp
  | uext | sext
deriving DecidableEq, Repr

/-- The width of every panic code. -/
def panicWidth : Nat := 32

/-- The code that says nothing was raised. -/
def noPanic : Nat := 0

/-- The code an operator raises on a zero divisor. -/
def DivideOp.panicCode : DivideOp → Nat
  | .udiv | .sdiv => 1
  | .urem | .srem => 2

/-- A result together with the panic code that computing it may have raised. -/
structure Divided (F : Nat → Type) (w : Nat) where
  panic : F panicWidth
  result : F w

/-! ## Meaning on words -/

/-- What the operator does to a word. -/
def UnaryOp.onWords {w : Nat} : UnaryOp → BitVec w → BitVec w
  | .neg, x => -x
  | .not, x => ~~~x

/-- What the operator does to two words. -/
def BinaryOp.onWords {w : Nat} : BinaryOp → BitVec w → BitVec w → BitVec w
  | .add, x, y => x + y
  | .sub, x, y => x - y
  | .mul, x, y => x * y
  | .and, x, y => x &&& y
  | .or, x, y => x ||| y
  | .xor, x, y => x ^^^ y
  | .shl, x, y => Word.shl x y
  | .lshr, x, y => Word.lshr x y
  | .ashr, x, y => Word.ashr x y

/-- Whether the comparison holds of two words. -/
def CompareOp.onWords {w : Nat} : CompareOp → BitVec w → BitVec w → Bool
  | .eq, x, y => x == y
  | .ne, x, y => x != y
  | .ult, x, y => x.ult y
  | .ule, x, y => x.ule y
  | .slt, x, y => x.slt y
  | .sle, x, y => x.sle y

/-- What the division gives, by zero included. -/
def DivideOp.onWords {w : Nat} : DivideOp → BitVec w → BitVec w → BitVec w
  | .udiv, x, y => Word.udiv x y
  | .urem, x, y => Word.urem x y
  | .sdiv, x, y => Word.sdiv x y
  | .srem, x, y => Word.srem x y

/-- The word of another width. -/
def ExtendOp.onWords {w : Nat} : ExtendOp → BitVec w → (v : Nat) → BitVec v
  | .uext, x, v => x.setWidth v
  | .sext, x, v => x.signExtend v

/-- Division of words: the code is raised exactly when the divisor is zero. -/
def DivideOp.divide {w : Nat} (op : DivideOp) (x y : BitVec w) : Divided BitVec w where
  panic := BitVec.ofNat panicWidth (if y = 0 then op.panicCode else noPanic)
  result := op.onWords x y

/-! ## Names -/

/-- The operator of this name. -/
def UnaryOp.ofName? : String → Option UnaryOp
  | "neg" => some .neg
  | "not" => some .not
  | _ => none

/-- The operator of this name. -/
def BinaryOp.ofName? : String → Option BinaryOp
  | "add" => some .add
  | "sub" => some .sub
  | "mul" => some .mul
  | "and" => some .and
  | "or" => some .or
  | "xor" => some .xor
  | "shl" => some .shl
  | "lshr" => some .lshr
  | "ashr" => some .ashr
  | _ => none

/-- The comparison of this name. -/
def CompareOp.ofName? : String → Option CompareOp
  | "eq" => some .eq
  | "ne" => some .ne
  | "ult" => some .ult
  | "ule" => some .ule
  | "slt" => some .slt
  | "sle" => some .sle
  | _ => none

/-- The division of this name. -/
def DivideOp.ofName? : String → Option DivideOp
  | "udiv" => some .udiv
  | "urem" => some .urem
  | "sdiv" => some .sdiv
  | "srem" => some .srem
  | _ => none

/-- The extension of this name. -/
def ExtendOp.ofName? : String → Option ExtendOp
  | "uext" => some .uext
  | "sext" => some .sext
  | _ => none

/-- An operator of any kind. -/
inductive Operator
  | unary (op : UnaryOp)
  | binary (op : BinaryOp)
  | compare (op : CompareOp)
  | divide (op : DivideOp)
  | extend (op : ExtendOp)
deriving DecidableEq, Repr

/-- The operator of this name, of whatever kind. -/
def Operator.ofName? (name : String) : Option Operator :=
  (UnaryOp.ofName? name).map .unary <|> (BinaryOp.ofName? name).map .binary <|>
    (CompareOp.ofName? name).map .compare <|> (DivideOp.ofName? name).map .divide <|>
    (ExtendOp.ofName? name).map .extend

end RefineCheck
