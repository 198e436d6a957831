/-
  RefineCheck.Text.Decimal

  Decimal fractions read as binary64 numbers, as far as their integer parts are needed: the
  nearest number with a mantissa of 53 bits, ties to even, cut towards zero.
-/

import RefineCheck.Text.Numeral

namespace RefineCheck.Text

/-- The number `mantissa * 10 ^ exponent`. -/
structure Decimal where
  mantissa : Int
  exponent : Int
deriving DecidableEq, Repr

namespace Decimal

/-- A quotient rounded to the nearest integer; a half goes to the even neighbour. -/
def roundDiv (n d : Nat) : Nat :=
  let q := n / d
  let r := n % d
  if 2 * r < d then q else if d < 2 * r then q + 1 else q + q % 2

/-- The largest power of two, as an exponent, that is at most a positive quotient. -/
def floorLog2 (n d : Nat) : Int :=
  let e : Int := (Nat.log2 n : Int) - (Nat.log2 d : Int)
  if n * Nat.pow 2 (-e).toNat < d * Nat.pow 2 e.toNat then e - 1 else e

/-- The integer part of the number with a mantissa of 53 bits that is nearest to a quotient. -/
def integerPart (n d : Nat) : Nat :=
  if n = 0 then 0
  else
    let shift := floorLog2 n d - 52
    let up := Nat.pow 2 (-shift).toNat
    let down := Nat.pow 2 shift.toNat
    roundDiv (n * up) (d * down) * down / up

/-- The largest exponent that a finite number can have, with room to spare. -/
def exponentBound : Int := 400

/-- The integer part of the nearest binary64 number without its sign; nothing if it is too large to
    be finite. -/
def magnitude? (x : Decimal) : Option Nat :=
  let n := x.mantissa.natAbs
  if n = 0 then some 0
  else if x.exponent + (Nat.log2 n : Int) < 0 then some 0
  else if exponentBound < x.exponent then none
  else
    let part := integerPart (n * Nat.pow 10 x.exponent.toNat) (Nat.pow 10 (-x.exponent).toNat)
    if part < Nat.pow 2 1024 then some part else none

/-- The number as a 64-bit integer, cut towards zero; what is out of range becomes the least one. -/
def toInt64 (x : Decimal) : Int :=
  match x.magnitude? with
  | none => -(int64Bound : Int)
  | some n =>
    if x.mantissa < 0 then -(min n int64Bound : Nat)
    else if n < int64Bound then n
    else -(int64Bound : Int)

end Decimal

end RefineCheck.Text
