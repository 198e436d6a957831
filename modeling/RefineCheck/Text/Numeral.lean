/-
  RefineCheck.Text.Numeral

  Written integers. Literals of a property may have a base mark and underscores between
  digits; settings are plain decimal numbers.
-/

namespace RefineCheck.Text

/-! ## Digits -/

/-- The value of a digit or letter as a digit; underscores and all else have none. -/
def digitValue? (c : Char) : Option Nat :=
  if '0' ≤ c ∧ c ≤ '9' then some (c.toNat - 48)
  else if 'a' ≤ c ∧ c ≤ 'z' then some (c.toNat - 87)
  else if 'A' ≤ c ∧ c ≤ 'Z' then some (c.toNat - 55)
  else none

/-- The number that digits of a base write, the most significant first. -/
def ofDigits? (base : Nat) (digits : List Char) : Option Nat :=
  digits.foldl (fun acc c => do
    let n ← acc
    let d ← digitValue? c
    if d < base then some (n * base + d) else none) (some 0)

/-! ## Limits -/

/-- The first number that needs 64 bits. -/
def int64Bound : Nat := 0x8000000000000000

/-- The first number that needs more than 64 bits. -/
def uint64Bound : Nat := 0x10000000000000000

/-! ## Literals -/

/-- Whether each underscore stands directly between digits. The flag tells whether a digit,
    or a base mark, comes before. -/
def underscoresSeparate : (afterDigit : Bool) → List Char → Bool
  | _, [] => true
  | afterDigit, '_' :: rest =>
    afterDigit && (match rest with
      | [] => false
      | c :: _ => c != '_') && underscoresSeparate false rest
  | _, _ :: rest => underscoresSeparate true rest

/-- The base of an unsigned literal, its digits, and whether a two-letter mark came before
    them. A leading zero alone marks base eight. -/
def splitBase : List Char → Nat × List Char × Bool
  | '0' :: m :: d :: rest =>
    if m = 'b' ∨ m = 'B' then (2, d :: rest, true)
    else if m = 'o' ∨ m = 'O' then (8, d :: rest, true)
    else if m = 'x' ∨ m = 'X' then (16, d :: rest, true)
    else (8, m :: d :: rest, true)
  | '0' :: rest => (8, rest, true)
  | digits => (10, digits, false)

/-- The number an unsigned literal writes. -/
def natLiteral? (cs : List Char) : Option Nat :=
  if cs.isEmpty then none
  else
    let (base, digits, marked) := splitBase cs
    if underscoresSeparate marked digits then ofDigits? base (digits.filter (· != '_'))
    else none

/-- The 64-bit integer a literal writes. Literals from `2 ^ 63` up to `2 ^ 64` stand for the
    negative number with the same bits. -/
def intLiteral? (cs : List Char) : Option Int :=
  match cs with
  | '-' :: rest => do
    let n ← natLiteral? rest
    if n ≤ int64Bound then some (-(n : Int)) else none
  | _ => do
    let n ← natLiteral? cs
    if n < int64Bound then some n
    else if n < uint64Bound then some ((n : Int) - uint64Bound)
    else none

/-! ## Decimal settings -/

/-- Why a decimal number is refused. -/
inductive DecimalError
  | malformed | outOfRange
deriving DecidableEq, Repr

/-- Continues a number with decimal digits. A number that needs more than 64 bits is refused before
    what follows is looked at. -/
def decimalDigits? : (n : Nat) → List Char → Except DecimalError Nat
  | n, [] => .ok n
  | n, c :: rest =>
    match digitValue? c with
    | none => .error .malformed
    | some d =>
      if 10 ≤ d then .error .malformed
      else if uint64Bound ≤ n * 10 + d then .error .outOfRange
      else decimalDigits? (n * 10 + d) rest

/-- A 64-bit integer in decimal with an optional sign. -/
def decimal? (s : String) : Except DecimalError Int := do
  let (negative, digits) := match s.toList with
    | '-' :: rest => (true, rest)
    | '+' :: rest => (false, rest)
    | cs => (false, cs)
  if digits.isEmpty then throw .malformed
  let n ← decimalDigits? 0 digits
  if negative then if n ≤ int64Bound then return -(n : Int) else throw .outOfRange
  else if n < int64Bound then return n
  else throw .outOfRange

end RefineCheck.Text
