/-
  RefineCheck.Mark

  Refinement marks: the bits of a value whose knowledge is asked for, and how
  urgently. As a precision of inputs the marked bits are enumerated, as a precision of
  states they survive decay, and marks flow backwards through the operators from a
  result to its operands.
-/

import RefineCheck.Sized

namespace RefineCheck

/-- The marked bits of a word. Only marked words have an importance. -/
structure Mark (w : Nat) where
  bits : BitVec w
  importance : Nat
  normal : bits = 0 ↔ importance = 0
deriving DecidableEq

namespace Mark

variable {w v : Nat}

/-! ## Construction -/

/-- The mark of no bit. -/
def unmarked (w : Nat) : Mark w := ⟨0, 0, by simp⟩

/-- Marks these bits; the importance of marked bits is at least one. -/
def of (bits : BitVec w) (importance : Nat) : Mark w :=
  if h : bits = 0 then unmarked w
  else ⟨bits, max importance 1, by simp only [h, false_iff]; omega⟩

/-- Marks every bit. -/
def all (w importance : Nat) : Mark w := of (BitVec.allOnes w) importance

/-- Whether some bit is marked. -/
def isMarked (m : Mark w) : Bool := m.bits != 0

/-- The marked bits in hexadecimal with the importance. -/
def text (m : Mark w) : String :=
  if m.isMarked then Text.hexText m.bits.toNat ++ s!"({m.importance})" else "unmarked"

/-! ## Combination -/

/-- Keeps only the marks on bits that are unknown in the value. -/
def limit (m : Mark w) (a : Reduced w) : Mark w :=
  of (m.bits &&& a.bits.unknown) m.importance

/-- Marks what either marks, with the greater importance. -/
def join (m n : Mark w) : Mark w :=
  of (m.bits ||| n.bits) (max m.importance n.importance)

/-- Marks the highest bit that the offer marks and this mark does not. -/
def refine? (m offer : Mark w) : Option (Mark w) :=
  let applicants := offer.bits &&& ~~~m.bits
  if applicants = 0 then none
  else
    let highest := BitVec.twoPow w (Word.highestBit applicants)
    some (of (m.bits ||| highest) (max m.importance offer.importance))

/-! ## Decay and enumeration -/

/-- Makes every unmarked bit unknown. -/
def decay (m : Mark w) (a : Reduced w) : Reduced w :=
  if m.bits = BitVec.allOnes w then a else .ofTernary (a.bits.forget (~~~m.bits))

/-- The value whose marked bits are those of the word and whose other bits are unknown. -/
def proto (m : Mark w) (x : BitVec w) : Reduced w := .ofTernary (.ofKnown x m.bits)

/-- The first value of the enumeration: the marked bits are zero. -/
def first (m : Mark w) : Reduced w := m.proto 0

/-- Advances the marked bits as a binary counter, and says whether it did not overflow. -/
def advance (m : Mark w) (current : BitVec w) : Bool × Reduced w :=
  let counter := current &&& m.bits
  (counter != m.bits, m.proto ((counter - m.bits) &&& m.bits))

/-! ## Backward marks

The mark of an operand names the bits of it that can be responsible for a marked bit
of the result. Only unknown bits are ever named. -/

/-- Every unknown bit of an operand whose bits all reach the marked result. -/
def back (a : Reduced w) (later : Mark v) : Mark w :=
  if later.isMarked then (all w later.importance).limit a else unmarked w

/-- Extension or truncation with zeros keeps bit positions. -/
def backUext (a : Reduced w) (later : Mark v) : Mark w :=
  (of (later.bits.setWidth w) later.importance).limit a

/-- Marks on the bits that sign extension adds go to the sign bit. -/
def backSext (a : Reduced w) (later : Mark v) : Mark w :=
  let added := if later.bits.toNat >>> w = 0 then 0 else BitVec.intMin w
  (of (later.bits.setWidth w ||| added) later.importance).limit a

/-- Where the marked bits of a shifted word come from, for one amount. -/
def backShiftBits (w : Nat) (op : BinaryOp) (marked amount : Nat) : BitVec w :=
  match op with
  | .shl => BitVec.ofNat w (marked >>> amount)
  | .ashr =>
    let shifted := BitVec.ofNat w (marked <<< amount)
    -- bits shifted in from the sign bit carry its mark
    if shifted.toNat >>> amount = marked then shifted else shifted ||| BitVec.intMin w
  | _ => BitVec.ofNat w (marked <<< amount)

/-- Shifts the marks back by every possible amount below the width; the amount itself is
    marked in full. -/
def backShift (op : BinaryOp) (a amount : Reduced w) (later : Mark v) : Mark w × Mark w :=
  if later.isMarked then
    let possible := (List.range w).filter fun k => amount.has (BitVec.ofNat w k)
    let marked := possible.foldl
      (fun acc k => acc ||| backShiftBits w op later.bits.toNat k) (0 : BitVec w)
    ((of marked later.importance).limit a, back amount later)
  else (unmarked w, unmarked w)

end Mark

/-! ## Marks that carry their width -/

/-- A mark of a single value, with its width. -/
abbrev Marking := Sized Mark

namespace Marking

/-- The mark of no bit of a word of this width. -/
def unmarked (w : Nat) : Except Fault Marking := do
  checkWidth w
  return ⟨w, .unmarked w⟩

/-- Marks these bits of a word of this width. -/
def of (w bits importance : Nat) : Except Fault Marking := do
  checkWidth w
  return ⟨w, .of (BitVec.ofNat w bits) importance⟩

/-- Marks every bit. -/
def all (w importance : Nat) : Except Fault Marking := do
  checkWidth w
  return ⟨w, .all w importance⟩

/-- Whether some bit is marked. -/
def isMarked (m : Marking) : Bool := m.val.isMarked

/-- How urgently the marked bits are asked for; zero if there are none. -/
def importance (m : Marking) : Nat := m.val.importance

/-- The marked bits in hexadecimal with the importance. -/
def text (m : Marking) : String := m.val.text

/-- Keeps only the marks on bits that are unknown in the value, which has the same width. -/
def limit (m : Marking) (a : Value) : Except Fault Marking :=
  Sized.zipWith (fun {w} x y => ⟨w, Mark.limit x y⟩) m a

/-- Marks what either marks; both have the same width. -/
def join (m n : Marking) : Except Fault Marking :=
  Sized.zipWith (fun {w} x y => ⟨w, Mark.join x y⟩) m n

/-- Marks the highest bit that only the offer marks; both have the same width. -/
def refine? (m offer : Marking) : Except Fault (Option Marking) :=
  Sized.zipWith (fun {w} x y => (Mark.refine? x y).map (⟨w, ·⟩)) m offer

/-- Makes every unmarked bit unknown. -/
def decay (m : Marking) (a : Value) : Except Fault Value :=
  Sized.zipWith (fun {w} x y => ⟨w, Mark.decay x y⟩) m a

/-- The first value of the enumeration. -/
def first (m : Marking) : Value := ⟨m.width, m.val.first⟩

/-- Advances the marked bits; a value with nothing marked stays as it is. -/
def advance (m : Marking) (a : Value) : Bool × Value :=
  if m.isMarked then
    let r := m.val.advance (a.val.bits.umin.setWidth m.width)
    (r.1, ⟨m.width, r.2⟩)
  else (false, a)

/-- The same bits with another importance. -/
def withImportance (m : Marking) (n : Nat) : Marking := ⟨m.width, .of m.val.bits n⟩

/-! ### Backward marks -/

/-- Every unknown bit of an operand whose bits all reach the marked result. -/
def back (a : Value) (later : Marking) : Marking := ⟨a.width, Mark.back a.val later.val⟩

/-- The mark of a complemented operand. -/
def backNot (a : Value) (later : Marking) : Except Fault Marking := later.limit a

/-- The mark of the operand of an extension. -/
def backExtend : ExtendOp → Value → Marking → Marking
  | .uext, a, later => ⟨a.width, Mark.backUext a.val later.val⟩
  | .sext, a, later => ⟨a.width, Mark.backSext a.val later.val⟩

/-- Marks of operands whose bits all reach every bit of the result. -/
def backArith (a b : Value) (later : Marking) : Marking × Marking := (back a later, back b later)

/-- Marks of operands each bit of which reaches only the same bit of the result. -/
def backBitwise (a b : Value) (later : Marking) : Except Fault (Marking × Marking) :=
  return (← later.limit a, ← later.limit b)

/-- Marks of a shifted operand and of the amount. An amount of another width is refused
    only if it admits a shift below the width of the operand. -/
def backShift (op : BinaryOp) (a amount : Value) (later : Marking) :
    Except Fault (Marking × Marking) :=
  let none := Mark.unmarked a.width
  if !later.isMarked || a.width = 0 then .ok (⟨_, none⟩, ⟨_, none⟩)
  else if h : amount.width = a.width then
    let marks := Mark.backShift op a.val (h ▸ amount.val) later.val
    .ok (⟨_, marks.1⟩, ⟨_, marks.2⟩)
  else if amount.val.bits.umin.toNat < a.width then
    .error (.widthMismatch amount.width a.width)
  else .ok (⟨_, none⟩, back amount later)

/-- The marks of the operands of a binary operator. -/
def backBinary (op : BinaryOp) (a b : Value) (later : Marking) :
    Except Fault (Marking × Marking) :=
  match op with
  | .and | .or | .xor => backBitwise a b later
  | .shl | .lshr | .ashr => backShift op a b later
  | .add | .sub | .mul => .ok (backArith a b later)

end Marking

end RefineCheck
