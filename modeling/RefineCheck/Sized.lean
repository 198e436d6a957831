/-
  RefineCheck.Sized

  Values that carry their width. The operators of a domain need operands of one
  width; here the widths are compared and the limit on widths is enforced.
-/

import RefineCheck.Domain

namespace RefineCheck

/-- A member of an indexed family together with its index. -/
structure Sized (F : Nat → Type) where
  width : Nat
  val : F width

instance {F : Nat → Type} [∀ w, DecidableEq (F w)] : DecidableEq (Sized F) :=
  fun ⟨w, a⟩ ⟨v, b⟩ =>
    if h : w = v then by
      subst h
      exact decidable_of_iff (a = b) (by simp)
    else isFalse fun e => h (congrArg Sized.width e)

/-- Fails for a width no value may have. -/
def checkWidth (w : Nat) : Except Fault Unit :=
  if w ≤ Word.maxWidth then .ok () else .error (.widthLimit w)

namespace Sized

/-- Applies a function to two values of one width; the first value's width is reported
    first if they differ. -/
def zipWith {F G : Nat → Type} {α : Type} (f : {w : Nat} → F w → G w → α)
    (a : Sized F) (b : Sized G) : Except Fault α :=
  if h : b.width = a.width then .ok (f a.val (h ▸ b.val))
  else .error (.widthMismatch a.width b.width)

/-- Like `zipWith` for a function that may fail itself. -/
def zipWithM {F G : Nat → Type} {α : Type} (f : {w : Nat} → F w → G w → Except Fault α)
    (a : Sized F) (b : Sized G) : Except Fault α :=
  (zipWith (fun x y => f x y) a b).bind id

/-- The word of the width with this value, taken modulo its number of words. -/
def ofInt (w : Nat) (n : Int) : Except Fault (Sized BitVec) := do
  checkWidth w
  return ⟨w, BitVec.ofInt w n⟩

/-! ## Three-valued words by their bits -/

/-- The three-valued word of the width with these flags, each bit of which must have one. -/
def ofFlags (w zeros ones : Nat) : Except Fault (Sized Ternary) := do
  checkWidth w
  let zeros := BitVec.ofNat w zeros
  let ones := BitVec.ofNat w ones
  match Ternary.ofFlags? zeros ones with
  | some a => return ⟨w, a⟩
  | none => throw (.missingBits zeros.toNat ones.toNat w)

/-- The three-valued word of the width that knows the bits in `known` from `x`. -/
def ofKnown (w x known : Nat) : Except Fault (Sized Ternary) := do
  checkWidth w
  return ⟨w, .ofKnown (BitVec.ofNat w x) (BitVec.ofNat w known)⟩

/-- The three-valued word that a pattern of `0`, `1` and `X` shows, the most significant bit
    first. -/
def ofPattern (pattern : String) : Except Fault (Sized Ternary) :=
  let flags (p : Char → Bool) : Nat :=
    pattern.toList.foldl (fun n c => 2 * n + (if p c then 1 else 0)) 0
  ofFlags pattern.length (flags fun c => c == '0' || c == 'X') (flags fun c => c == '1' || c == 'X')

/-! ## Operators of a domain -/

section Domain

variable {F : Nat → Type} [Domain F]

/-- The value whose only member is the word. -/
def ofWord (x : Sized BitVec) : Sized F := ⟨x.width, Domain.ofWord x.val⟩

/-- The value with every word of this width. -/
def full (w : Nat) : Except Fault (Sized F) := do
  checkWidth w
  return ⟨w, Domain.full w⟩

/-- The only member of a value that has one. -/
def word? (a : Sized F) : Option (Sized BitVec) := (Domain.word? a.val).map (⟨a.width, ·⟩)

/-- Containment of values of one width. -/
def contains (a b : Sized F) : Except Fault Bool :=
  zipWith (fun x y => Domain.contains x y) a b

/-- Whether the word is a member. -/
def has (a : Sized F) (x : Sized BitVec) : Except Fault Bool :=
  zipWith (fun x y => Domain.has x y) a x

/-- The join of values of one width. -/
def join (a b : Sized F) : Except Fault (Sized F) :=
  zipWithM (fun {w} x y => return ⟨w, ← Domain.join x y⟩) a b

/-- The common members of values of one width, if there are any. -/
def meet? (a b : Sized F) : Except Fault (Option (Sized F)) :=
  zipWith (fun {w} x y => (Domain.meet? x y).map (⟨w, ·⟩)) a b

/-- An operator of one operand. -/
def unary (op : UnaryOp) (a : Sized F) : Except Fault (Sized F) :=
  return ⟨a.width, ← Domain.unary op a.val⟩

/-- An operator of two operands of one width. -/
def binary (op : BinaryOp) (a b : Sized F) : Except Fault (Sized F) :=
  zipWithM (fun {w} x y => return ⟨w, ← Domain.binary op x y⟩) a b

/-- A comparison of values of one width. -/
def compare (op : CompareOp) (a b : Sized F) : Except Fault (Sized F) :=
  zipWithM (fun x y => return ⟨1, ← Domain.compare op x y⟩) a b

/-- The panic code and the result. -/
def divide (op : DivideOp) (a b : Sized F) : Except Fault (Sized F × Sized F) :=
  zipWithM (fun {w} x y => do
    let d ← Domain.divide op x y
    return (⟨panicWidth, d.panic⟩, ⟨w, d.result⟩)) a b

/-- An extension or truncation to a width. -/
def extend (op : ExtendOp) (a : Sized F) (v : Nat) : Except Fault (Sized F) := do
  checkWidth v
  return ⟨v, ← Domain.extend op a.val v⟩

/-- Joins a nonempty sequence from left to right. -/
def joinAll (a : Sized F) (rest : List (Sized F)) : Except Fault (Sized F) :=
  rest.foldlM join a

/-- The text of the value without its width. -/
def text (a : Sized F) : String := Domain.text a.val

end Domain

end Sized

/-- An abstract value of a system: a member of the reduced product with its width. -/
abbrev Value := Sized Reduced

namespace Value

/-- The value of one number, taken modulo the number of words. -/
def ofNat (w n : Nat) : Value := ⟨w, .ofWord (BitVec.ofNat w n)⟩

/-- The unsigned bounds as numbers. -/
def lower (a : Value) : Nat := a.val.umin.toNat

/-- The greatest member in unsigned order. -/
def upper (a : Value) : Nat := a.val.umax.toNat

/-- The number, if there is just one. -/
def number? (a : Value) : Option Nat := a.val.word?.map (·.toNat)

end Value

end RefineCheck
