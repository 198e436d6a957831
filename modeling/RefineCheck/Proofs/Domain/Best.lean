/-
  RefineCheck.Proofs.Domain.Best

  What it means that a value describes a set of words as well as its domain can, and that the
  operators of a domain return such values. A sound operator holds all results; an exact one also
  holds no more than it must.
-/

import Mathlib
import RefineCheck.Proofs.Domain

namespace RefineCheck

namespace Domain

variable {F : Nat → Type} [Domain F] [∀ w, Membership (BitVec w) (F w)]

/-- The least value that holds every word of a set: each value that holds them contains it. -/
structure Best {w : Nat} (a : F w) (words : Set (BitVec w)) : Prop where
  holds : ∀ x ∈ words, x ∈ a
  least : ∀ b : F w, (∀ x ∈ words, x ∈ b) → Domain.contains b a = true

end Domain

/-- The operators return a value that fits the results on words for the members of the operands,
    whatever the operands are. Of the operators of two operands only some may be meant. -/
structure Domain.Exact (F : Nat → Type) [Domain F] [∀ w, Membership (BitVec w) (F w)]
    (Fits : {w : Nat} → F w → Set (BitVec w) → Prop) (Meant : BinaryOp → Prop) : Prop where
  unary {w : Nat} (op : UnaryOp) (a : F w) :
    ∃ r : F w, Sized.unary op ⟨w, a⟩ = .ok ⟨w, r⟩ ∧ Fits r (op.onWords '' {x | x ∈ a})
  binary {w : Nat} (op : BinaryOp) (a b : F w) : Meant op →
    ∃ r : F w, Sized.binary op ⟨w, a⟩ ⟨w, b⟩ = .ok ⟨w, r⟩ ∧
      Fits r (Set.image2 op.onWords {x | x ∈ a} {y | y ∈ b})
  compare {w : Nat} (op : CompareOp) (a b : F w) :
    ∃ r : F 1, Sized.compare op ⟨w, a⟩ ⟨w, b⟩ = .ok ⟨1, r⟩ ∧
      Fits r (Set.image2 (fun x y => BitVec.ofBool (op.onWords x y)) {x | x ∈ a} {y | y ∈ b})
  extend {w : Nat} (op : ExtendOp) (a : F w) {v : Nat} : v ≤ Word.maxWidth →
    ∃ r : F v, Sized.extend op ⟨w, a⟩ v = .ok ⟨v, r⟩ ∧ Fits r ((op.onWords · v) '' {x | x ∈ a})

end RefineCheck
