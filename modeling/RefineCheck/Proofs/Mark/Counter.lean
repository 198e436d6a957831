/-
  RefineCheck.Proofs.Mark.Counter

  The marked bits of a word as a counter. Advancing a value of the enumeration takes one off the
  number of values that are left, and what is left determines the value.
-/

import Mathlib
import RefineCheck.Mark
import RefineCheck.Proofs.Concrete

namespace RefineCheck

namespace Word

/-- The number that the bits of a word at the positions of a mask form. -/
def gather : (w : Nat) → (mask word : Nat) → Nat
  | 0, _, _ => 0
  | w + 1, m, word =>
    if m % 2 = 1 then word % 2 + 2 * gather w (m / 2) (word / 2)
    else gather w (m / 2) (word / 2)

theorem gather_eq_iff {w m x y : Nat} :
    gather w m x = gather w m y ↔
      ∀ i < w, m.testBit i = true → x.testBit i = y.testBit i := by
  induction w generalizing m x y with
  | zero => simp [gather]
  | succ w ih =>
    rw [gather, gather, Nat.forall_lt_succ_left']
    simp only [Nat.testBit_add_one, Nat.testBit_zero, decide_eq_true_eq, ← ih]
    split
    · rename_i hm
      constructor
      · intro h
        refine ⟨fun _ => ?_, by omega⟩
        rw [decide_eq_decide]
        omega
      · rintro ⟨h0, h⟩
        have := decide_eq_decide.1 (h0 hm)
        omega
    · rename_i hm
      exact ⟨fun h => ⟨fun hm' => absurd hm' hm, h⟩, fun h => h.2⟩

theorem gather_zero (w m : Nat) : gather w m 0 = 0 := by
  induction w generalizing m with
  | zero => rfl
  | succ w ih =>
    rw [gather, ih]
    split <;> rfl

theorem gather_le {w m x y : Nat} (h : ∀ i < w, x.testBit i = true → y.testBit i = true) :
    gather w m x ≤ gather w m y := by
  induction w generalizing m x y with
  | zero => exact le_rfl
  | succ w ih =>
    rw [Nat.forall_lt_succ_left'] at h
    simp only [Nat.testBit_add_one, Nat.testBit_zero, decide_eq_true_eq] at h
    have := ih (m := m / 2) h.2
    rw [gather, gather]
    split <;> omega

/-- Taking one off a word, of which only bits of the mask are read, takes one off the number. -/
theorem gather_pred {w m x : Nat} (hx : x < 2 ^ w) (hpos : 0 < x)
    (h : ∀ i, x.testBit i = true → m.testBit i = true) :
    gather w m (x - 1) + 1 = gather w m x := by
  induction w generalizing m x with
  | zero => omega
  | succ w ih =>
    have h0 := h 0
    simp only [Nat.testBit_zero, decide_eq_true_eq] at h0
    have hhalf (i : Nat) (hi : (x / 2).testBit i = true) : (m / 2).testBit i = true := by
      rw [← Nat.testBit_add_one] at hi ⊢
      exact h _ hi
    rw [gather, gather]
    by_cases hodd : x % 2 = 1
    · have hdiv : (x - 1) / 2 = x / 2 := by omega
      rw [if_pos (h0 hodd), if_pos (h0 hodd), hdiv]
      omega
    · have hdiv : (x - 1) / 2 = x / 2 - 1 := by omega
      have := ih (m := m / 2) (x := x / 2) (by omega) (by omega) hhalf
      rw [hdiv]
      split <;> omega

end Word

namespace Mark

variable {w : Nat} (m : Mark w)

/-- How many values of the enumeration come after the one that a word is a member of. -/
def left (x : BitVec w) : Nat := Word.gather w m.bits.toNat (~~~x).toNat

theorem left_eq_iff {x y : BitVec w} : m.left x = m.left y ↔ x &&& m.bits = y &&& m.bits := by
  rw [left, left, Word.gather_eq_iff]
  constructor
  · intro h
    apply BitVec.eq_of_getLsbD_eq
    intro i hi
    have := h i hi
    rw [← BitVec.getLsbD, ← BitVec.getLsbD, ← BitVec.getLsbD] at this
    simp only [BitVec.getLsbD_not, hi, decide_true, Bool.true_and, Bool.not_inj_iff] at this
    rw [BitVec.getLsbD_and, BitVec.getLsbD_and]
    cases hm : m.bits.getLsbD i with
    | false => rw [Bool.and_false, Bool.and_false]
    | true => rw [this hm]
  · intro h i hi hm
    have := congrArg (fun z => z.getLsbD i) h
    rw [← BitVec.getLsbD] at hm
    rw [← BitVec.getLsbD, ← BitVec.getLsbD, BitVec.getLsbD_not, BitVec.getLsbD_not]
    simp only [BitVec.getLsbD_and, hm, Bool.and_true] at this
    rw [this]

theorem left_le (x : BitVec w) : m.left x ≤ m.left 0 := by
  refine Word.gather_le fun i hi _ => ?_
  rw [← BitVec.getLsbD, BitVec.getLsbD_not]
  simp [hi]

/-- Nothing is left when all marked bits are one. -/
theorem left_bits : m.left m.bits = 0 := by
  rw [← Word.gather_zero w m.bits.toNat, left, Word.gather_eq_iff]
  intro i hi hm
  rw [← BitVec.getLsbD] at hm
  rw [← BitVec.getLsbD, BitVec.getLsbD_not, hm, Bool.not_true, Bool.and_false, Nat.zero_testBit]

/-- Nothing is left where nothing is marked. -/
theorem left_of_unmarked (h : m.bits = 0) (x : BitVec w) : m.left x = 0 := by
  rw [← m.left_bits, left_eq_iff, h]
  exact (BitVec.and_zero (x := x)).trans BitVec.and_zero.symm

theorem mem_proto {x y : BitVec w} : y ∈ m.proto x ↔ y &&& m.bits = x &&& m.bits := by
  rw [proto, (Reduced.ofTernary_spec _).2, ← left_eq_iff, left, left, Word.gather_eq_iff,
    Ternary.mem_ofKnown]
  refine forall₂_congr fun i hi => ?_
  rw [← BitVec.getLsbD, ← BitVec.getLsbD, ← BitVec.getLsbD, BitVec.getLsbD_not, BitVec.getLsbD_not]
  simp only [hi, decide_true, Bool.true_and, Bool.not_inj_iff]

/-- What an enumerated value is read as. -/
theorem umin_proto (x : BitVec w) : (m.proto x).bits.umin &&& m.bits = x &&& m.bits := by
  have hmem : (m.proto x).bits.umin ∈ Ternary.ofKnown x m.bits :=
    Reduced.bits_ofTernary (Ternary.umin_mem _)
  rw [← mem_proto, proto, (Reduced.ofTernary_spec _).2]
  exact hmem

/-- The distance of a part of a mask to the whole. -/
theorem sub_eq_and_not {c m : BitVec w} (h : c &&& m = c) : m - c = m &&& ~~~c := by
  have hdisjoint : (m &&& ~~~c) &&& c = 0 := by
    rw [BitVec.and_assoc, BitVec.not_and_self]
    exact BitVec.and_zero
  have hor : (m &&& ~~~c) ||| c = m := by
    rw [← h]
    apply BitVec.eq_of_getLsbD_eq
    intro i hi
    simp only [BitVec.getLsbD_or, BitVec.getLsbD_and, BitVec.getLsbD_not, hi, decide_true,
      Bool.true_and]
    cases c.getLsbD i <;> cases m.getLsbD i <;> rfl
  rw [← BitVec.add_eq_or_of_and_eq_zero _ _ hdisjoint] at hor
  exact (BitVec.eq_sub_iff_add_eq.2 hor).symm

/-- What is left after a part of the mask is its distance to the whole. -/
theorem left_of_part {c : BitVec w} (hc : c &&& m.bits = c) :
    m.left c = Word.gather w m.bits.toNat (m.bits - c).toNat := by
  refine Word.gather_eq_iff.2 fun i hi hm => ?_
  rw [← BitVec.getLsbD] at hm
  rw [← BitVec.getLsbD, ← BitVec.getLsbD, sub_eq_and_not hc, BitVec.getLsbD_and, hm, Bool.true_and]

/-- What is left after the next part of the mask is one less than the distance. -/
theorem left_of_next (c : BitVec w) :
    m.left ((c - m.bits) &&& m.bits) = Word.gather w m.bits.toNat (m.bits - c - 1).toNat := by
  -- the complement of a number is what is below its negation
  have hnot : ~~~(c - m.bits) = m.bits - c - 1 := by
    have hneg : c - m.bits = -(m.bits - c) := by
      rw [BitVec.neg_sub, BitVec.add_comm, BitVec.sub_eq_add_neg]
    rw [hneg, BitVec.not_neg]
    rfl
  refine Word.gather_eq_iff.2 fun i hi hm => ?_
  rw [← BitVec.getLsbD] at hm
  rw [← BitVec.getLsbD, ← BitVec.getLsbD, ← hnot, BitVec.getLsbD_not, BitVec.getLsbD_not,
    BitVec.getLsbD_and, hm, Bool.and_true]

/-- The part of a mask after another part is the one with one less to the whole. -/
theorem left_succ {c : BitVec w} (hc : c &&& m.bits = c) (hne : c ≠ m.bits) :
    m.left ((c - m.bits) &&& m.bits) + 1 = m.left c := by
  have hpos : 0 < (m.bits - c).toNat := by
    refine Word.toNat_pos fun hzero => hne ?_
    rw [← BitVec.sub_add_cancel m.bits c, hzero]
    exact (BitVec.zero_add c).symm
  rw [m.left_of_part hc, left_of_next, Word.toNat_sub_one hpos]
  -- all bits of the distance are marked, so that gathering them loses none
  refine Word.gather_pred (m.bits - c).isLt hpos fun i hi => ?_
  rw [← BitVec.getLsbD, sub_eq_and_not hc, BitVec.getLsbD_and, Bool.and_eq_true] at hi
  exact hi.1

/-- Advancing takes one off what is left, or starts again when nothing is left. -/
theorem left_advance (x : BitVec w) :
    (m.advance x).2 = m.proto (((x &&& m.bits) - m.bits) &&& m.bits) ∧
      if (m.advance x).1 then m.left (((x &&& m.bits) - m.bits) &&& m.bits) + 1 = m.left x
      else m.left x = 0 ∧ ((x &&& m.bits) - m.bits) &&& m.bits = 0 := by
  refine ⟨rfl, ?_⟩
  set c := x &&& m.bits with hc
  have hcm : c &&& m.bits = c := by rw [hc, BitVec.and_assoc, BitVec.and_self]
  have hleft : m.left x = m.left c := m.left_eq_iff.2 (hc ▸ hcm.symm)
  show if (c != m.bits) = true then _ else _
  rw [hleft]
  split
  · rename_i hne
    exact m.left_succ hcm (bne_iff_ne.1 hne)
  · rename_i heq
    have heq : c = m.bits := by simpa using heq
    refine ⟨heq ▸ m.left_bits, ?_⟩
    rw [heq, BitVec.sub_self]
    exact BitVec.zero_and

end Mark

/-! ## Marks that carry their width -/

namespace Marking

variable (m : Marking)

/-- How many values of the enumeration come after the one that a number is a member of. -/
def left (n : Nat) : Nat := m.val.left (BitVec.ofNat m.width n)

/-- The value of the enumeration that a number is a member of. -/
def valueOf (n : Nat) : Value := ⟨m.width, m.val.proto (BitVec.ofNat m.width n)⟩

theorem left_le (n : Nat) : m.left n ≤ m.left 0 := m.val.left_le _

theorem has_valueOf (hw : m.width ≤ Word.maxWidth) {x : Sized BitVec} (hx : x.width = m.width)
    (n : Nat) : (m.valueOf n).Has x ↔ m.left x.val.toNat = m.left n := by
  obtain ⟨w, x⟩ := x
  obtain rfl : w = m.width := hx
  have hval : BitVec.ofNat m.width x.toNat = x := by
    rw [BitVec.ofNat_toNat, BitVec.setWidth_eq]
  rw [left, left, hval, Mark.left_eq_iff, ← Mark.mem_proto]
  constructor
  · rintro ⟨-, y, hy, hxy⟩
    obtain rfl : x = y := by
      injection hxy
    exact hy
  · exact fun h => ⟨hw, x, h, rfl⟩

theorem left_of_not_marked {m : Marking} (h : m.isMarked = false) (n : Nat) : m.left n = 0 :=
  m.val.left_of_unmarked (by simpa [isMarked, Mark.isMarked] using h) _

/-- Advancing takes one off what is left, or starts again when nothing is left. -/
theorem advance_valueOf (n : Nat) :
    ∃ n', (m.advance (m.valueOf n)).2 = m.valueOf n' ∧
      if (m.advance (m.valueOf n)).1 then m.left n' + 1 = m.left n
      else m.left n = 0 ∧ m.left n' = m.left 0 := by
  rw [advance]
  split
  · rename_i hmarked
    set x := (m.valueOf n).val.bits.umin.setWidth m.width with hx
    have hx' : x &&& m.val.bits = BitVec.ofNat m.width n &&& m.val.bits := by
      have humin := m.val.umin_proto (BitVec.ofNat m.width n)
      rwa [← BitVec.setWidth_eq (m.val.proto (BitVec.ofNat m.width n)).bits.umin] at humin
    obtain ⟨hvalue, hleft⟩ := m.val.left_advance x
    rw [m.val.left_eq_iff.2 hx'] at hleft
    set next := ((x &&& m.val.bits) - m.val.bits) &&& m.val.bits
    have hnext : BitVec.ofNat m.width next.toNat = next := by
      rw [BitVec.ofNat_toNat, BitVec.setWidth_eq]
    refine ⟨next.toNat, ?_, ?_⟩
    · rw [valueOf, hnext, ← hvalue]
    · rw [left, left, left, hnext]
      show if (m.val.advance x).1 then _ else _
      split at hleft
      · rename_i hadvanced
        rwa [if_pos hadvanced]
      · rename_i hadvanced
        rw [if_neg hadvanced]
        exact ⟨hleft.1, congrArg m.val.left hleft.2⟩
  · rename_i hmarked
    have hall := left_of_not_marked (Bool.not_eq_true _ ▸ hmarked)
    exact ⟨n, rfl, hall _, (hall _).trans (hall _).symm⟩

end Marking

end RefineCheck
