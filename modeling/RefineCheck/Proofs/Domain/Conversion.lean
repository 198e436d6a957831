/-
  RefineCheck.Proofs.Domain.Conversion

  The conversions between three-valued words and split ranges lose no more than they must: each
  returns the least value of the other domain that holds the members. The bits of an interval above
  the highest one where its ends differ are known, and below it both values occur.
-/

import RefineCheck.Proofs.SplitRange.Best

namespace RefineCheck

variable {w : Nat}

namespace Ternary

/-- Between two ends, each bit that the word spanning them leaves open has both values. -/
theorem attained_ofRange {lo hi : BitVec w} (h : lo ≤ hi) :
    (ofRange lo hi).Attained {x | lo ≤ x ∧ x ≤ hi} := by
  intro k hk c hc
  obtain ⟨y, hy, rfl⟩ := exists_mem_of_flag hc
  have hlo : lo ∈ ofRange lo hi := mem_ofRange (BitVec.le_refl lo) h
  have hhi : hi ∈ ofRange lo hi := mem_ofRange h (BitVec.le_refl hi)
  obtain ⟨x, -, hlox, hxhi, hbit⟩ := exists_mem_between hlo hhi h (fun _ hx => hx) hy hk
  exact ⟨x, ⟨hlox, hxhi⟩, hbit⟩

theorem ofRange_best {lo hi : BitVec w} (h : lo ≤ hi) :
    Domain.Best (ofRange lo hi) {x | lo ≤ x ∧ x ≤ hi} :=
  ((attained_ofRange h).bitwise fun _ hx => mem_ofRange hx.1 hx.2).best

end Ternary

namespace SplitRange

theorem toTernary_best (d : SplitRange w) : Domain.Best d.toTernary {x | x ∈ d} := by
  have hbits : d.toTernary.Attained {x | x ∈ d} := by
    refine Ternary.attained_joinAll _ fun a ha => ?_
    obtain ⟨r, hr, rfl⟩ := List.mem_map.1 ha
    exact (Ternary.attained_ofRange r.ordered).mono fun x hx => mem_of_mem_ranges hr hx.1 hx.2
  exact (hbits.bitwise fun _ => mem_toTernary).best

/-- The intervals of a three-valued word end in members of it. -/
theorem ofTernary_best (a : Ternary w) : Domain.Best (ofTernary a) {x | x ∈ a} where
  holds _ := mem_ofTernary
  least _ h := contains_iff_ends.2 fun _ hr =>
    have hends := ends_ofTernary hr
    ⟨h _ hends.1, h _ hends.2⟩

end SplitRange

/-- The three-valued word of a split range, the split range of a three-valued word and the
    three-valued word of an interval are the least ones that hold the words they are made from. -/
theorem conversions_best :
    (∀ {w : Nat} (d : SplitRange w), Domain.Best d.toTernary {x | x ∈ d}) ∧
    (∀ {w : Nat} (a : Ternary w), Domain.Best (SplitRange.ofTernary a) {x | x ∈ a}) ∧
    ∀ {w : Nat} {lo hi : BitVec w}, lo ≤ hi →
      Domain.Best (Ternary.ofRange lo hi) {x | lo ≤ x ∧ x ≤ hi} :=
  ⟨SplitRange.toTernary_best, SplitRange.ofTernary_best, Ternary.ofRange_best⟩

/-- From five to nine the highest bit in which the ends differ is the sign bit, so no bit is
    known. -/
theorem conversions_best_five_to_nine :
    (5 : BitVec 4) ≤ 9 ∧ Domain.Best (Ternary.ofRange (5 : BitVec 4) 9) {x | 5 ≤ x ∧ x ≤ 9} ∧
      Ternary.ofRange (5 : BitVec 4) 9 = Ternary.full 4 :=
  ⟨by decide, conversions_best.2.2 (by decide), by decide⟩

end RefineCheck
