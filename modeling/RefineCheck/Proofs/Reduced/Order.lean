/-
  RefineCheck.Proofs.Reduced.Order

  The reduced product as a lattice. A reduction changes nothing of the join of two values that are
  reduced, so the join is the least upper bound, as it is in the components. Containment implies
  inclusion of members; it is decided by it only where the bits are as narrow as the members allow.
-/

import RefineCheck.Proofs.SplitRange.Order

namespace RefineCheck

variable {w : Nat}

/-- The words between the bounds of one interval are its members. -/
theorem SplitRange.mem_of_one_sign {d : SplitRange w} (h : d.near = none ∨ d.far = none)
    {x : BitVec w} (hlo : d.umin ≤ x) (hhi : x ≤ d.umax) : x ∈ d := by
  have hpop := d.populated
  rw [umin] at hlo
  rw [umax] at hhi
  cases hn : d.near with
  | some i =>
    cases hf : d.far with
    | some j => simp [hn, hf] at h
    | none =>
      simp only [hn, hf] at hlo hhi
      exact .inl ⟨i, hn, hlo, hhi⟩
  | none =>
    cases hf : d.far with
    | some j =>
      simp only [hn, hf] at hlo hhi
      exact .inr ⟨j, hf, hlo, hhi⟩
    | none => simp [hn, hf] at hpop

namespace Reduced

/-! ## Containment -/

theorem contains_iff {a b : Reduced w} : a.contains b = true ↔
    a.bits.contains b.bits = true ∧ a.ranges.contains b.ranges = true := by
  rw [contains, Bool.and_eq_true]

theorem mem_of_contains {a b : Reduced w} (h : a.contains b = true) {x : BitVec w}
    (hx : x ∈ b) : x ∈ a := by
  obtain ⟨hbits, hranges⟩ := contains_iff.1 h
  exact ⟨Ternary.mem_of_contains hbits hx.1, SplitRange.mem_of_contains hranges hx.2⟩

theorem contains_refl (a : Reduced w) : a.contains a = true :=
  contains_iff.2 ⟨Ternary.contains_refl a.bits, SplitRange.contains_refl a.ranges⟩

theorem contains_trans {a b c : Reduced w} (hab : a.contains b = true)
    (hbc : b.contains c = true) : a.contains c = true := by
  rw [contains_iff] at *
  exact ⟨Ternary.contains_trans hab.1 hbc.1, SplitRange.contains_trans hab.2 hbc.2⟩

theorem contains_antisymm {a b : Reduced w} (hab : a.contains b = true)
    (hba : b.contains a = true) : a = b := by
  rw [contains_iff] at hab hba
  obtain ⟨bits, ranges⟩ := a
  obtain ⟨bits', ranges'⟩ := b
  obtain rfl : bits = bits' := Ternary.contains_antisymm hab.1 hba.1
  obtain rfl : ranges = ranges' := SplitRange.contains_antisymm hab.2 hba.2
  rfl

/-! ## Joins -/

/-- The ends of a join are ends of its parts, which the bits of these admit. -/
theorem Tight.join {a b : Reduced w} (ha : a.Tight) (hb : b.Tight) :
    (mk (a.bits.join b.bits) (a.ranges.join b.ranges)).Tight := by
  intro r hr
  obtain ⟨⟨s, hs, hlo⟩, ⟨s', hs', hhi⟩⟩ := SplitRange.ends_join hr
  rw [hlo, hhi]
  constructor
  · rcases hs with hs | hs
    · exact Ternary.mem_join_left b.bits (ha s hs).1
    · exact Ternary.mem_join_right a.bits (hb s hs).1
  · rcases hs' with hs | hs
    · exact Ternary.mem_join_left b.bits (ha s' hs).2
    · exact Ternary.mem_join_right a.bits (hb s' hs).2

/-- The hull of a join holds the hulls of its parts, and with them their bits. -/
theorem Framed.join {a b : Reduced w} (ha : a.Framed) (hb : b.Framed) :
    (mk (a.bits.join b.bits) (a.ranges.join b.ranges)).Framed := by
  have hull {d : SplitRange w} (h : (a.ranges.join b.ranges).contains d = true) :
      (Ternary.ofRange (a.ranges.join b.ranges).umin (a.ranges.join b.ranges).umax).contains
        (Ternary.ofRange d.umin d.umax) = true :=
    Ternary.ofRange_mono (SplitRange.umin_le (SplitRange.mem_of_contains h d.umin_mem))
      d.umin_le_umax (SplitRange.le_umax (SplitRange.mem_of_contains h d.umax_mem))
  have hbits : (Ternary.ofRange (a.ranges.join b.ranges).umin
      (a.ranges.join b.ranges).umax).contains (a.bits.join b.bits) = true := by
    apply Ternary.contains_join
    · exact Ternary.contains_trans (hull (SplitRange.join_contains_left a.ranges b.ranges))
        (Ternary.contains_iff.2 ha)
    · exact Ternary.contains_trans (hull (SplitRange.join_contains_right a.ranges b.ranges))
        (Ternary.contains_iff.2 hb)
  exact Ternary.contains_iff.1 hbits

/-- Reduction changes nothing of a join. -/
theorem Built.join_eq {a b : Reduced w} (ha : a.Built) (hb : b.Built) :
    a.join b = .ok ⟨a.bits.join b.bits, a.ranges.join b.ranges⟩ := by
  have hstable := (ha.tight.join hb.tight).stable (ha.framed.join hb.framed)
  rw [Reduced.join, reduce, hstable.reduce?_self]

theorem join_contains_left (a b : Reduced w) :
    (mk (a.bits.join b.bits) (a.ranges.join b.ranges)).contains a = true :=
  contains_iff.2 ⟨Ternary.join_contains_left _ _, SplitRange.join_contains_left _ _⟩

theorem join_contains_right (a b : Reduced w) :
    (mk (a.bits.join b.bits) (a.ranges.join b.ranges)).contains b = true :=
  contains_iff.2 ⟨Ternary.join_contains_right _ _, SplitRange.join_contains_right _ _⟩

theorem contains_join {a b c : Reduced w} (ha : c.contains a = true) (hb : c.contains b = true) :
    c.contains (mk (a.bits.join b.bits) (a.ranges.join b.ranges)) = true := by
  rw [contains_iff] at *
  exact ⟨Ternary.contains_join ha.1 hb.1, SplitRange.contains_join ha.2 hb.2⟩

/-! ## Meets -/

theorem meet?_eq_none {a b : Reduced w} : a.meet? b = none ↔ ∀ x, ¬ (x ∈ a ∧ x ∈ b) := by
  constructor
  · rintro h x ⟨ha, hb⟩
    obtain ⟨bits, hbits⟩ := Ternary.meet?_isSome ha.1 hb.1
    obtain ⟨ranges, hranges⟩ := Option.isSome_iff_exists.1 (SplitRange.meet?_isSome ha.2 hb.2)
    obtain ⟨c, hc⟩ := reduce?_isSome ((Ternary.meet?_eq_some hbits x).2 ⟨ha.1, hb.1⟩)
      ((SplitRange.meet?_eq_some hranges x).2 ⟨ha.2, hb.2⟩)
    simp [meet?, hbits, hranges, hc] at h
  · intro h
    cases hc : a.meet? b with
    | none => rfl
    | some c =>
      obtain ⟨htight, hmem⟩ := meet?_eq_some hc
      obtain ⟨x, hx⟩ := htight.exists_mem
      exact absurd ((hmem x).1 hx) (h x)

/-! ## Containment and inclusion -/

/-- Every bit that the three-valued word admits is a bit of some member. -/
def Exact (a : Reduced w) : Prop :=
  ∀ k < w, ∀ y ∈ a.bits, ∃ x ∈ a, x.getLsbD k = y.getLsbD k

/-- The bits are exact where all members have one sign: they lie within the hull of the only
    interval, whose ends are members. -/
theorem Built.exact {a : Reduced w} (ha : a.Built)
    (h : a.ranges.near = none ∨ a.ranges.far = none) : a.Exact := by
  obtain ⟨⟨r, hr, hlo⟩, ⟨s, hs, hhi⟩, -, -⟩ := a.ranges.bounds_are_ends
  have hmin : a.ranges.umin ∈ a.bits := hlo ▸ (ha.tight r hr).1
  have hmax : a.ranges.umax ∈ a.bits := hhi ▸ (ha.tight s hs).2
  intro k hk y hy
  obtain ⟨x, hx, hle, hle', hbit⟩ :=
    Ternary.exists_mem_between hmin hmax a.ranges.umin_le_umax ha.framed hy hk
  exact ⟨x, ⟨hx, SplitRange.mem_of_one_sign h hle hle'⟩, hbit⟩

theorem Exact.contains {a b : Reduced w} (hexact : b.Exact) (htight : b.Tight)
    (h : ∀ x ∈ b, x ∈ a) : a.contains b = true := by
  rw [contains_iff]
  constructor
  · rw [Ternary.contains_iff]
    intro y hy
    -- each bit of the word is a bit of a member, which the other bits admit
    rw [Ternary.mem_iff]
    intro k hk
    obtain ⟨x, hx, hbit⟩ := hexact k hk y hy
    rw [← hbit]
    exact (Ternary.mem_iff a.bits x).1 (h x hx).1 k hk
  · rw [SplitRange.contains_iff_ends]
    intro r hr
    exact ⟨(h _ (htight.ends_mem hr).1).2, (h _ (htight.ends_mem hr).2).2⟩

/-- If inclusion in any value implies containment, then the bits are exact: a bit that no member
    shows could be fixed the other way. -/
theorem exact_of_contains {b : Reduced w}
    (h : ∀ a : Reduced w, a.Built → (∀ x ∈ b, x ∈ a) → a.contains b = true) : b.Exact := by
  intro k hk y hy
  by_contra hnone
  have hother : ∀ x ∈ b, x.getLsbD k = !y.getLsbD k := by
    intro x hx
    cases hxk : x.getLsbD k <;> cases hyk : y.getLsbD k
    · exact absurd ⟨x, hx, hxk.trans hyk.symm⟩ hnone
    · rfl
    · rfl
    · exact absurd ⟨x, hx, hxk.trans hyk.symm⟩ hnone
  -- the words whose bit is the other one
  have hmem {x : BitVec w} : x ∈ Ternary.ofKnown (~~~y) (BitVec.twoPow w k) ↔
      x.getLsbD k = !y.getLsbD k := by
    rw [Ternary.mem_ofKnown]
    constructor
    · intro hx
      have := hx k hk (by simp [hk])
      simpa [hk] using this
    · intro hx j hj hjk
      obtain rfl : j = k := by simpa [hj] using hjk
      simpa [hk] using hx
  obtain ⟨-, hspec⟩ := ofTernary_spec (Ternary.ofKnown (~~~y) (BitVec.twoPow w k))
  have hcontains := h _ (.ofTernary _) fun x hx => (hspec x).2 (hmem.2 (hother x hx))
  have hyk := hmem.1 (bits_ofTernary (Ternary.mem_of_contains (contains_iff.1 hcontains).1 hy))
  cases hb : y.getLsbD k <;> simp [hb] at hyk

end Reduced

end RefineCheck
