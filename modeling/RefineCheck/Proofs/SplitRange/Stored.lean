/-
  RefineCheck.Proofs.SplitRange.Stored

  Split ranges as records of two bare intervals. Such a record has no room for a missing interval,
  so it repeats the one that is there, and the signs of the ends tell which ones are meant. The
  records that split ranges are stored as are exactly the well-formed ones: both intervals are in
  order, and either each lies among the words of its sign, or both are one interval of a single sign.
-/

import RefineCheck.Proofs.SplitRange.Soundness

namespace RefineCheck

variable {w : Nat} {sign : Bool}

namespace SplitRange

/-- The ends of an interval, which may be in any order and of any sign. -/
structure Ends (w : Nat) where
  lo : BitVec w
  hi : BitVec w

/-- Two intervals, the non-negative words in the near one and the negative words in the far one. -/
structure Stored (w : Nat) where
  near : Ends w
  far : Ends w

/-- All words from the lower to the upper end have the sign. -/
def Ends.InSign (i : Ends w) (sign : Bool) : Prop := ∀ x, i.lo ≤ x → x ≤ i.hi → x.msb = sign

/-- The pairs that the constructors build: one interval in each sign, or one twice. -/
structure Stored.WellFormed (s : Stored w) : Prop where
  near_ordered : s.near.lo ≤ s.near.hi
  far_ordered : s.far.lo ≤ s.far.hi
  signs : s.near.InSign false ∧ s.far.InSign true ∨ s.near = s.far ∧ ∃ sign, s.near.InSign sign

end SplitRange

open SplitRange

/-- The ends without the sign. -/
def Half.ends (i : Half w sign) : Ends w := ⟨i.lo, i.hi⟩

theorem Half.ends_injective : Function.Injective (Half.ends : Half w sign → Ends w) := by
  rintro ⟨lo, hi, _, _, _⟩ ⟨lo', hi', _, _, _⟩ h
  obtain ⟨rfl, rfl⟩ := Ends.mk.inj h
  rfl

theorem Half.inSign (i : Half w sign) : i.ends.InSign sign := fun _ hlo hhi => i.msb_of_mem ⟨hlo, hhi⟩

namespace SplitRange

/-- Ends in order that lie among the words of a sign are those of an interval of the sign. -/
theorem Ends.exists_half {i : Ends w} (h : i.lo ≤ i.hi) (hs : i.InSign sign) :
    ∃ j : Half w sign, j.ends = i :=
  ⟨⟨i.lo, i.hi, h, hs _ (BitVec.le_refl _) h, hs _ h (BitVec.le_refl _)⟩, rfl⟩

/-! ## Storing -/

/-- The record of a split range: an interval that is missing repeats the other one. -/
def stored : SplitRange w → Stored w
  | ⟨some i, some j, _⟩ => ⟨i.ends, j.ends⟩
  | ⟨some i, none, _⟩ => ⟨i.ends, i.ends⟩
  | ⟨none, some j, _⟩ => ⟨j.ends, j.ends⟩
  | ⟨none, none, h⟩ => absurd h (by simp)

/-- The near interval is there if it starts with a non-negative word. -/
def Stored.near? (s : Stored w) : Option (Ends w) := if s.near.lo.msb then none else some s.near

/-- The far interval is there if it ends with a negative word. -/
def Stored.far? (s : Stored w) : Option (Ends w) := if s.far.hi.msb then some s.far else none

theorem stored_wellFormed (d : SplitRange w) : d.stored.WellFormed := by
  match d with
  | ⟨some i, some j, _⟩ => exact ⟨i.ordered, j.ordered, .inl ⟨i.inSign, j.inSign⟩⟩
  | ⟨some i, none, _⟩ => exact ⟨i.ordered, i.ordered, .inr ⟨rfl, false, i.inSign⟩⟩
  | ⟨none, some j, _⟩ => exact ⟨j.ordered, j.ordered, .inr ⟨rfl, true, j.inSign⟩⟩
  | ⟨none, none, h⟩ => simp at h

/-- The intervals can be read back from the record. -/
theorem stored_near? (d : SplitRange w) : d.stored.near? = d.near.map Half.ends := by
  match d with
  | ⟨some i, some _, _⟩ | ⟨some i, none, _⟩ => simp [stored, Stored.near?, Half.ends, i.lo_sign]
  | ⟨none, some j, _⟩ => simp [stored, Stored.near?, Half.ends, j.lo_sign]
  | ⟨none, none, h⟩ => simp at h

theorem stored_far? (d : SplitRange w) : d.stored.far? = d.far.map Half.ends := by
  match d with
  | ⟨some _, some j, _⟩ | ⟨none, some j, _⟩ => simp [stored, Stored.far?, Half.ends, j.hi_sign]
  | ⟨some i, none, _⟩ => simp [stored, Stored.far?, Half.ends, i.hi_sign]
  | ⟨none, none, h⟩ => simp at h

theorem stored_injective : Function.Injective (stored : SplitRange w → Stored w) := by
  intro d e h
  have hnear : d.near = e.near := by
    apply Option.map_injective Half.ends_injective
    rw [← stored_near?, ← stored_near?, h]
  have hfar : d.far = e.far := by
    apply Option.map_injective Half.ends_injective
    rw [← stored_far?, ← stored_far?, h]
  obtain ⟨near, far, _⟩ := d
  obtain ⟨near', far', _⟩ := e
  obtain rfl : near = near' := hnear
  obtain rfl : far = far' := hfar
  rfl

/-- Every well-formed record is that of a split range. -/
theorem Stored.WellFormed.exists_stored {s : Stored w} (h : s.WellFormed) :
    ∃ d : SplitRange w, d.stored = s := by
  obtain ⟨near, far⟩ := s
  rcases h.signs with ⟨hnear, hfar⟩ | ⟨heq, sign, hsign⟩
  · obtain ⟨i, rfl⟩ := Ends.exists_half h.near_ordered hnear
    obtain ⟨j, rfl⟩ := Ends.exists_half h.far_ordered hfar
    exact ⟨⟨some i, some j, .inl rfl⟩, rfl⟩
  · obtain rfl : near = far := heq
    obtain ⟨i, rfl⟩ := Ends.exists_half h.near_ordered hsign
    cases sign with
    | false => exact ⟨⟨some i, none, .inl rfl⟩, rfl⟩
    | true => exact ⟨⟨none, some i, .inr rfl⟩, rfl⟩

end SplitRange

end RefineCheck
