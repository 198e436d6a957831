/-
  RefineCheck.Proofs.Reduced.Stable

  The reduced product is one: a value that a constructor or an operator returns is the reduction of
  its own components. Its bounds are therefore members, and the member can be told exactly when
  there is just one.
-/

import RefineCheck.Mark
import RefineCheck.Proofs.Concrete
import RefineCheck.Proofs.Domain
import RefineCheck.Proofs.Property.Atomic
import RefineCheck.Proofs.Result

namespace RefineCheck

variable {w : Nat}

/-! ## Three-valued words between their bounds -/

namespace Ternary

/-- A word that admits both bounds admits every possible bit, since the bounds show them all. -/
theorem flags_and {a b : Ternary w} (hmin : a.umin ∈ b) (hmax : a.umax ∈ b) :
    a.zeros &&& b.zeros = a.zeros ∧ a.ones &&& b.ones = a.ones := by
  constructor
  · apply BitVec.eq_of_getLsbD_eq
    intro k hk
    rw [BitVec.getLsbD_and]
    cases ha : a.zeros.getLsbD k
    · rfl
    · -- the least member clears each bit that may be zero
      apply zeros_of_mem hmin hk
      simp [umin, ha]
  · apply BitVec.eq_of_getLsbD_eq
    intro k hk
    rw [BitVec.getLsbD_and]
    cases ha : a.ones.getLsbD k
    · rfl
    · -- and the greatest sets each bit that may be one
      exact ones_of_mem hmax hk ha

theorem meet?_eq_self {a b : Ternary w} (hmin : a.umin ∈ b) (hmax : a.umax ∈ b) :
    a.meet? b = some a := by
  obtain ⟨hzeros, hones⟩ := flags_and hmin hmax
  rw [meet?, hzeros, hones, ofFlags?, dif_pos a.total]

/-- Three-valued words are given by their members. -/
theorem ext_mem {a b : Ternary w} (h : ∀ x, x ∈ a ↔ x ∈ b) : a = b := by
  obtain ⟨hzeros, hones⟩ := flags_and ((h _).1 a.umin_mem) ((h _).1 a.umax_mem)
  obtain ⟨hzeros', hones'⟩ := flags_and ((h _).2 b.umin_mem) ((h _).2 b.umax_mem)
  obtain ⟨zeros, ones, _⟩ := a
  obtain ⟨zeros', ones', _⟩ := b
  obtain rfl : zeros = zeros' := hzeros.symm.trans ((BitVec.and_comm _ _).trans hzeros')
  obtain rfl : ones = ones' := hones.symm.trans ((BitVec.and_comm _ _).trans hones')
  rfl

end Ternary

/-! ## Split ranges by sign -/

namespace SplitRange

/-- The bounds of a split range are ends of its intervals. -/
theorem bounds_are_ends (d : SplitRange w) :
    (∃ r ∈ d.ranges, d.umin = r.lo) ∧ (∃ r ∈ d.ranges, d.umax = r.hi) ∧
      (∃ r ∈ d.ranges, d.smin = r.lo) ∧ ∃ r ∈ d.ranges, d.smax = r.hi := by
  have hpop := d.populated
  simp only [umin, umax, smin, smax, ranges]
  cases hn : d.near with
  | some i => cases d.far <;> simp [Half.toRange]
  | none =>
    cases hf : d.far with
    | some j => simp [Half.toRange]
    | none => simp [hn, hf] at hpop

end SplitRange

namespace Reduced

theorem ofTernary_bits (t : Ternary w) : (ofTernary t).bits = t :=
  Ternary.ext_mem fun x => ⟨bits_ofTernary, fun hx => (((ofTernary_spec t).2 x).2 hx).1⟩

/-! ## Values that a reduction leaves as they are -/

/-- The bits do not go beyond the hull of the intervals. -/
def Framed (a : Reduced w) : Prop :=
  ∀ x ∈ a.bits, x ∈ Ternary.ofRange a.ranges.umin a.ranges.umax

/-- What it means for a value to be reduced: it has members, its intervals end in members, and a
    reduction of its components gives it back. -/
structure Stable (a : Reduced w) : Prop where
  exists_mem : ∃ x, x ∈ a
  ends_mem : ∀ r ∈ a.ranges.ranges, r.lo ∈ a ∧ r.hi ∈ a
  reduce?_self : reduce? a.bits a.ranges = some a

theorem Tight.ends_mem {a : Reduced w} (h : a.Tight) {r : Range w} (hr : r ∈ a.ranges.ranges) :
    r.lo ∈ a ∧ r.hi ∈ a :=
  ⟨⟨(h r hr).1, SplitRange.mem_iff.2 ⟨r, hr, BitVec.le_refl _, r.ordered⟩⟩,
    ⟨(h r hr).2, SplitRange.mem_iff.2 ⟨r, hr, r.ordered, BitVec.le_refl _⟩⟩⟩

/-- A tight value whose bits are framed by its intervals is reduced. -/
theorem Tight.stable {a : Reduced w} (h : a.Tight) (hframed : a.Framed) : a.Stable := by
  -- for either sign, the interval of the bits holds both ends of the interval of the value
  have hnear : tightenBoth? a.bits (SplitRange.ofTernary a.bits).near a.ranges.near =
      a.ranges.near := by
    have hends {k : Half w false} (hk : k ∈ a.ranges.near) :=
      h _ (SplitRange.near_mem_ranges.2 hk)
    exact tightenBoth?_eq_right (fun _ hk => hends hk) fun _ hk => SplitRange.exists_near
      (SplitRange.mem_ofTernary (hends hk).1) (SplitRange.mem_ofTernary (hends hk).2)
  have hfar : tightenBoth? a.bits (SplitRange.ofTernary a.bits).far a.ranges.far =
      a.ranges.far := by
    have hends {k : Half w true} (hk : k ∈ a.ranges.far) :=
      h _ (SplitRange.far_mem_ranges.2 hk)
    exact tightenBoth?_eq_right (fun _ hk => hends hk) fun _ hk => SplitRange.exists_far
      (SplitRange.mem_ofTernary (hends hk).1) (SplitRange.mem_ofTernary (hends hk).2)
  -- the intervals stay, so the bits meet the hull that they are framed by
  have hmeet := Ternary.meet?_eq_self (hframed _ a.bits.umin_mem) (hframed _ a.bits.umax_mem)
  refine ⟨h.exists_mem, fun r hr => h.ends_mem hr, ?_⟩
  rw [reduce?_eq, hnear, hfar, SplitRange.ofHalves?, dif_pos a.ranges.populated, Option.bind_some,
    hmeet]
  rfl

/-! ## What the constructors and operators return -/

theorem framed_of_reduce? {bits : Ternary w} {ranges : SplitRange w} {a : Reduced w}
    (h : reduce? bits ranges = some a) : a.Framed := by
  rw [reduce?_eq] at h
  simp only [Option.bind_eq_some_iff] at h
  obtain ⟨narrowed, -, kept, hkept, ha⟩ := h
  obtain rfl := Option.some.inj ha
  intro x hx
  exact ((Ternary.meet?_eq_some hkept x).1 hx).2

theorem framed_of_reduce {bits : Ternary w} {ranges : SplitRange w} {a : Reduced w}
    (h : reduce bits ranges = .ok a) : a.Framed := by
  rw [reduce] at h
  split at h
  · rename_i hr
    obtain rfl := Except.ok.inj h
    exact framed_of_reduce? hr
  · cases h

theorem framed_ofWord (x : BitVec w) : (ofWord x).Framed := by
  intro y hy
  -- the only word of the bits is one of the intervals
  have hx : y ∈ SplitRange.ofWord x := SplitRange.mem_ofWord.2 (Ternary.mem_ofWord.1 hy)
  exact Ternary.mem_ofRange (SplitRange.umin_le hx) (SplitRange.le_umax hx)

theorem framed_full (w : Nat) : (full w).Framed := fun x _ =>
  Ternary.mem_ofRange (SplitRange.umin_le (SplitRange.mem_full x))
    (SplitRange.le_umax (SplitRange.mem_full x))

theorem framed_of_truth {bits : Ternary 1} {ranges : SplitRange 1} {a : Reduced 1}
    (h : truth bits ranges = .ok a) : a.Framed := by
  simp only [truth] at h
  split at h
  · rename_i hpop
    obtain rfl := Except.ok.inj h
    intro x hx
    obtain ⟨b, rfl⟩ := exists_ofBool x
    obtain ⟨ht, hf⟩ := (Ternary.mem_truth hpop b).1 hx
    have hmem := SplitRange.mem_truth (h := hpop) ht hf
    exact Ternary.mem_ofRange (SplitRange.umin_le hmem) (SplitRange.le_umax hmem)
  · cases h

theorem Built.framed {a : Reduced w} (h : a.Built) : a.Framed := by
  -- all constructors but those of words and truth values end in a reduction
  cases h with
  | ofWord x => exact framed_ofWord x
  | full w => exact framed_full w
  | ofTernary bits => exact framed_of_reduce? (reduce?_ofTernary bits)
  | ofSplitRange ranges => exact framed_of_reduce? (reduce?_ofSplitRange ranges)
  | unary op _ hr => exact framed_of_reduce hr
  | binary op _ _ hr => exact framed_of_reduce hr
  | compare op _ _ hr => exact framed_of_truth hr
  | panic op _ _ hr =>
    rw [Reduced.divide] at hr
    split at hr
    · cases hr
    · rename_i hp
      simp only [bind_eq_ok, pure_eq_ok] at hr
      obtain ⟨r, -, rfl⟩ := hr
      exact framed_of_reduce? hp
  | result op _ _ hr =>
    rw [Reduced.divide] at hr
    split at hr
    · cases hr
    · simp only [bind_eq_ok, pure_eq_ok] at hr
      obtain ⟨r, hr, rfl⟩ := hr
      exact framed_of_reduce hr
  | extend op _ hr => exact framed_of_reduce hr
  | join _ _ hr => exact framed_of_reduce hr
  | meet _ _ hr =>
    simp only [Reduced.meet?, Option.bind_eq_bind, Option.bind_eq_some_iff] at hr
    obtain ⟨bits, -, ranges, -, hc⟩ := hr
    exact framed_of_reduce? hc

theorem Built.stable {a : Reduced w} (h : a.Built) : a.Stable := h.tight.stable h.framed

/-! ## Bounds -/

/-- The bounds of a tight value are those of its intervals. -/
theorem Tight.bounds_eq {a : Reduced w} (h : a.Tight) :
    a.umin = a.ranges.umin ∧ a.umax = a.ranges.umax ∧ a.smin = a.ranges.smin ∧
      a.smax = a.ranges.smax := by
  obtain ⟨⟨r₁, hr₁, h₁⟩, ⟨r₂, hr₂, h₂⟩, ⟨r₃, hr₃, h₃⟩, ⟨r₄, hr₄, h₄⟩⟩ := a.ranges.bounds_are_ends
  -- the bits admit each of these ends, so their own bounds are no closer
  refine ⟨?_, ?_, ?_, ?_⟩
  · rw [umin, if_pos (h₁ ▸ Ternary.umin_le (h r₁ hr₁).1)]
  · rw [umax]
    split
    · rename_i hle
      exact BitVec.le_antisymm hle (h₂ ▸ Ternary.le_umax (h r₂ hr₂).2)
    · rfl
  · rw [smin, if_pos (h₃ ▸ Ternary.smin_sle (h r₃ hr₃).1)]
  · rw [smax]
    split
    · rename_i hle
      have hge : a.ranges.smax.sle a.bits.smax = true := h₄ ▸ Ternary.sle_smax (h r₄ hr₄).2
      rw [BitVec.sle_iff_toInt_le] at hle hge
      exact BitVec.eq_of_toInt_eq (le_antisymm hle hge)
    · rfl

/-- The bounds are attained by members and bound all of them. -/
structure Bounded (a : Reduced w) : Prop where
  umin_mem : a.umin ∈ a
  umax_mem : a.umax ∈ a
  smin_mem : a.smin ∈ a
  smax_mem : a.smax ∈ a
  unsigned : ∀ x ∈ a, a.umin ≤ x ∧ x ≤ a.umax
  signed : ∀ x ∈ a, a.smin.sle x = true ∧ x.sle a.smax = true

theorem Tight.bounded {a : Reduced w} (h : a.Tight) : a.Bounded := by
  obtain ⟨⟨r₁, hr₁, h₁⟩, ⟨r₂, hr₂, h₂⟩, ⟨r₃, hr₃, h₃⟩, ⟨r₄, hr₄, h₄⟩⟩ := a.ranges.bounds_are_ends
  obtain ⟨e₁, e₂, e₃, e₄⟩ := h.bounds_eq
  refine ⟨?_, ?_, ?_, ?_, fun x hx => ⟨umin_le hx, le_umax hx⟩,
    fun x hx => ⟨smin_sle hx, sle_smax hx⟩⟩
  · rw [e₁, h₁]
    exact (h.ends_mem hr₁).1
  · rw [e₂, h₂]
    exact (h.ends_mem hr₂).2
  · rw [e₃, h₃]
    exact (h.ends_mem hr₃).1
  · rw [e₄, h₄]
    exact (h.ends_mem hr₄).2

/-! ## Single members -/

/-- Intervals that all end in one word are that word. -/
theorem word?_of_ends {d : SplitRange w} {y : BitVec w}
    (h : ∀ r ∈ d.ranges, r.lo = y ∧ r.hi = y) : d.word? = some y := by
  cases hn : d.near with
  | some i =>
    have hi := h _ (SplitRange.near_mem_ranges.2 hn)
    cases hf : d.far with
    | some j =>
      -- one word cannot have both signs
      have hj := h _ (SplitRange.far_mem_ranges.2 hf)
      have hsign : i.lo.msb = j.lo.msb := congrArg BitVec.msb (hi.1.trans hj.1.symm)
      rw [i.lo_sign, j.lo_sign] at hsign
      cases hsign
    | none => simp [SplitRange.word?, SplitRange.ranges, hn, hf, hi.1, hi.2]
  | none =>
    cases hf : d.far with
    | some j =>
      have hj := h _ (SplitRange.far_mem_ranges.2 hf)
      simp [SplitRange.word?, SplitRange.ranges, hn, hf, hj.1, hj.2]
    | none =>
      have hpop := d.populated
      simp [hn, hf] at hpop

/-- The member of a tight value is told exactly when there is just one. -/
theorem Tight.word?_isSome_iff {a : Reduced w} (h : a.Tight) :
    a.word?.isSome = true ↔ ∃! x, x ∈ a := by
  rw [Option.isSome_iff_exists]
  constructor
  · rintro ⟨y, hy⟩
    exact ⟨y, (mem_iff_of_word? hy h.exists_mem).2 rfl, fun x hx => eq_of_word? hy hx⟩
  · rintro ⟨y, hy, hunique⟩
    -- the ends of the intervals are members, hence this one
    have hranges : a.ranges.word? = some y := by
      apply word?_of_ends
      intro r hr
      exact ⟨hunique _ (h.ends_mem hr).1, hunique _ (h.ends_mem hr).2⟩
    rw [word?, hranges]
    cases a.bits.word? with
    | none => exact ⟨y, rfl⟩
    | some z => exact ⟨z, rfl⟩

/-! ## Decay and enumeration -/

theorem Built.decay {m : Mark w} {a : Reduced w} (h : a.Built) : (m.decay a).Built := by
  rw [Mark.decay]
  split
  · exact h
  · exact .ofTernary _

theorem Built.advance {m : Marking} {a : Value} (h : a.val.Built) : (m.advance a).2.val.Built := by
  rw [Marking.advance]
  by_cases hm : m.isMarked = true
  · rw [if_pos hm]
    exact .ofTernary _
  · rw [if_neg hm]
    exact h

/-- The reduced product is one. Reduction succeeds if and only if the components have a common
    member, and keeps just the common members. All values that are built, also by decay and by
    enumeration, are reduced; so their bounds are attained, and their member is told if and only if
    there is a single one. -/
theorem reduced_product :
    (∀ {w : Nat} (bits : Ternary w) (ranges : SplitRange w),
      ((reduce? bits ranges).isSome = true ↔ ∃ x, x ∈ bits ∧ x ∈ ranges) ∧
        ∀ a, reduce? bits ranges = some a → ∀ x, x ∈ a ↔ x ∈ bits ∧ x ∈ ranges) ∧
      (∀ {w : Nat} {a : Reduced w}, a.Built → a.Stable ∧ a.Bounded ∧
        (a.word?.isSome = true ↔ ∃! x, x ∈ a) ∧ ∀ y, a.word? = some y → y ∈ a) ∧
      (∀ {w : Nat} (m : Mark w) {a : Reduced w}, a.Built → (m.decay a).Built) ∧
      (∀ m : Marking, m.first.val.Built) ∧
      ∀ (m : Marking) {a : Value}, a.val.Built → (m.advance a).2.val.Built := by
  refine ⟨fun bits ranges => ⟨?_, fun a ha => (reduce?_eq_some ha).2⟩, fun {w a} ha => ?_,
    fun m a ha => ha.decay, fun m => .ofTernary _, fun m a ha => ha.advance⟩
  · rw [Option.isSome_iff_exists]
    constructor
    · rintro ⟨a, ha⟩
      obtain ⟨htight, hmem⟩ := reduce?_eq_some ha
      obtain ⟨x, hx⟩ := htight.exists_mem
      exact ⟨x, (hmem x).1 hx⟩
    · rintro ⟨x, hb, hr⟩
      exact reduce?_isSome hb hr
  · exact ⟨ha.stable, ha.tight.bounded, ha.tight.word?_isSome_iff,
      fun y hy => (mem_iff_of_word? hy ha.tight.exists_mem).2 rfl⟩

end Reduced

end RefineCheck
