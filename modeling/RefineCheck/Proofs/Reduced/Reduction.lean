/-
  RefineCheck.Proofs.Reduced.Reduction

  Reduction is exact: it succeeds if and only if the components have a common member, and
  it keeps exactly the common members. What it returns is tight: the ends of every interval
  are members, so a reduced value is never empty.
-/

import RefineCheck.Proofs.SplitRange.Soundness
import RefineCheck.Proofs.Ternary.Neighbours
import RefineCheck.Reduced

namespace RefineCheck.Reduced

variable {w : Nat}

/-! ## One interval -/

/-- A tightened interval ends in members and loses no other one. -/
theorem tighten?_eq_some {sign : Bool} {bits : Ternary w} {i j k : Half w sign}
    (h : tighten? bits i j = some k) :
    k.lo ∈ bits ∧ k.hi ∈ bits ∧ (∀ x ∈ k, x ∈ i ∧ x ∈ j) ∧
      ∀ x ∈ bits, x ∈ i → x ∈ j → x ∈ k := by
  simp only [tighten?, Option.bind_eq_bind, Option.bind_eq_some_iff] at h
  obtain ⟨c, hc, lo, hlo, hi, hhi, hk⟩ := h
  obtain ⟨hklo, hkhi⟩ := SplitRange.of?_eq_some hk
  obtain ⟨hlomem, hlole, hleast⟩ := Ternary.isNext_of_next? hlo
  obtain ⟨hhimem, hhile, hmost⟩ := Ternary.isPrev_of_prev? hhi
  refine ⟨hklo ▸ hlomem, hkhi ▸ hhimem, fun x hx => ?_, fun x hx hi hj => ?_⟩
  · rw [← SplitRange.inter?_eq_some hc]
    have h1 := hx.1
    have h2 := hx.2
    rw [hklo] at h1
    rw [hkhi] at h2
    exact ⟨BitVec.le_trans hlole h1, BitVec.le_trans h2 hhile⟩
  · have hxc := (SplitRange.inter?_eq_some hc x).2 ⟨hi, hj⟩
    show k.lo ≤ x ∧ x ≤ k.hi
    rw [hklo, hkhi]
    exact ⟨hleast x hx hxc.1, hmost x hx hxc.2⟩

/-- An interval with a common member is not lost. -/
theorem tighten?_isSome {sign : Bool} {bits : Ternary w} {i j : Half w sign} {x : BitVec w}
    (hx : x ∈ bits) (hi : x ∈ i) (hj : x ∈ j) : ∃ k, tighten? bits i j = some k := by
  obtain ⟨c, hc⟩ := Half.inter?_isSome hi hj
  have hxc := (SplitRange.inter?_eq_some hc x).2 ⟨hi, hj⟩
  cases hlo : bits.next? c.lo with
  | none => exact absurd hxc.1 (Ternary.not_le_of_next? hlo hx)
  | some lo =>
    cases hhi : bits.prev? c.hi with
    | none => exact absurd hxc.2 (Ternary.not_le_of_prev? hhi hx)
    | some hi =>
      obtain ⟨-, hlole, hleast⟩ := Ternary.isNext_of_next? hlo
      obtain ⟨-, hhile, hmost⟩ := Ternary.isPrev_of_prev? hhi
      have h1 : lo ≤ x := hleast x hx hxc.1
      have h2 : x ≤ hi := hmost x hx hxc.2
      have hloc : lo ∈ c := ⟨hlole, BitVec.le_trans h1 hxc.2⟩
      have hhic : hi ∈ c := ⟨BitVec.le_trans hxc.1 h2, hhile⟩
      simp only [tighten?, hc, hlo, hhi, Option.bind_eq_bind, Option.bind_some]
      rw [Half.of?, dif_pos ⟨BitVec.le_trans h1 h2, c.msb_of_mem hloc, c.msb_of_mem hhic⟩]
      exact ⟨_, rfl⟩

/-! ## Both signs -/

theorem tightenBoth?_eq_some {sign : Bool} {bits : Ternary w} {i j : Option (Half w sign)}
    {k : Half w sign} (h : tightenBoth? bits i j = some k) :
    ∃ i' j', i = some i' ∧ j = some j' ∧ tighten? bits i' j' = some k := by
  simp only [tightenBoth?, Option.bind_eq_bind, Option.bind_eq_some_iff] at h
  obtain ⟨i', hi, j', hj, h⟩ := h
  exact ⟨i', j', hi, hj, h⟩

/-- The common members of the bits and of two intervals are those in the tightened one. -/
theorem mem_tightenBoth? {sign : Bool} {bits : Ternary w} {i j : Option (Half w sign)}
    {x : BitVec w} (hx : x ∈ bits) :
    (∃ k ∈ tightenBoth? bits i j, x ∈ k) ↔ (∃ k ∈ i, x ∈ k) ∧ ∃ k ∈ j, x ∈ k := by
  constructor
  · rintro ⟨k, hk, hxk⟩
    obtain ⟨i', j', rfl, rfl, h⟩ := tightenBoth?_eq_some hk
    obtain ⟨-, -, hsub, -⟩ := tighten?_eq_some h
    exact ⟨⟨i', rfl, (hsub x hxk).1⟩, ⟨j', rfl, (hsub x hxk).2⟩⟩
  · rintro ⟨⟨i', rfl, hi⟩, ⟨j', rfl, hj⟩⟩
    obtain ⟨k, hk⟩ := tighten?_isSome hx hi hj
    obtain ⟨-, -, -, hall⟩ := tighten?_eq_some hk
    exact ⟨k, hk, hall x hx hi hj⟩

theorem reduce?_eq (bits : Ternary w) (ranges : SplitRange w) :
    reduce? bits ranges =
      (SplitRange.ofHalves? (tightenBoth? bits (SplitRange.ofTernary bits).near ranges.near)
        (tightenBoth? bits (SplitRange.ofTernary bits).far ranges.far)).bind fun narrowed =>
      (bits.meet? (Ternary.ofRange narrowed.umin narrowed.umax)).bind fun kept =>
      some ⟨kept, narrowed⟩ := rfl

/-- The ends of every interval are members. -/
def Tight (a : Reduced w) : Prop := ∀ r ∈ a.ranges.ranges, r.lo ∈ a.bits ∧ r.hi ∈ a.bits

theorem Tight.exists_mem {a : Reduced w} (h : a.Tight) : ∃ x, x ∈ a := by
  obtain ⟨r, hr⟩ := List.exists_mem_of_ne_nil _ a.ranges.ranges_ne_nil
  exact ⟨r.lo, (h r hr).1, SplitRange.mem_iff.2 ⟨r, hr, BitVec.le_refl _, r.ordered⟩⟩

theorem mem_near_or_far {d : SplitRange w} {r : Range w} (h : r ∈ d.ranges) :
    (∃ i, d.near = some i ∧ r = i.toRange) ∨ ∃ i, d.far = some i ∧ r = i.toRange := by
  rw [SplitRange.ranges, List.mem_append] at h
  refine h.imp (fun h => ?_) fun h => ?_ <;>
  · simp only [Option.mem_toList, Option.map_eq_some_iff] at h
    obtain ⟨i, hi, e⟩ := h
    exact ⟨i, hi, e.symm⟩

theorem mem_split {d e : SplitRange w} {x : BitVec w} (hd : x ∈ d) (he : x ∈ e) :
    ((∃ i ∈ d.near, x ∈ i) ∧ ∃ i ∈ e.near, x ∈ i) ∨
      ((∃ i ∈ d.far, x ∈ i) ∧ ∃ i ∈ e.far, x ∈ i) := by
  rcases hd with hd | hd <;> rcases he with he | he
  · exact .inl ⟨hd, he⟩
  · obtain ⟨i, -, hx⟩ := hd
    obtain ⟨j, -, hy⟩ := he
    exact absurd ((i.msb_of_mem hx).symm.trans (j.msb_of_mem hy)) (by simp)
  · obtain ⟨i, -, hx⟩ := hd
    obtain ⟨j, -, hy⟩ := he
    exact absurd ((i.msb_of_mem hx).symm.trans (j.msb_of_mem hy)) (by simp)
  · exact .inr ⟨hd, he⟩

/-- What a reduction returns is tight, and its members are the common ones. -/
theorem reduce?_eq_some {bits : Ternary w} {ranges : SplitRange w} {a : Reduced w}
    (h : reduce? bits ranges = some a) :
    a.Tight ∧ ∀ x, x ∈ a ↔ x ∈ bits ∧ x ∈ ranges := by
  rw [reduce?_eq] at h
  simp only [Option.bind_eq_some_iff] at h
  obtain ⟨narrowed, hn, kept, hkept, ha⟩ := h
  obtain rfl := Option.some.inj ha
  have hmem := Ternary.meet?_eq_some hkept
  rw [SplitRange.ofHalves?] at hn
  split at hn
  · obtain rfl := Option.some.inj hn
    -- an end of a narrowed interval is in the bits, and within the hull
    have hend {x : BitVec w} (hx : x ∈ bits) (hxn : x ∈ (SplitRange.mk
        (tightenBoth? bits (SplitRange.ofTernary bits).near ranges.near)
        (tightenBoth? bits (SplitRange.ofTernary bits).far ranges.far) ‹_›)) : x ∈ kept := by
      rw [hmem]
      exact ⟨hx, Ternary.mem_ofRange (SplitRange.umin_le hxn) (SplitRange.le_umax hxn)⟩
    constructor
    · intro r hr
      have hlo := SplitRange.mem_iff.2 ⟨r, hr, BitVec.le_refl _, r.ordered⟩
      have hhi := SplitRange.mem_iff.2 ⟨r, hr, r.ordered, BitVec.le_refl _⟩
      have hbits : r.lo ∈ bits ∧ r.hi ∈ bits := by
        rcases mem_near_or_far hr with ⟨i, hi, rfl⟩ | ⟨i, hi, rfl⟩
        · obtain ⟨_, _, -, -, ht⟩ := tightenBoth?_eq_some hi
          exact ⟨(tighten?_eq_some ht).1, (tighten?_eq_some ht).2.1⟩
        · obtain ⟨_, _, -, -, ht⟩ := tightenBoth?_eq_some hi
          exact ⟨(tighten?_eq_some ht).1, (tighten?_eq_some ht).2.1⟩
      exact ⟨hend hbits.1 hlo, hend hbits.2 hhi⟩
    · intro x
      constructor
      · rintro ⟨hxk, hxn⟩
        have hxb := ((hmem x).1 hxk).1
        refine ⟨hxb, hxn.imp (fun h => ?_) fun h => ?_⟩
        · exact ((mem_tightenBoth? hxb).1 h).2
        · exact ((mem_tightenBoth? hxb).1 h).2
      · rintro ⟨hxb, hxr⟩
        have hxn : x ∈ (SplitRange.mk
            (tightenBoth? bits (SplitRange.ofTernary bits).near ranges.near)
            (tightenBoth? bits (SplitRange.ofTernary bits).far ranges.far) ‹_›) :=
          (mem_split (SplitRange.mem_ofTernary hxb) hxr).imp
            (mem_tightenBoth? hxb).2 (mem_tightenBoth? hxb).2
        exact ⟨hend hxb hxn, hxn⟩
  · cases hn

/-- A reduction only narrows the three-valued word. -/
theorem bits_of_reduce? {bits : Ternary w} {ranges : SplitRange w} {a : Reduced w}
    (h : reduce? bits ranges = some a) {x : BitVec w} (hx : x ∈ a.bits) : x ∈ bits := by
  rw [reduce?_eq] at h
  simp only [Option.bind_eq_some_iff] at h
  obtain ⟨narrowed, -, kept, hkept, ha⟩ := h
  obtain rfl := Option.some.inj ha
  exact ((Ternary.meet?_eq_some hkept x).1 hx).1

/-- Components with a common member can be reduced. -/
theorem reduce?_isSome {bits : Ternary w} {ranges : SplitRange w} {x : BitVec w} (hb : x ∈ bits)
    (hr : x ∈ ranges) : ∃ a, reduce? bits ranges = some a := by
  have hn := (mem_split (SplitRange.mem_ofTernary hb) hr).imp
    (mem_tightenBoth? hb).2 (mem_tightenBoth? hb).2
  have hpop : (tightenBoth? bits (SplitRange.ofTernary bits).near ranges.near).isSome ∨
      (tightenBoth? bits (SplitRange.ofTernary bits).far ranges.far).isSome := by
    refine hn.imp ?_ ?_ <;>
    · rintro ⟨k, hk, -⟩
      exact Option.isSome_of_mem hk
  obtain ⟨kept, hkept⟩ := Ternary.meet?_isSome hb (Ternary.mem_ofRange
    (SplitRange.umin_le (d := ⟨_, _, hpop⟩) hn) (SplitRange.le_umax (d := ⟨_, _, hpop⟩) hn))
  rw [reduce?_eq, SplitRange.ofHalves?, dif_pos hpop, Option.bind_some, hkept]
  exact ⟨_, rfl⟩

/-- A reduction of components with a common member succeeds, and its members are the common
    ones. -/
theorem reduce_ok {bits : Ternary w} {ranges : SplitRange w} {x : BitVec w} (hb : x ∈ bits)
    (hr : x ∈ ranges) :
    ∃ a, reduce bits ranges = .ok a ∧ a.Tight ∧ ∀ y, y ∈ a ↔ y ∈ bits ∧ y ∈ ranges := by
  obtain ⟨a, ha⟩ := reduce?_isSome hb hr
  exact ⟨a, by rw [reduce, ha], reduce?_eq_some ha⟩

/-! ## Construction -/

theorem tight_ofWord (x : BitVec w) : (ofWord x).Tight := by
  intro r hr
  have hlo := SplitRange.mem_iff.2 ⟨r, hr, BitVec.le_refl _, r.ordered⟩
  have hhi := SplitRange.mem_iff.2 ⟨r, hr, r.ordered, BitVec.le_refl _⟩
  exact ⟨Ternary.mem_ofWord.2 (SplitRange.mem_ofWord.1 hlo),
    Ternary.mem_ofWord.2 (SplitRange.mem_ofWord.1 hhi)⟩

theorem mem_ofWord {x y : BitVec w} : x ∈ ofWord y ↔ x = y :=
  ⟨fun h => Ternary.mem_ofWord.1 h.1, fun h => ⟨Ternary.mem_ofWord.2 h, SplitRange.mem_ofWord.2 h⟩⟩

theorem tight_full (w : Nat) : (full w).Tight :=
  fun _ _ => ⟨Ternary.mem_full _, Ternary.mem_full _⟩

theorem mem_full (x : BitVec w) : x ∈ full w := ⟨Ternary.mem_full x, SplitRange.mem_full x⟩

theorem ofTernary_spec (bits : Ternary w) :
    (ofTernary bits).Tight ∧ ∀ x, x ∈ ofTernary bits ↔ x ∈ bits := by
  obtain ⟨htight, hmem⟩ := reduce?_eq_some (reduce?_ofTernary bits)
  exact ⟨htight, fun x => (hmem x).trans (and_iff_left (SplitRange.mem_full x))⟩

theorem bits_ofTernary {bits : Ternary w} {x : BitVec w} (hx : x ∈ (ofTernary bits).bits) :
    x ∈ bits :=
  bits_of_reduce? (reduce?_ofTernary bits) hx

theorem ofSplitRange_spec (ranges : SplitRange w) :
    (ofSplitRange ranges).Tight ∧ ∀ x, x ∈ ofSplitRange ranges ↔ x ∈ ranges := by
  obtain ⟨htight, hmem⟩ := reduce?_eq_some (reduce?_ofSplitRange ranges)
  exact ⟨htight, fun x => (hmem x).trans (and_iff_right (Ternary.mem_full x))⟩

/-- The common members of two values are those of their meet. -/
theorem meet?_eq_some {a b c : Reduced w} (h : a.meet? b = some c) :
    c.Tight ∧ ∀ x, x ∈ c ↔ x ∈ a ∧ x ∈ b := by
  simp only [meet?, Option.bind_eq_bind, Option.bind_eq_some_iff] at h
  obtain ⟨bits, hbits, ranges, hranges, hc⟩ := h
  obtain ⟨htight, hmem⟩ := reduce?_eq_some hc
  refine ⟨htight, fun x => ?_⟩
  rw [hmem, Ternary.meet?_eq_some hbits, SplitRange.meet?_eq_some hranges]
  exact and_and_and_comm

end RefineCheck.Reduced
