/-
  RefineCheck.Proofs.SplitRange.Order

  Split ranges as a lattice. Containment is inclusion of members and is decided by the ends of the
  intervals, the join is the least upper bound, and a wrapping interval is the least split range that
  holds the words it steps through.
-/

import RefineCheck.Proofs.Ternary.Order

namespace RefineCheck

variable {w : Nat}

/-! ## Intervals of one sign -/

namespace Half

variable {sign : Bool}

theorem mem_of_ends {i : Half w sign} {lo hi x : BitVec w} (hlo : lo ∈ i) (hhi : hi ∈ i)
    (hle : lo ≤ x) (hle' : x ≤ hi) : x ∈ i :=
  ⟨BitVec.le_trans hlo.1 hle, BitVec.le_trans hle' hhi.2⟩

/-- Intervals that hold each other's ends are one. -/
theorem eq_of_ends {i j : Half w sign} (hlo : j.lo ∈ i) (hhi : j.hi ∈ i) (hlo' : i.lo ∈ j)
    (hhi' : i.hi ∈ j) : i = j := by
  obtain ⟨lo, hi, _, _, _⟩ := i
  obtain ⟨lo', hi', _, _, _⟩ := j
  obtain rfl : lo = lo' := BitVec.le_antisymm hlo.1 hlo'.1
  obtain rfl : hi = hi' := BitVec.le_antisymm hhi'.2 hhi.2
  rfl

/-- The ends of a hull are ends of its parts. -/
theorem ends_hull (i j : Half w sign) :
    ((i.hull j).lo = i.lo ∨ (i.hull j).lo = j.lo) ∧
      ((i.hull j).hi = i.hi ∨ (i.hull j).hi = j.hi) := by
  constructor
  · simp only [hull]
    split
    · exact .inl rfl
    · exact .inr rfl
  · simp only [hull]
    split
    · exact .inr rfl
    · exact .inl rfl

end Half

namespace SplitRange

/-! ## Containment -/

theorem mem_of_mem_ranges {d : SplitRange w} {r : Range w} (hr : r ∈ d.ranges) {x : BitVec w}
    (hlo : r.lo ≤ x) (hhi : x ≤ r.hi) : x ∈ d :=
  mem_iff.2 ⟨r, hr, hlo, hhi⟩

theorem lo_mem {d : SplitRange w} {r : Range w} (hr : r ∈ d.ranges) : r.lo ∈ d :=
  mem_of_mem_ranges hr (BitVec.le_refl _) r.ordered

theorem hi_mem {d : SplitRange w} {r : Range w} (hr : r ∈ d.ranges) : r.hi ∈ d :=
  mem_of_mem_ranges hr r.ordered (BitVec.le_refl _)

theorem inside_iff {sign : Bool} {i j : Option (Half w sign)} :
    (j.all fun k => i.any fun l => l.contains k) = true ↔ ∀ k ∈ j, ∃ l ∈ i, k.lo ∈ l ∧ k.hi ∈ l := by
  cases j with
  | none => simp
  | some k =>
    cases i with
    | none => simp
    | some l =>
      simp only [Option.all_some, Option.any_some, Half.contains, decide_eq_true_eq,
        Option.mem_def, Option.some.injEq, forall_eq', exists_eq_left']
      constructor
      · rintro ⟨hlo, hhi⟩
        exact ⟨⟨hlo, BitVec.le_trans k.ordered hhi⟩, ⟨BitVec.le_trans hlo k.ordered, hhi⟩⟩
      · rintro ⟨hlo, hhi⟩
        exact ⟨hlo.1, hhi.2⟩

/-- A split range contains another one if it holds the ends of each interval: both ends have the
    sign of the interval, so they lie in one interval of the larger range. -/
theorem contains_iff_ends {d e : SplitRange w} :
    d.contains e = true ↔ ∀ r ∈ e.ranges, r.lo ∈ d ∧ r.hi ∈ d := by
  simp only [contains, Bool.and_eq_true, inside_iff]
  constructor
  · rintro ⟨hnear, hfar⟩ r hr
    rcases Reduced.mem_near_or_far hr with ⟨k, hk, rfl⟩ | ⟨k, hk, rfl⟩
    · obtain ⟨l, hl, hlo, hhi⟩ := hnear k hk
      exact ⟨.inl ⟨l, hl, hlo⟩, .inl ⟨l, hl, hhi⟩⟩
    · obtain ⟨l, hl, hlo, hhi⟩ := hfar k hk
      exact ⟨.inr ⟨l, hl, hlo⟩, .inr ⟨l, hl, hhi⟩⟩
  · intro h
    constructor
    · intro k hk
      obtain ⟨hlo, hhi⟩ := h _ (near_mem_ranges.2 hk)
      obtain ⟨l, hl, hlo⟩ := mem_near_of_msb hlo k.lo_sign
      obtain ⟨l', hl', hhi⟩ := mem_near_of_msb hhi k.hi_sign
      obtain rfl : l = l' := Option.some.inj (hl.symm.trans hl')
      exact ⟨l, hl, hlo, hhi⟩
    · intro k hk
      obtain ⟨hlo, hhi⟩ := h _ (far_mem_ranges.2 hk)
      obtain ⟨l, hl, hlo⟩ := mem_far_of_msb hlo k.lo_sign
      obtain ⟨l', hl', hhi⟩ := mem_far_of_msb hhi k.hi_sign
      obtain rfl : l = l' := Option.some.inj (hl.symm.trans hl')
      exact ⟨l, hl, hlo, hhi⟩

theorem mem_of_contains {d e : SplitRange w} (h : d.contains e = true) {x : BitVec w}
    (hx : x ∈ e) : x ∈ d := by
  simp only [contains, Bool.and_eq_true, inside_iff] at h
  refine hx.imp ?_ ?_
  · rintro ⟨k, hk, hxk⟩
    obtain ⟨l, hl, hlo, hhi⟩ := h.1 k hk
    exact ⟨l, hl, Half.mem_of_ends hlo hhi hxk.1 hxk.2⟩
  · rintro ⟨k, hk, hxk⟩
    obtain ⟨l, hl, hlo, hhi⟩ := h.2 k hk
    exact ⟨l, hl, Half.mem_of_ends hlo hhi hxk.1 hxk.2⟩

theorem contains_iff {d e : SplitRange w} : d.contains e = true ↔ ∀ x ∈ e, x ∈ d :=
  ⟨fun h _ hx => mem_of_contains h hx,
    fun h => contains_iff_ends.2 fun _ hr => ⟨h _ (lo_mem hr), h _ (hi_mem hr)⟩⟩

theorem contains_refl (d : SplitRange w) : d.contains d = true := contains_iff.2 fun _ hx => hx

theorem contains_trans {d e f : SplitRange w} (hde : d.contains e = true)
    (hef : e.contains f = true) : d.contains f = true :=
  contains_iff.2 fun _ hx => mem_of_contains hde (mem_of_contains hef hx)

/-- Split ranges are given by their members. -/
theorem ext_mem {d e : SplitRange w} (h : ∀ x, x ∈ d ↔ x ∈ e) : d = e := by
  have hde := contains_iff.2 fun x hx => (h x).2 hx
  have hed := contains_iff.2 fun x hx => (h x).1 hx
  simp only [contains, Bool.and_eq_true, inside_iff] at hde hed
  -- for each sign, either both have an interval, with the same ends, or neither has
  have same {sign : Bool} {i j : Option (Half w sign)}
      (hij : ∀ k ∈ j, ∃ l ∈ i, k.lo ∈ l ∧ k.hi ∈ l)
      (hji : ∀ k ∈ i, ∃ l ∈ j, k.lo ∈ l ∧ k.hi ∈ l) : i = j := by
    cases i with
    | none =>
      cases j with
      | none => rfl
      | some k =>
        obtain ⟨l, hl, -⟩ := hij k rfl
        cases hl
    | some l =>
      obtain ⟨k, hk, hlo, hhi⟩ := hji l rfl
      obtain ⟨l', hl', hlo', hhi'⟩ := hij k hk
      obtain rfl : l = l' := Option.some.inj hl'
      rw [Half.eq_of_ends hlo' hhi' hlo hhi]
      exact hk.symm
  obtain ⟨near, far, _⟩ := d
  obtain ⟨near', far', _⟩ := e
  obtain rfl : near = near' := same hde.1 hed.1
  obtain rfl : far = far' := same hde.2 hed.2
  rfl

theorem contains_antisymm {d e : SplitRange w} (hde : d.contains e = true)
    (hed : e.contains d = true) : d = e :=
  ext_mem fun _ => ⟨mem_of_contains hed, mem_of_contains hde⟩

theorem full_contains (d : SplitRange w) : (full w).contains d = true :=
  contains_iff.2 fun x _ => mem_full x

theorem contains_ofWord {d : SplitRange w} {x : BitVec w} (h : x ∈ d) :
    d.contains (ofWord x) = true := by
  rw [contains_iff]
  intro y hy
  rwa [mem_ofWord.1 hy]

/-! ## Joins and meets -/

theorem join_contains_left (d e : SplitRange w) : (d.join e).contains d = true :=
  contains_iff.2 fun _ hx => mem_join_left e hx

theorem join_contains_right (d e : SplitRange w) : (d.join e).contains e = true :=
  contains_iff.2 fun _ hx => mem_join_right d hx

theorem ends_merge {sign : Bool} {i j : Option (Half w sign)} {k : Half w sign}
    (hk : Option.merge Half.hull i j = some k) :
    (∃ l, (l ∈ i ∨ l ∈ j) ∧ k.lo = l.lo) ∧ ∃ l, (l ∈ i ∨ l ∈ j) ∧ k.hi = l.hi := by
  cases i with
  | none =>
    rw [Option.merge_none_left] at hk
    exact ⟨⟨k, .inr hk, rfl⟩, ⟨k, .inr hk, rfl⟩⟩
  | some i =>
    cases j with
    | none => exact ⟨⟨k, .inl hk, rfl⟩, ⟨k, .inl hk, rfl⟩⟩
    | some j =>
      obtain rfl := Option.some.inj hk
      obtain ⟨hlo, hhi⟩ := i.ends_hull j
      exact ⟨hlo.elim (fun h => ⟨i, .inl rfl, h⟩) fun h => ⟨j, .inr rfl, h⟩,
        hhi.elim (fun h => ⟨i, .inl rfl, h⟩) fun h => ⟨j, .inr rfl, h⟩⟩

/-- The ends of a join are ends of its parts. -/
theorem ends_join {d e : SplitRange w} {r : Range w} (hr : r ∈ (d.join e).ranges) :
    (∃ s, (s ∈ d.ranges ∨ s ∈ e.ranges) ∧ r.lo = s.lo) ∧
      ∃ s, (s ∈ d.ranges ∨ s ∈ e.ranges) ∧ r.hi = s.hi := by
  rcases Reduced.mem_near_or_far hr with ⟨k, hk, rfl⟩ | ⟨k, hk, rfl⟩
  · obtain ⟨⟨l, hl, hlo⟩, ⟨l', hl', hhi⟩⟩ := ends_merge hk
    exact ⟨⟨l.toRange, hl.imp near_mem_ranges.2 near_mem_ranges.2, hlo⟩,
      ⟨l'.toRange, hl'.imp near_mem_ranges.2 near_mem_ranges.2, hhi⟩⟩
  · obtain ⟨⟨l, hl, hlo⟩, ⟨l', hl', hhi⟩⟩ := ends_merge hk
    exact ⟨⟨l.toRange, hl.imp far_mem_ranges.2 far_mem_ranges.2, hlo⟩,
      ⟨l'.toRange, hl'.imp far_mem_ranges.2 far_mem_ranges.2, hhi⟩⟩

theorem contains_join {d e f : SplitRange w} (hd : f.contains d = true)
    (he : f.contains e = true) : f.contains (d.join e) = true := by
  rw [contains_iff_ends] at *
  intro r hr
  obtain ⟨⟨s, hs, hlo⟩, ⟨s', hs', hhi⟩⟩ := ends_join hr
  rw [hlo, hhi]
  exact ⟨hs.elim (fun h => (hd s h).1) fun h => (he s h).1,
    hs'.elim (fun h => (hd s' h).2) fun h => (he s' h).2⟩

theorem join_mono {d e d' e' : SplitRange w} (hd : d.contains d' = true)
    (he : e.contains e' = true) : (d.join e).contains (d'.join e') = true :=
  contains_join (contains_trans (join_contains_left d e) hd)
    (contains_trans (join_contains_right d e) he)

theorem contains_foldl_join {f : SplitRange w} {rest : List (SplitRange w)} {d : SplitRange w}
    (hd : f.contains d = true) (h : ∀ e ∈ rest, f.contains e = true) :
    f.contains (rest.foldl join d) = true := by
  induction rest generalizing d with
  | nil => exact hd
  | cons e rest ih =>
    exact ih (contains_join hd (h e List.mem_cons_self))
      fun g hg => h g (List.mem_cons_of_mem e hg)

/-- The join of a list is its least upper bound. -/
theorem contains_joinAll {f : SplitRange w} {l : List (SplitRange w)} (hl : l ≠ [])
    (h : ∀ d ∈ l, f.contains d = true) : f.contains (joinAll l hl) = true := by
  cases l with
  | nil => exact absurd rfl hl
  | cons d rest =>
    exact contains_foldl_join (h d List.mem_cons_self) fun e he => h e (List.mem_cons_of_mem d he)

theorem meet?_eq_none {d e : SplitRange w} : d.meet? e = none ↔ ∀ x, ¬ (x ∈ d ∧ x ∈ e) := by
  constructor
  · rintro h x ⟨hd, he⟩
    have hsome := meet?_isSome hd he
    rw [h] at hsome
    cases hsome
  · intro h
    cases hf : d.meet? e with
    | none => rfl
    | some f =>
      obtain ⟨x, hx⟩ := f.exists_mem
      exact absurd ((meet?_eq_some hf x).1 hx) (h x)

/-! ## Bounds -/

theorem umin_mem (d : SplitRange w) : d.umin ∈ d := by
  obtain ⟨⟨r, hr, h⟩, -⟩ := d.bounds_are_ends
  rw [h]
  exact lo_mem hr

theorem umax_mem (d : SplitRange w) : d.umax ∈ d := by
  obtain ⟨-, ⟨r, hr, h⟩, -⟩ := d.bounds_are_ends
  rw [h]
  exact hi_mem hr

theorem smin_mem (d : SplitRange w) : d.smin ∈ d := by
  obtain ⟨-, -, ⟨r, hr, h⟩, -⟩ := d.bounds_are_ends
  rw [h]
  exact lo_mem hr

theorem smax_mem (d : SplitRange w) : d.smax ∈ d := by
  obtain ⟨-, -, -, r, hr, h⟩ := d.bounds_are_ends
  rw [h]
  exact hi_mem hr

/-! ## Single words -/

theorem word?_ofWord (x : BitVec w) : (ofWord x).word? = some x := by
  apply Reduced.word?_of_ends
  intro r hr
  exact ⟨mem_ofWord.1 (lo_mem hr), mem_ofWord.1 (hi_mem hr)⟩

theorem word?_eq_some {d : SplitRange w} {x : BitVec w} : d.word? = some x ↔ d = ofWord x := by
  constructor
  · intro h
    apply ext_mem
    intro y
    rw [mem_ofWord]
    constructor
    · exact eq_of_word? h
    · rintro rfl
      exact mem_of_word? h
  · rintro rfl
    exact word?_ofWord x

/-- A split range within a single word is that word. -/
theorem word?_mono {d d' : SplitRange w} {x : BitVec w} (hd : d.contains d' = true)
    (h : d.word? = some x) : d'.word? = some x := by
  rw [word?_eq_some] at h ⊢
  rw [h] at hd
  apply contains_antisymm _ hd
  apply contains_ofWord
  obtain ⟨y, hy⟩ := d'.exists_mem
  rwa [← mem_ofWord.1 (mem_of_contains hd hy)]

end SplitRange

end RefineCheck
