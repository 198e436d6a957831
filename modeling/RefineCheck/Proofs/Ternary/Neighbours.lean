/-
  RefineCheck.Proofs.Ternary.Neighbours

  The search for the next member of a three-valued word from a bound upwards, and for the
  last one downwards, finds exactly the neighbour of the bound. The downward search is the
  upward one on complements.
-/

import RefineCheck.Proofs.Ternary.Soundness

namespace RefineCheck.Ternary

variable {w : Nat}

/-! ## Known bits -/

theorem getLsbD_of_umin {a : Ternary w} {x : BitVec w} (hx : x ∈ a) {k : Nat}
    (h : a.umin.getLsbD k = true) : x.getLsbD k = true := by
  have hk := BitVec.lt_of_getLsbD h
  cases hxk : x.getLsbD k
  · simp [umin, zeros_of_mem hx hk hxk] at h
  · rfl

/-! ## Upwards -/

/-- The word that has bit `p` set, agrees with one word above it and with another one below. -/
theorem getLsbD_raise (x y : BitVec w) {p k : Nat} (hk : k < w) :
    ((x &&& ~~~Word.low w (p + 1)) ||| BitVec.twoPow w p ||| (y &&& Word.low w p)).getLsbD k =
      if p < k then x.getLsbD k else if k = p then true else y.getLsbD k := by
  simp only [BitVec.getLsbD_or, BitVec.getLsbD_and, BitVec.getLsbD_not, Word.getLsbD_low,
    BitVec.getLsbD_twoPow, hk, decide_true, Bool.true_and]
  rcases Nat.lt_trichotomy k p with h | h | h
  · simp [show ¬ p < k by omega, show ¬ p = k by omega, show ¬ k = p by omega, h,
      show k < p + 1 by omega]
  · simp [h, show p < w by omega]
  · simp [h, show ¬ p = k by omega, show ¬ k < p by omega, show ¬ k < p + 1 by omega]

theorem low_succ {p : Nat} (hp : p < w) :
    BitVec.twoPow w p ||| (BitVec.twoPow w p - 1) = Word.low w (p + 1) := by
  rw [Word.twoPow_sub_one hp]
  apply BitVec.eq_of_getLsbD_eq
  intro k hk
  simp only [BitVec.getLsbD_or, BitVec.getLsbD_twoPow, Word.getLsbD_low, hk, decide_true,
    Bool.true_and]
  rw [Bool.eq_iff_iff]
  simp only [Bool.or_eq_true, Bool.and_eq_true, decide_eq_true_eq]
  omega

/-- What the search knows about the highest known bit that the bound gets wrong. -/
structure Conflict (a : Ternary w) (bound : BitVec w) (j : Nat) : Prop where
  lt : j < w
  known : a.known.getLsbD j = true
  differs : bound.getLsbD j = !a.umin.getLsbD j
  above : ∀ k < w, j < k → a.known.getLsbD k = true → bound.getLsbD k = a.umin.getLsbD k

theorem conflict_highestBit {a : Ternary w} {bound : BitVec w}
    (h : (bound ^^^ a.umin) &&& a.known ≠ 0) :
    Conflict a bound (Word.highestBit ((bound ^^^ a.umin) &&& a.known)) := by
  have hbit := Word.getLsbD_highestBit h
  rw [BitVec.getLsbD_and, BitVec.getLsbD_xor, Bool.and_eq_true] at hbit
  refine ⟨Word.highestBit_lt h, hbit.2, ?_, fun k _ hk hknown => ?_⟩
  · revert hbit
    cases bound.getLsbD _ <;> cases a.umin.getLsbD _ <;> simp
  · have := Word.getLsbD_above_highestBit hk
    rw [BitVec.getLsbD_and, BitVec.getLsbD_xor, hknown, Bool.and_true] at this
    simpa using this

/-- The bits that may rise above a conflict that has to drop. -/
theorem getLsbD_candidates (a : Ternary w) (bound : BitVec w) (j : Nat) {k : Nat} (hk : k < w) :
    (~~~bound &&& a.unknown &&& ~~~Word.low w (j + 1)).getLsbD k =
      (!bound.getLsbD k && !a.known.getLsbD k && decide (j < k)) := by
  have hlow : (!decide (k < j + 1)) = decide (j < k) := by
    rw [← decide_not, decide_eq_decide]
    omega
  simp only [BitVec.getLsbD_and, BitVec.getLsbD_not, Word.getLsbD_low, known, hk, decide_true,
    Bool.true_and, Bool.not_not, hlow]

/-- A member from the bound on first exceeds it in an unknown bit above a conflict that has to
    drop. -/
theorem Conflict.exists_rise {a : Ternary w} {bound x : BitVec w} {j : Nat}
    (c : Conflict a bound j) (hj : a.umin.getLsbD j = false) (hx : x ∈ a) (hle : bound ≤ x) :
    ∃ q < w, j < q ∧ bound.getLsbD q = false ∧ a.known.getLsbD q = false ∧ x.getLsbD q = true ∧
      ∀ k, q < k → bound.getLsbD k = x.getLsbD k := by
  -- the member has the known zero where the bound has a one, and so exceeds it higher up
  have hxj : x.getLsbD j = false := (mem_iff_known.1 hx j c.lt c.known).trans hj
  have hbj : bound.getLsbD j = true := by rw [c.differs, hj]; rfl
  have hlt : bound < x := by
    rw [BitVec.lt_def]
    rw [BitVec.le_def] at hle
    have : bound.toNat ≠ x.toNat := fun e => by
      rw [BitVec.eq_of_toNat_eq e, hxj] at hbj
      cases hbj
    omega
  obtain ⟨q, hq, hbq, hxq, habove⟩ := Word.exists_highest hlt
  have hjq : j < q := by
    rcases Nat.lt_trichotomy q j with h | h | h
    · have := habove j h
      rw [hbj, hxj] at this
      cases this
    · rw [h, hbj] at hbq
      cases hbq
    · exact h
  refine ⟨q, hq, hjq, hbq, ?_, hxq, habove⟩
  -- a known bit above would be another conflict
  cases hknown : a.known.getLsbD q
  · rfl
  · have h1 := c.above q hq hjq hknown
    have h2 := mem_iff_known.1 hx q hq hknown
    rw [hbq] at h1
    rw [hxq, ← h1] at h2
    cases h2

/-- Whether a word is the smallest member that is not below the bound. -/
def IsNext (a : Ternary w) (bound y : BitVec w) : Prop :=
  y ∈ a ∧ bound ≤ y ∧ ∀ x ∈ a, bound ≤ x → y ≤ x

/-- A bit that has to rise: the words between the bound and the result miss it. -/
theorem isNext_of_rise {a : Ternary w} {bound : BitVec w} {j : Nat} (c : Conflict a bound j)
    (hj : a.umin.getLsbD j = true) :
    IsNext a bound
      ((bound &&& ~~~Word.low w (j + 1)) ||| BitVec.twoPow w j ||| (a.umin &&& Word.low w j)) := by
  have hbj : bound.getLsbD j = false := by rw [c.differs, hj]; rfl
  refine ⟨?_, ?_, fun x hx hle => ?_⟩
  · rw [mem_iff_known]
    intro k hk hknown
    rw [getLsbD_raise bound a.umin hk]
    split
    · exact c.above k hk ‹_› hknown
    · split
      · rename_i e
        rw [e, hj]
      · rfl
  · refine BitVec.le_of_lt (Word.lt_of_highest j hbj ?_ fun k hkw hk => ?_)
    · simp [getLsbD_raise bound a.umin c.lt]
    · rw [getLsbD_raise bound a.umin hkw, if_pos hk]
  · apply BitVec.not_lt.1
    intro hlt
    obtain ⟨p, hp, hxp, hyp, habove⟩ := Word.exists_highest hlt
    rw [getLsbD_raise bound a.umin hp] at hyp
    split at hyp
    · -- above the conflict the result is the bound, so the member would be below it
      rename_i hjp
      have hlt' : x < bound := Word.lt_of_highest p hxp hyp fun k hkw hk => by
        rw [habove k hk, getLsbD_raise bound a.umin hkw, if_pos (by omega)]
      exact absurd hle (BitVec.not_le.2 hlt')
    · split at hyp
      · rename_i e
        rw [e, mem_iff_known.1 hx j c.lt c.known, hj] at hxp
        cases hxp
      · rw [getLsbD_of_umin hx hyp] at hxp
        cases hxp

/-- A bit that has to drop: the lowest unknown zero above it rises. -/
theorem isNext_of_drop {a : Ternary w} {bound : BitVec w} {j p : Nat} (c : Conflict a bound j)
    (hj : a.umin.getLsbD j = false) (hjp : j < p) (hp : p < w) (hbp : bound.getLsbD p = false)
    (hunknown : a.known.getLsbD p = false)
    (hlow : ∀ q < p, j < q → bound.getLsbD q = false → a.known.getLsbD q = true) :
    IsNext a bound
      ((bound &&& ~~~Word.low w (p + 1)) ||| BitVec.twoPow w p ||| (a.umin &&& Word.low w p)) := by
  refine ⟨?_, ?_, fun x hx hle => ?_⟩
  · -- the result is a member: it has the bits of the bound, the raised one, and the least ones
    rw [mem_iff_known]
    intro k hk hknown
    rw [getLsbD_raise bound a.umin hk]
    split
    · exact c.above k hk (by omega) hknown
    · split
      · rename_i e
        rw [e, hunknown] at hknown
        cases hknown
      · rfl
  · -- it is above the bound
    refine BitVec.le_of_lt (Word.lt_of_highest p hbp ?_ fun k hkw hk => ?_)
    · simp [getLsbD_raise bound a.umin hp]
    · rw [getLsbD_raise bound a.umin hkw, if_pos hk]
  · -- and no member lies between: a larger one leaves the bound at an unknown zero, too
    obtain ⟨q, hq, hjq, hbq, hqu, hxq, habove⟩ := c.exists_rise hj hx hle
    have hpq : p ≤ q := by
      by_contra hlt
      have := hlow q (by omega) hjq hbq
      rw [hqu] at this
      cases this
    rcases Nat.lt_or_eq_of_le hpq with hlt | rfl
    · -- the member leaves the bound earlier than the result does
      refine BitVec.le_of_lt (Word.lt_of_highest q ?_ hxq fun k hkw hk => ?_)
      · rw [getLsbD_raise bound a.umin hq, if_pos hlt, hbq]
      · rw [getLsbD_raise bound a.umin hkw, if_pos (by omega), habove k hk]
    · apply Word.le_of_bits
      intro k hk hy
      rw [getLsbD_raise bound a.umin hk] at hy
      split at hy
      · rw [← habove k ‹_›, hy]
      · split at hy
        · rename_i e
          rw [e, hxq]
        · exact getLsbD_of_umin hx hy

theorem isNext_of_next? {a : Ternary w} {bound y : BitVec w} (h : a.next? bound = some y) :
    IsNext a bound y := by
  rw [next?] at h
  simp only at h
  split at h
  · rename_i hno
    obtain rfl := Option.some.inj h
    exact ⟨no_conflict_iff.1 hno, BitVec.le_refl _, fun _ _ hle => hle⟩
  · rename_i hne
    have c := conflict_highestBit hne
    split at h
    · rename_i hj
      obtain rfl := Option.some.inj h
      exact isNext_of_rise c hj
    · rename_i hj
      split at h
      · cases h
      · rename_i hcand
        obtain rfl := Option.some.inj h
        obtain ⟨p, hp, hpow, hbit, hlow⟩ := Word.lowestBit_eq_twoPow hcand
        rw [getLsbD_candidates a bound _ hp] at hbit
        simp only [Bool.and_eq_true, Bool.not_eq_true', decide_eq_true_eq] at hbit
        rw [hpow, low_succ hp, Word.twoPow_sub_one hp]
        refine isNext_of_drop c (by simpa using hj) hbit.2 hp hbit.1.1 hbit.1.2 fun q hq hjq hbq => ?_
        have := hlow q hq
        rw [getLsbD_candidates a bound _ (by omega), hbq] at this
        simpa [hjq] using this

theorem not_le_of_next? {a : Ternary w} {bound x : BitVec w} (h : a.next? bound = none)
    (hx : x ∈ a) : ¬ bound ≤ x := by
  intro hle
  rw [next?] at h
  simp only at h
  split at h
  · cases h
  · rename_i hne
    have c := conflict_highestBit hne
    split at h
    · cases h
    · rename_i hj
      split at h
      · rename_i hcand
        obtain ⟨q, hq, hjq, hbq, hqu, -, -⟩ := c.exists_rise (by simpa using hj) hx hle
        have := congrArg (BitVec.getLsbD · q) hcand
        rw [getLsbD_candidates a bound _ hq, hbq, hqu, decide_eq_true hjq] at this
        simp at this
      · cases h

/-! ## Downwards -/

theorem mem_not_iff {a : Ternary w} {x : BitVec w} : x ∈ a.not ↔ ~~~x ∈ a := by
  constructor
  · intro h
    have h' := not_mem h
    exact h'
  · intro h
    have h' := not_mem h
    rwa [BitVec.not_not] at h'

/-- The word that agrees with one word above bit `p`, has a zero there and agrees with another
    word below. -/
theorem getLsbD_lower (x y : BitVec w) {p k : Nat} (hk : k < w) :
    ((x &&& ~~~Word.low w (p + 1)) ||| (y &&& Word.low w p)).getLsbD k =
      if p < k then x.getLsbD k else if k = p then false else y.getLsbD k := by
  simp only [BitVec.getLsbD_or, BitVec.getLsbD_and, BitVec.getLsbD_not, Word.getLsbD_low, hk,
    decide_true, Bool.true_and]
  rcases Nat.lt_trichotomy k p with h | h | h
  · simp [show ¬ p < k by omega, show ¬ k = p by omega, h, show k < p + 1 by omega]
  · simp [h]
  · simp [h, show ¬ k < p by omega, show ¬ k < p + 1 by omega]

/-- The complement of raising a bit is lowering it. -/
theorem not_raise (x y : BitVec w) (p : Nat) :
    ~~~((~~~x &&& ~~~Word.low w (p + 1)) ||| BitVec.twoPow w p ||| (~~~y &&& Word.low w p)) =
      (x &&& ~~~Word.low w (p + 1)) ||| (y &&& Word.low w p) := by
  apply BitVec.eq_of_getLsbD_eq
  intro k hk
  rw [BitVec.getLsbD_not, getLsbD_raise _ _ hk, getLsbD_lower _ _ hk]
  simp only [hk, decide_true, Bool.true_and, BitVec.getLsbD_not]
  split
  · exact Bool.not_not _
  · split
    · rfl
    · exact Bool.not_not _

theorem umin_not (a : Ternary w) : a.not.umin = ~~~a.ones := by
  apply BitVec.eq_of_getLsbD_eq
  intro k hk
  rw [a.not.getLsbD_umin hk, BitVec.getLsbD_not, decide_eq_true hk]
  rfl

theorem known_not (a : Ternary w) : a.not.known = a.known := by
  rw [known, known, unknown, unknown, not, BitVec.and_comm]

theorem conflicts_not (a : Ternary w) (bound : BitVec w) :
    (~~~bound ^^^ a.not.umin) &&& a.not.known = (bound ^^^ a.umin) &&& a.known := by
  rw [umin_not, known_not]
  apply BitVec.eq_of_getLsbD_eq
  intro k hk
  simp only [BitVec.getLsbD_and, BitVec.getLsbD_xor, BitVec.getLsbD_not, hk, decide_true,
    Bool.true_and, a.getLsbD_umin hk, a.getLsbD_known hk]
  have := a.getLsbD_total hk
  revert this
  cases a.zeros.getLsbD k <;> cases a.ones.getLsbD k <;> simp

/-- The search downwards is the search upwards among the complements. -/
theorem prev?_eq (a : Ternary w) (bound : BitVec w) :
    a.prev? bound = (a.not.next? (~~~bound)).map (~~~·) := by
  rw [prev?, next?, conflicts_not]
  simp only
  split
  · simp
  · rename_i hne
    have c := conflict_highestBit hne
    generalize Word.highestBit ((bound ^^^ a.umin) &&& a.known) = j at c ⊢
    -- the conflicting bit is known, so it is one either here or in the complement
    have hbit : a.not.umin.getLsbD j = !a.umin.getLsbD j := by
      have hknown := c.known
      rw [a.getLsbD_known c.lt] at hknown
      rw [umin_not, BitVec.getLsbD_not, decide_eq_true c.lt, a.getLsbD_umin c.lt]
      have := a.getLsbD_total c.lt
      revert this hknown
      cases a.zeros.getLsbD j <;> cases a.ones.getLsbD j <;> simp
    have hunknown : a.not.unknown = a.unknown := by
      rw [unknown, unknown, not, BitVec.and_comm]
    rw [hbit, hunknown, BitVec.not_not, umin_not]
    cases hj : a.umin.getLsbD j
    · simp only [Bool.not_false, Bool.false_eq_true, if_true, if_false, Option.map_some]
      rw [not_raise]
    · simp only [Bool.not_true, Bool.false_eq_true, if_true, if_false]
      split
      · rfl
      · rename_i hcand
        obtain ⟨p, hp, hpow, -, -⟩ := Word.lowestBit_eq_twoPow hcand
        rw [hpow, low_succ hp, Word.twoPow_sub_one hp, Option.map_some, not_raise]

theorem not_le_not {x y : BitVec w} (h : x ≤ y) : ~~~y ≤ ~~~x := by
  rw [BitVec.le_def] at *
  rw [BitVec.toNat_not, BitVec.toNat_not]
  omega

/-- The search downwards finds the largest member that is not above the bound. -/
theorem isPrev_of_prev? {a : Ternary w} {bound y : BitVec w} (h : a.prev? bound = some y) :
    y ∈ a ∧ y ≤ bound ∧ ∀ x ∈ a, x ≤ bound → x ≤ y := by
  rw [prev?_eq, Option.map_eq_some_iff] at h
  obtain ⟨z, hz, rfl⟩ := h
  obtain ⟨hmem, hle, hleast⟩ := isNext_of_next? hz
  refine ⟨mem_not_iff.1 hmem, ?_, fun x hx hxb => ?_⟩
  · have := not_le_not hle
    rwa [BitVec.not_not] at this
  · have := not_le_not (hleast (~~~x) (not_mem hx) (not_le_not hxb))
    rwa [BitVec.not_not] at this

theorem not_le_of_prev? {a : Ternary w} {bound x : BitVec w} (h : a.prev? bound = none)
    (hx : x ∈ a) : ¬ x ≤ bound := by
  rw [prev?_eq, Option.map_eq_none_iff] at h
  exact fun hle => not_le_of_next? h (not_mem hx) (not_le_not hle)

end RefineCheck.Ternary
