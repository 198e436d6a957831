/-
  RefineCheck.Proofs.Word.Subsets

  The subsets of the one bits of a word. They are listed in order, two for each one bit. The next one
  after a subset is found in the wrapping difference of the subset and the word, whose borrow flips
  what is missing from the subset up to the lowest bit that is.
-/

import RefineCheck.Proofs.Word.Bits

namespace RefineCheck

namespace Word

variable {w : Nat} {x y s t m : BitVec w}

/-! ## Subsets of a word -/

theorem subset_iff : s &&& x = s ↔ ∀ k, s.getLsbD k = true → x.getLsbD k = true := by
  constructor
  · intro h k hk
    rw [← h, BitVec.getLsbD_and, Bool.and_eq_true] at hk
    exact hk.2
  · intro h
    apply BitVec.eq_of_getLsbD_eq
    intro k _
    rw [BitVec.getLsbD_and]
    cases hk : s.getLsbD k with
    | true => rw [h k hk, Bool.true_and]
    | false => rw [Bool.false_and]

/-- The one bits of a listed subset are among the lowest one bits of the word. -/
theorem getLsbD_of_mem_subsetsBelow {n k : Nat} (hs : s ∈ subsetsBelow x n)
    (hk : s.getLsbD k = true) : x.getLsbD k = true ∧ k < n := by
  induction n generalizing s with
  | zero =>
    obtain rfl := List.mem_singleton.1 hs
    simp at hk
  | succ n ih =>
    have hrest {t : BitVec w} (ht : t ∈ subsetsBelow x n) (hk : t.getLsbD k = true) :
        x.getLsbD k = true ∧ k < n + 1 :=
      (ih ht hk).imp_right Nat.lt_succ_of_lt
    rw [subsetsBelow] at hs
    split at hs
    · rename_i hn
      rcases List.mem_append.1 hs with hs | hs
      · exact hrest hs hk
      · obtain ⟨t, ht, rfl⟩ := List.mem_map.1 hs
        rw [BitVec.getLsbD_or, BitVec.getLsbD_twoPow, Bool.or_eq_true, Bool.and_eq_true,
          decide_eq_true_iff, decide_eq_true_iff] at hk
        rcases hk with hk | ⟨-, rfl⟩
        · exact hrest ht hk
        · exact ⟨hn, n.lt_succ_self⟩
    · exact hrest hs hk

theorem mem_subsets_iff : s ∈ subsets x ↔ s &&& x = s :=
  ⟨fun h => subset_iff.2 fun _ hk => (getLsbD_of_mem_subsetsBelow h hk).1,
    fun h => mem_subsets (subset_iff.1 h)⟩

/-- Bits that the larger of two words does not have can be set in both. -/
theorem or_lt_or (h : s < t) (hm : ∀ k, t.getLsbD k = true → m.getLsbD k = false) :
    m ||| s < m ||| t := by
  obtain ⟨p, -, hsp, htp, habove⟩ := exists_highest h
  refine lt_of_highest p ?_ ?_ fun k _ hk => ?_
  · rw [BitVec.getLsbD_or, hm p htp, hsp, Bool.or_false]
  · rw [BitVec.getLsbD_or, htp, Bool.or_true]
  · rw [BitVec.getLsbD_or, BitVec.getLsbD_or, habove k hk]

theorem pairwise_subsetsBelow (x : BitVec w) (n : Nat) : (subsetsBelow x n).Pairwise (· < ·) := by
  induction n with
  | zero => exact List.pairwise_singleton _ _
  | succ n ih =>
    rw [subsetsBelow]
    split
    · rename_i hn
      have hlow {s : BitVec w} (hs : s ∈ subsetsBelow x n) {k : Nat} (hk : n ≤ k) :
          s.getLsbD k = false := by
        by_contra h
        exact absurd (getLsbD_of_mem_subsetsBelow hs (by simpa using h)).2 (Nat.not_lt_of_le hk)
      have hbit (k : Nat) : (BitVec.twoPow w n).getLsbD k = decide (n = k) := by
        rw [BitVec.getLsbD_twoPow, decide_eq_true (BitVec.lt_of_getLsbD hn), Bool.true_and]
      refine List.pairwise_append.2 ⟨ih, List.pairwise_map.2 (ih.imp_of_mem fun _ ht hlt => ?_), ?_⟩
      · rw [BitVec.or_comm _ (BitVec.twoPow w n), BitVec.or_comm _ (BitVec.twoPow w n)]
        refine or_lt_or hlt fun k hk => ?_
        rw [hbit, decide_eq_false (getLsbD_of_mem_subsetsBelow ht hk).2.ne']
      · -- only the subsets of the second part have bit `n`
        intro s hs t' ht'
        obtain ⟨t, ht, rfl⟩ := List.mem_map.1 ht'
        refine lt_of_highest n (hlow hs le_rfl) ?_ fun k _ hk => ?_
        · rw [BitVec.getLsbD_or, hbit, decide_eq_true rfl, Bool.or_true]
        · rw [BitVec.getLsbD_or, hbit, hlow hs hk.le, hlow ht hk.le, decide_eq_false hk.ne,
            Bool.or_false]
    · exact ih

theorem length_subsetsBelow (x : BitVec w) (n : Nat) :
    (subsetsBelow x n).length = 2 ^ (List.range n).countP x.getLsbD := by
  induction n with
  | zero => rfl
  | succ n ih =>
    rw [subsetsBelow, List.range_succ, List.countP_append, List.countP_singleton]
    split
    · rw [List.length_append, List.length_map, ih, pow_succ, Nat.mul_two]
    · rw [ih, Nat.add_zero]

/-! ## The next subset -/

/-- A subset and what is missing from it add up to the word. -/
theorem sub_eq_neg_missing (hs : s &&& x = s) : s - x = -(x &&& ~~~s) := by
  have hdisjoint : s &&& (x &&& ~~~s) = 0#w := by
    rw [BitVec.and_comm x, ← BitVec.and_assoc, BitVec.and_not_self]
    exact BitVec.zero_and
  have hsum : s + (x &&& ~~~s) = x := by
    rw [BitVec.add_eq_or_of_and_eq_zero _ _ hdisjoint]
    apply BitVec.eq_of_getLsbD_eq
    intro k hk
    have hsub := subset_iff.1 hs k
    rw [BitVec.getLsbD_or, BitVec.getLsbD_and, BitVec.getLsbD_not, decide_eq_true hk, Bool.true_and]
    revert hsub
    cases s.getLsbD k <;> cases x.getLsbD k <;> simp
  calc s - x = s - (s + (x &&& ~~~s)) := by rw [hsum]
    _ = -(x &&& ~~~s) := by grind

/-- The wrapping difference sets the lowest bit that is missing from a subset and clears those
    below. -/
theorem getLsbD_next (hs : s &&& x = s) {p : Nat} (hp : (x &&& ~~~s).getLsbD p = true)
    (hbelow : ∀ j < p, (x &&& ~~~s).getLsbD j = false) {k : Nat} (hk : k < w) :
    ((s - x) &&& x).getLsbD k = if k < p then false else if k = p then true else s.getLsbD k := by
  have hmissing : (x &&& ~~~s).getLsbD k = (x.getLsbD k && !s.getLsbD k) := by
    rw [BitVec.getLsbD_and, BitVec.getLsbD_not, decide_eq_true hk, Bool.true_and]
  have hnone (hkp : k ≤ p) : ¬ ∃ j < k, (x &&& ~~~s).getLsbD j = true := by
    rintro ⟨j, hj, hbit⟩
    rw [hbelow j (hj.trans_le hkp)] at hbit
    cases hbit
  -- negation flips the bits above the lowest one bit and keeps the others
  rw [sub_eq_neg_missing hs, BitVec.getLsbD_and, BitVec.getLsbD_neg, decide_eq_true hk, Bool.true_and]
  rcases Nat.lt_trichotomy k p with h | rfl | h
  · rw [if_pos h, hbelow k h, decide_eq_false (hnone h.le), Bool.false_xor, Bool.false_and]
  · rw [if_neg (Nat.lt_irrefl k), if_pos rfl, hp, decide_eq_false (hnone le_rfl), Bool.xor_false,
      Bool.true_and]
    rw [hmissing, Bool.and_eq_true] at hp
    exact hp.1
  · have hsub := subset_iff.1 hs k
    rw [if_neg (Nat.not_lt_of_lt h), if_neg h.ne', decide_eq_true ⟨p, h, hp⟩, hmissing]
    revert hsub
    cases s.getLsbD k <;> cases x.getLsbD k <;> simp

/-- The next subset is the smallest one that is larger. -/
theorem next_spec (hs : s &&& x = s) (hne : s ≠ x) : s < (s - x) &&& x ∧
    ∀ t, t &&& x = t → s < t → (s - x) &&& x ≤ t := by
  -- a subset that is not everything misses a bit, and the lowest missing one is set next
  have hmissing : x &&& ~~~s ≠ 0 := by
    intro h
    refine hne (BitVec.eq_of_getLsbD_eq fun k hk => ?_)
    have hbit := congrArg (BitVec.getLsbD · k) h
    have hsub := subset_iff.1 hs k
    rw [BitVec.getLsbD_and, BitVec.getLsbD_not, decide_eq_true hk] at hbit
    revert hsub hbit
    cases s.getLsbD k <;> cases x.getLsbD k <;> simp
  obtain ⟨p, hpw, -, hp, hbelow⟩ := lowestBit_eq_twoPow hmissing
  have hbits {k : Nat} (hk : k < w) := getLsbD_next hs hp hbelow hk
  have hxp : x.getLsbD p = true ∧ s.getLsbD p = false := by
    rw [BitVec.getLsbD_and, BitVec.getLsbD_not, decide_eq_true hpw] at hp
    simpa using hp
  refine ⟨lt_of_highest p hxp.2 ?_ fun k hk hpk => ?_, fun t ht hlt => ?_⟩
  · rw [hbits hpw, if_neg (Nat.lt_irrefl p), if_pos rfl]
  · rw [hbits hk, if_neg (Nat.not_lt_of_lt hpk), if_neg hpk.ne']
  · -- the larger subset has a bit that is missing, which is not below the lowest one
    obtain ⟨q, hq, hsq, htq, habove⟩ := exists_highest hlt
    have hpq : p ≤ q := by
      by_contra h
      have hbit := hbelow q (by omega)
      rw [BitVec.getLsbD_and, BitVec.getLsbD_not, decide_eq_true hq, subset_iff.1 ht q htq, hsq] at hbit
      cases hbit
    rcases Nat.lt_or_eq_of_le hpq with hlt | rfl
    · -- bit `q` already decides, since the next subset has the bits of `s` from there on
      refine BitVec.le_of_lt (lt_of_highest q ?_ htq fun k hk hqk => ?_)
      · rw [hbits hq, if_neg (Nat.not_lt_of_lt hlt), if_neg hlt.ne', hsq]
      · rw [hbits hk, if_neg (by omega), if_neg (by omega), habove k hqk]
    · refine le_of_bits fun k hk hbit => ?_
      rw [hbits hk] at hbit
      split at hbit
      · cases hbit
      · split at hbit
        · rename_i hkp
          rw [hkp, htq]
        · rw [← habove k (by omega), hbit]

/-! ## Subsets in order -/

/-- Among all subsets in order, the wrapping difference leads from each to the one after it. -/
theorem next_eq_of_sorted {done rest : List (BitVec w)}
    (hsorted : (done ++ s :: t :: rest).Pairwise (· < ·))
    (hall : ∀ y, y ∈ done ++ s :: t :: rest ↔ y &&& x = y) : s ≠ x ∧ (s - x) &&& x = t := by
  obtain ⟨-, hrest, hdone⟩ := List.pairwise_append.1 hsorted
  obtain ⟨hs, ht⟩ := List.pairwise_cons.1 hrest
  have hst : s < t := hs t List.mem_cons_self
  have hsx : s &&& x = s := (hall s).1 (List.mem_append_right _ List.mem_cons_self)
  have htx : t &&& x = t :=
    (hall t).1 (List.mem_append_right _ (List.mem_cons_of_mem _ List.mem_cons_self))
  have hne : s ≠ x := by
    rintro rfl
    exact BitVec.not_lt.2 (le_of_bits fun k _ => subset_iff.1 htx k) hst
  obtain ⟨hlt, hleast⟩ := next_spec hsx hne
  have hle := hleast t htx hst
  have hmem : (s - x) &&& x ∈ done ++ s :: t :: rest :=
    (hall _).2 (by rw [BitVec.and_assoc, BitVec.and_self])
  refine ⟨hne, ?_⟩
  -- it is larger than all up to `s`, and no larger than `t`
  rcases List.mem_append.1 hmem with hmem | hmem
  · exact absurd (hdone _ hmem s List.mem_cons_self) (BitVec.lt_asymm hlt)
  · rcases List.mem_cons.1 hmem with heq | hmem
    · rw [heq] at hlt
      exact absurd hlt (BitVec.lt_irrefl s)
    · rcases List.mem_cons.1 hmem with heq | hmem
      · exact heq
      · exact absurd ((List.pairwise_cons.1 ht).1 _ hmem) (BitVec.not_lt.2 hle)

/-- The last of all subsets in order is the word. -/
theorem eq_of_sorted_last {done : List (BitVec w)} (hsorted : (done ++ [s]).Pairwise (· < ·))
    (hall : ∀ y, y ∈ done ++ [s] ↔ y &&& x = y) : s = x := by
  have hx : x ∈ done ++ [s] := (hall x).2 BitVec.and_self
  rcases List.mem_append.1 hx with hx | hx
  · have hlt := (List.pairwise_append.1 hsorted).2.2 x hx s (List.mem_singleton_self s)
    have hsub := (hall s).1 (List.mem_append_right _ (List.mem_singleton_self s))
    exact absurd hlt (BitVec.not_lt.2 (le_of_bits fun k _ => subset_iff.1 hsub k))
  · exact (List.mem_singleton.1 hx).symm

theorem exists_subsetsBelow_eq_cons (x : BitVec w) (n : Nat) :
    ∃ rest, subsetsBelow x n = 0 :: rest := by
  induction n with
  | zero => exact ⟨[], rfl⟩
  | succ n ih =>
    obtain ⟨rest, hrest⟩ := ih
    rw [subsetsBelow, hrest]
    split
    · exact ⟨_, rfl⟩
    · exact ⟨rest, rfl⟩

theorem count_setWidth (hw : w ≤ 64) (x : BitVec w) : count (x.setWidth 64) = count x := by
  obtain ⟨n, hn⟩ := Nat.exists_eq_add_of_le hw
  have habove : ((List.range n).map (w + ·)).countP (x.setWidth 64).getLsbD = 0 := by
    refine List.countP_eq_zero.2 fun k hk => ?_
    obtain ⟨j, -, rfl⟩ := List.mem_map.1 hk
    rw [BitVec.getLsbD_setWidth, BitVec.getLsbD_of_ge x _ (Nat.le_add_right w j), Bool.and_false]
    exact Bool.false_ne_true
  have hrange : List.range 64 = List.range w ++ (List.range n).map (w + ·) := by
    rw [hn, List.range_add]
  rw [count, count, hrange, List.countP_append, habove, Nat.add_zero]
  refine List.countP_congr fun k hk => ?_
  rw [BitVec.getLsbD_setWidth, decide_eq_true ((List.mem_range.1 hk).trans_le (hn ▸ hw)),
    Bool.true_and]

end Word

end RefineCheck
