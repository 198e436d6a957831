/-
  RefineCheck.Proofs.SplitRange.Monotone

  Every operator on split ranges is monotone. Arithmetic gives nested wrapping intervals for nested
  operands, the bitwise operators are monotone since three-valued words and the passage to them are,
  and of the cases of a remainder the finer ones stay within the coarser ones.
-/

import RefineCheck.Proofs.SplitRange.Order
import RefineCheck.Proofs.Ternary.Monotone

namespace RefineCheck.SplitRange

variable {w : Nat} {d e d' e' : SplitRange w}

/-! ## Bounds -/

theorem umin_anti (hd : d.contains d' = true) : d.umin ≤ d'.umin :=
  umin_le (mem_of_contains hd d'.umin_mem)

theorem umax_mono (hd : d.contains d' = true) : d'.umax ≤ d.umax :=
  le_umax (mem_of_contains hd d'.umax_mem)

theorem smin_anti (hd : d.contains d' = true) : d.smin.sle d'.smin = true :=
  smin_sle (mem_of_contains hd d'.smin_mem)

theorem smax_mono (hd : d.contains d' = true) : d'.smax.sle d.smax = true :=
  sle_smax (mem_of_contains hd d'.smax_mem)

/-! ## Intervals -/

theorem ofRange_mono {r r' : Range w} (hlo : r.lo ≤ r'.lo) (hhi : r'.hi ≤ r.hi) :
    (ofRange r).contains (ofRange r') = true := by
  rw [contains_iff]
  intro x hx
  rw [mem_ofRange] at hx ⊢
  exact ⟨BitVec.le_trans hlo hx.1, BitVec.le_trans hx.2 hhi⟩

/-- Each interval of a narrower range lies in one of the wider range. -/
theorem exists_outer (hd : d.contains d' = true) {r' : Range w} (hr' : r' ∈ d'.ranges) :
    ∃ r ∈ d.ranges, r.lo ≤ r'.lo ∧ r'.hi ≤ r.hi := by
  simp only [contains, Bool.and_eq_true, inside_iff] at hd
  rcases Reduced.mem_near_or_far hr' with ⟨k, hk, rfl⟩ | ⟨k, hk, rfl⟩
  · obtain ⟨l, hl, hlo, hhi⟩ := hd.1 k hk
    exact ⟨l.toRange, near_mem_ranges.2 hl, hlo.1, hhi.2⟩
  · obtain ⟨l, hl, hlo, hhi⟩ := hd.2 k hk
    exact ⟨l.toRange, far_mem_ranges.2 hl, hlo.1, hhi.2⟩

/-- An operation that is monotone on intervals is monotone on their union. -/
theorem joinMap_mono {v : Nat} {f f' : Range w → SplitRange v} (hd : d.contains d' = true)
    (h : ∀ r r' : Range w, r.lo ≤ r'.lo → r'.hi ≤ r.hi → (f r).contains (f' r') = true) :
    (d.joinMap f).contains (d'.joinMap f') = true := by
  apply contains_joinAll
  intro s hs
  obtain ⟨r', hr', rfl⟩ := List.mem_map.1 hs
  obtain ⟨r, hr, hlo, hhi⟩ := exists_outer hd hr'
  exact contains_iff.2 fun x hx =>
    mem_joinAll _ (List.mem_map.2 ⟨r, hr, rfl⟩) (mem_of_contains (h r r' hlo hhi) hx)

theorem pairwise_mono {f f' : Range w → Range w → SplitRange w} (hd : d.contains d' = true)
    (he : e.contains e' = true)
    (h : ∀ r s r' s' : Range w, r.lo ≤ r'.lo → r'.hi ≤ r.hi → s.lo ≤ s'.lo → s'.hi ≤ s.hi →
      (f r s).contains (f' r' s') = true) :
    (d.pairwise e f).contains (d'.pairwise e' f') = true :=
  joinMap_mono hd fun r r' hlo hhi => joinMap_mono he fun s s' hlo' hhi' =>
    h r s r' s' hlo hhi hlo' hhi'

/-! ## Arithmetic -/

/-- The distance from a word to another one, around the end if the other one is smaller. -/
theorem toNat_sub_eq_ite (x start : BitVec w) :
    (x - start).toNat = if start.toNat ≤ x.toNat then x.toNat - start.toNat
      else 2 ^ w - start.toNat + x.toNat := by
  have hx := x.isLt
  have hstart := start.isLt
  rw [BitVec.toNat_sub]
  split
  · rw [show 2 ^ w - start.toNat + x.toNat = x.toNat - start.toNat + 2 ^ w by omega,
      Nat.add_mod_right, Nat.mod_eq_of_lt (by omega)]
  · exact Nat.mod_eq_of_lt (by omega)

/-- The word after some steps that go around the end at most once. -/
theorem toNat_add_ofNat_eq_ite (start : BitVec w) {steps : Nat} (h : steps < 2 ^ w) :
    (start + BitVec.ofNat w steps).toNat =
      if start.toNat + steps < 2 ^ w then start.toNat + steps
      else start.toNat + steps - 2 ^ w := by
  have hstart := start.isLt
  rw [BitVec.toNat_add, BitVec.toNat_ofNat, Nat.add_mod_mod]
  split
  · exact Nat.mod_eq_of_lt ‹_›
  · rw [Nat.mod_eq_sub_mod (by omega), Nat.mod_eq_of_lt (by omega)]

/-- A wrapping interval is the least split range that holds the words it steps through. -/
theorem contains_wrapping {start : BitVec w} {steps : Nat}
    (h : ∀ k ≤ steps, start + BitVec.ofNat w k ∈ d) : d.contains (wrapping start steps) = true := by
  -- a word is reached if its distance from the start is within the steps
  have reached (x : BitVec w) (hx : (x - start).toNat ≤ steps) : x ∈ d := by
    have hmem := h _ hx
    rwa [BitVec.ofNat_toNat, BitVec.setWidth_eq, BitVec.add_comm, BitVec.sub_add_cancel] at hmem
  rw [wrapping]
  split
  · rename_i hsteps
    rw [card_eq_pow] at hsteps
    exact contains_iff.2 fun x _ => reached x (by have := (x - start).isLt; omega)
  · rename_i hsteps
    rw [card_eq_pow] at hsteps
    have hstop := toNat_add_ofNat_eq_ite start (by omega : steps < 2 ^ w)
    simp only
    split
    · rename_i hle
      rw [contains_iff]
      intro x hx
      obtain ⟨hlo, hhi⟩ := mem_ofRange.1 hx
      apply reached
      simp only [BitVec.le_def, hstop] at hle hlo hhi
      rw [toNat_sub_eq_ite, if_pos hlo]
      split at hle <;> split at hhi <;> omega
    · -- the interval goes around the end: a part above the start and a part up to the stop
      rename_i hgt
      apply contains_join
      · rw [contains_iff]
        intro x hx
        obtain ⟨hlo, -⟩ := mem_ofRange.1 hx
        apply reached
        have := x.isLt
        simp only [Range.above, BitVec.le_def, hstop] at hgt hlo
        rw [toNat_sub_eq_ite, if_pos hlo]
        split at hgt <;> omega
      · rw [contains_iff]
        intro x hx
        obtain ⟨-, hhi⟩ := mem_ofRange.1 hx
        apply reached
        simp only [Range.upTo, BitVec.le_def, hstop] at hgt hhi
        rw [toNat_sub_eq_ite]
        split at hgt <;> split at hhi <;> split <;> omega

/-- Steps that start and end within those of a longer walk. -/
theorem wrapping_mono {start start' : BitVec w} {steps steps' k : Nat}
    (hstart : start' = start + BitVec.ofNat w k) (hsteps : k + steps' ≤ steps) :
    (wrapping start steps).contains (wrapping start' steps') = true := by
  apply contains_wrapping
  intro j hj
  rw [hstart, BitVec.add_assoc, ← BitVec.ofNat_add]
  exact mem_wrapping start (by omega)

theorem add_mono (hd : d.contains d' = true) (he : e.contains e' = true) :
    (d.add e).contains (d'.add e') = true := by
  refine pairwise_mono hd he fun r s r' s' hr hr' hs hs' => ?_
  have h1 := r'.ordered
  have h2 := s'.ordered
  apply wrapping_mono (add_eq_steps hr hs)
  simp only [BitVec.le_def, Range.steps] at *
  omega

theorem sub_mono (hd : d.contains d' = true) (he : e.contains e' = true) :
    (d.sub e).contains (d'.sub e') = true := by
  refine pairwise_mono hd he fun r s r' s' hr hr' hs hs' => ?_
  have h1 := r'.ordered
  have h2 := s'.ordered
  apply wrapping_mono (sub_eq_steps hr hs')
  simp only [BitVec.le_def, Range.steps] at *
  omega

theorem mul_mono (hd : d.contains d' = true) (he : e.contains e' = true) :
    (d.mul e).contains (d'.mul e') = true := by
  refine pairwise_mono hd he fun r s r' s' hr hr' hs hs' => ?_
  have h1 := r'.ordered
  have h2 := s'.ordered
  rw [BitVec.le_def] at hr hr' hs hs' h1 h2
  have hlo : r.lo.toNat * s.lo.toNat ≤ r'.lo.toNat * s'.lo.toNat := Nat.mul_le_mul hr hs
  have hle : r'.lo.toNat * s'.lo.toNat ≤ r'.hi.toNat * s'.hi.toNat := Nat.mul_le_mul h1 h2
  have hhi : r'.hi.toNat * s'.hi.toNat ≤ r.hi.toNat * s.hi.toNat := Nat.mul_le_mul hr' hs'
  apply wrapping_mono (mul_eq_steps hlo)
  omega

theorem neg_mono (hd : d.contains d' = true) : d.neg.contains d'.neg = true :=
  sub_mono (contains_refl _) hd

/-! ## Bitwise operators and shifts -/

theorem not_mono (hd : d.contains d' = true) : d.not.contains d'.not = true :=
  joinMap_mono hd fun _ _ hlo hhi =>
    ofRange_mono (Ternary.not_le_not hhi) (Ternary.not_le_not hlo)

theorem toTernary_mono (hd : d.contains d' = true) :
    d.toTernary.contains d'.toTernary = true := by
  apply Ternary.joinAll_mono
  intro a ha
  obtain ⟨r', hr', rfl⟩ := List.mem_map.1 ha
  obtain ⟨r, hr, hlo, hhi⟩ := exists_outer hd hr'
  exact ⟨_, List.mem_map.2 ⟨r, hr, rfl⟩, Ternary.ofRange_mono hlo r'.ordered hhi⟩

/-- The intervals of a three-valued word end in members. -/
theorem ends_ofTernary {a : Ternary w} {r : Range w} (hr : r ∈ (ofTernary a).ranges) :
    r.lo ∈ a ∧ r.hi ∈ a := by
  rcases Reduced.mem_near_or_far hr with ⟨i, hi, rfl⟩ | ⟨i, hi, rfl⟩
  · exact near_ends_ofTernary hi
  · exact far_ends_ofTernary hi

theorem ofTernary_mono {a a' : Ternary w} (ha : a.contains a' = true) :
    (ofTernary a).contains (ofTernary a') = true := by
  rw [contains_iff_ends]
  intro r hr
  obtain ⟨hlo, hhi⟩ := ends_ofTernary hr
  exact ⟨mem_ofTernary (Ternary.mem_of_contains ha hlo),
    mem_ofTernary (Ternary.mem_of_contains ha hhi)⟩

/-- An operator that is monotone on three-valued words is monotone through them. -/
theorem viaTernary_mono {f : Ternary w → Ternary w → Ternary w}
    (h : ∀ {a b a' b' : Ternary w}, a.contains a' = true → b.contains b' = true →
      (f a b).contains (f a' b') = true)
    (hd : d.contains d' = true) (he : e.contains e' = true) :
    (viaTernary f d e).contains (viaTernary f d' e') = true :=
  ofTernary_mono (h (toTernary_mono hd) (toTernary_mono he))

/-! ## Change of width -/

theorem truncate_mono (hd : d.contains d' = true) (v : Nat) :
    (d.truncate v).contains (d'.truncate v) = true := by
  refine joinMap_mono hd fun r r' hlo hhi => ?_
  have h := r'.ordered
  apply wrapping_mono (setWidth_eq_steps hlo v)
  rw [BitVec.le_def] at hlo hhi h
  simp only [Range.steps]
  omega

theorem uext_mono (hd : d.contains d' = true) (v : Nat) :
    (d.uext v).contains (d'.uext v) = true := by
  rw [uext, uext]
  split
  · exact truncate_mono hd v
  · refine joinMap_mono hd fun r r' hlo hhi => ofRange_mono ?_ ?_
    · rw [BitVec.le_def] at *
      simpa only [Range.uext, BitVec.toNat_setWidth_of_le (Nat.le_of_not_lt ‹_›)] using hlo
    · rw [BitVec.le_def] at *
      simpa only [Range.uext, BitVec.toNat_setWidth_of_le (Nat.le_of_not_lt ‹_›)] using hhi

theorem sext_mono (hd : d.contains d' = true) (v : Nat) :
    (d.sext v).contains (d'.sext v) = true := by
  rw [sext, sext]
  split
  · exact truncate_mono hd v
  · exact joinMap_mono hd fun r r' hlo hhi => ofRange_mono
      (signExtend_le (Nat.le_of_not_lt ‹_›) hlo) (signExtend_le (Nat.le_of_not_lt ‹_›) hhi)

/-! ## Comparisons -/

theorem truth_mono {f t f' t' : Bool} (h : (f || t) = true) (h' : (f' || t') = true)
    (hf : f' = true → f = true) (ht : t' = true → t = true) :
    (truth f t h).contains (truth f' t' h') = true := by
  revert h h' hf ht
  cases f <;> cases t <;> cases f' <;> cases t' <;> decide

theorem canDiffer_mono (hd : d.contains d' = true) (he : e.contains e' = true)
    (h : d'.canDiffer e' = true) : d.canDiffer e = true := by
  cases hc : d.canDiffer e
  · -- two operands that are one word stay that word
    simp only [canDiffer, Bool.not_eq_false', Bool.and_eq_true, beq_iff_eq] at hc
    obtain ⟨x, hx⟩ := Option.isSome_iff_exists.1 hc.1
    have hx' := word?_mono hd hx
    have hy' := word?_mono he (hc.2.symm.trans hx)
    simp [canDiffer, hx', hy'] at h
  · rfl

theorem canAgree_mono (hd : d.contains d' = true) (he : e.contains e' = true)
    (h : d'.canAgree e' = true) : d.canAgree e = true := by
  obtain ⟨f, hf⟩ := Option.isSome_iff_exists.1 h
  obtain ⟨x, hx⟩ := f.exists_mem
  obtain ⟨hxd, hxe⟩ := (meet?_eq_some hf x).1 hx
  exact meet?_isSome (mem_of_contains hd hxd) (mem_of_contains he hxe)

theorem eq_mono (hd : d.contains d' = true) (he : e.contains e' = true) :
    (d.eq e).contains (d'.eq e') = true :=
  truth_mono _ _ (canDiffer_mono hd he) (canAgree_mono hd he)

theorem ult_mono (hd : d.contains d' = true) (he : e.contains e' = true) :
    (d.ult e).contains (d'.ult e') = true :=
  truth_mono _ _ (Word.ule_of_le_of_le (umin_anti he) (umax_mono hd))
    (Word.ult_of_le_of_le (umin_anti hd) (umax_mono he))

theorem ule_mono (hd : d.contains d' = true) (he : e.contains e' = true) :
    (d.ule e).contains (d'.ule e') = true :=
  truth_mono _ _ (Word.ult_of_le_of_le (umin_anti he) (umax_mono hd))
    (Word.ule_of_le_of_le (umin_anti hd) (umax_mono he))

theorem slt_mono (hd : d.contains d' = true) (he : e.contains e' = true) :
    (d.slt e).contains (d'.slt e') = true :=
  truth_mono _ _ (Word.sle_of_sle_of_sle (smin_anti he) (smax_mono hd))
    (Word.slt_of_sle_of_sle (smin_anti hd) (smax_mono he))

theorem sle_mono (hd : d.contains d' = true) (he : e.contains e' = true) :
    (d.sle e).contains (d'.sle e') = true :=
  truth_mono _ _ (Word.slt_of_sle_of_sle (smin_anti he) (smax_mono hd))
    (Word.sle_of_sle_of_sle (smin_anti hd) (smax_mono he))

/-! ## Division -/

theorem panicOf_mono (he : e.contains e' = true) (code : Nat) :
    (e.panicOf code).contains (e'.panicOf code) = true := by
  rw [panicOf, panicOf]
  by_cases h0 : e.word? = some 0
  · rw [if_pos h0, if_pos (word?_mono he h0)]
    exact contains_refl _
  · rw [if_neg h0]
    by_cases h0' : e'.word? = some 0
    · rw [if_pos h0', if_pos ((has_iff e 0).2 (mem_of_contains he (mem_of_word? h0')))]
      exact join_contains_right _ _
    · rw [if_neg h0']
      by_cases hmem' : e'.has 0 = true
      · rw [if_pos hmem', if_pos ((has_iff e 0).2 (mem_of_contains he ((has_iff e' 0).1 hmem')))]
        exact contains_refl _
      · rw [if_neg hmem']
        split
        · exact join_contains_left _ _
        · exact contains_refl _

theorem udiv_mono (hd : d.contains d' = true) (he : e.contains e' = true) :
    (d.udiv e).contains (d'.udiv e') = true :=
  ofRange_mono (Word.udiv_le_udiv (umin_anti hd) (umax_mono he))
    (Word.udiv_le_udiv (umax_mono hd) (umin_anti he))

/-- A range that ends by a bound lies within all words up to it. -/
theorem upTo_contains {x : BitVec w} {r : Range w} (h : r.hi ≤ x) :
    (ofRange (.upTo x)).contains (ofRange r) = true := by
  apply ofRange_mono _ h
  simp [Range.upTo, BitVec.le_def]

/-- Whatever the case, a remainder is at most the greatest dividend. -/
theorem urem_le_umax (d e : SplitRange w) : (ofRange (.upTo d.umax)).contains (d.urem e) = true := by
  rw [urem]
  split
  · apply upTo_contains
    simp only [Word.urem, BitVec.le_def, BitVec.toNat_umod]
    exact Nat.mod_le _ _
  · split
    · exact contains_refl _
    · rename_i hn
      rw [not_or, BitVec.not_lt] at hn
      have hle := e.umin_le_umax
      rw [BitVec.le_def] at hle
      have hpos : 0 < e.umax.toNat := Nat.lt_of_lt_of_le (Word.toNat_pos hn.1) hle
      apply upTo_contains
      have hge := hn.2
      rw [BitVec.le_def] at hge
      simp only [Range.upTo, BitVec.le_def, Word.toNat_sub_one hpos]
      omega

/-- And below the greatest divisor, if no divisor is zero. -/
theorem urem_lt_umax (d : SplitRange w) {e : SplitRange w} (h : e.umin ≠ 0) :
    (ofRange (.upTo (e.umax - 1))).contains (d.urem e) = true := by
  have hmin := Word.toNat_pos h
  have hle := e.umin_le_umax
  rw [BitVec.le_def] at hle
  have hone := Word.toNat_sub_one (Nat.lt_of_lt_of_le hmin hle)
  rw [urem]
  split
  · apply upTo_contains
    simp only [Word.urem, BitVec.le_def, hone, BitVec.toNat_umod]
    have := Nat.mod_lt d.umax.toNat hmin
    omega
  · split
    · rename_i hor
      have hlt := hor.resolve_left h
      rw [BitVec.lt_def] at hlt
      apply upTo_contains
      simp only [Range.upTo, BitVec.le_def, hone]
      omega
    · exact contains_refl _

/-- Narrower operands keep a single quotient, and stay below the bounds of the wider ones. -/
theorem urem_mono (hd : d.contains d' = true) (he : e.contains e' = true) :
    (d.urem e).contains (d'.urem e') = true := by
  have hdmin := umin_anti hd
  have hdmax := umax_mono hd
  have hemin := umin_anti he
  have hemax := umax_mono he
  by_cases hq : Word.udiv d.umin e.umax = Word.udiv d.umax e.umin
  · have hmin := Word.udiv_eq_of_between hdmin (BitVec.le_trans d'.umin_le_umax hdmax)
      (BitVec.le_trans hemin e'.umin_le_umax) hemax hq
    have hmax := Word.udiv_eq_of_between (BitVec.le_trans hdmin d'.umin_le_umax) hdmax hemin
      (BitVec.le_trans e'.umin_le_umax hemax) hq
    rw [urem, urem, dif_pos hq, dif_pos (hmin.1.symm.trans hmax.1)]
    exact ofRange_mono (Word.urem_le_urem hdmin hemax hmin.1)
      (Word.urem_le_urem hdmax hemin hmax.2)
  · rw [urem, dif_neg hq]
    split
    · exact contains_trans (upTo_contains hdmax) (urem_le_umax d' e')
    · rename_i hn
      rw [not_or] at hn
      have hpos := Word.toNat_pos hn.1
      have hne : e'.umin ≠ 0 := by
        intro h0
        rw [h0, BitVec.le_def] at hemin
        simp at hemin
        omega
      refine contains_trans (upTo_contains ?_) (urem_lt_umax d' hne)
      have hle := e.umin_le_umax
      have hle' := e'.umin_le_umax
      rw [BitVec.le_def] at hemin hemax hle hle'
      have hone := Word.toNat_sub_one (show 0 < e.umax.toNat by omega)
      have hone' := Word.toNat_sub_one (show 0 < e'.umax.toNat by omega)
      simp only [Range.upTo, BitVec.le_def, hone, hone']
      omega

theorem exactOrFull_mono (hd : d.contains d' = true) (he : e.contains e' = true)
    (f : BitVec w → BitVec w → BitVec w) :
    (exactOrFull f d e).contains (exactOrFull f d' e') = true := by
  rw [exactOrFull]
  split
  · rename_i x y hx hy
    rw [exactOrFull, word?_mono hd hx, word?_mono he hy]
    exact contains_refl _
  · exact full_contains _

end RefineCheck.SplitRange
