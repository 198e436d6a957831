/-
  RefineCheck.Proofs.SplitRange.Best

  The operators on split ranges that do not go through three-valued words return the least split
  range that holds the results on words, except for the product. Sums, differences and truncations
  step through a wrapping interval, each word of which is the result for some members. Extension and
  complement carry each interval to an interval, and every comparison is decided by bounds that are
  members.
-/

import RefineCheck.Proofs.SplitRange.Monotone
import RefineCheck.Proofs.SplitRange.Stored
import RefineCheck.Proofs.Ternary.Best

namespace RefineCheck.SplitRange

variable {w v : Nat} {d e f : SplitRange w} {r s : Range w}

/-! ## Intervals -/

theorem contains_ofRange (h : ∀ x, r.lo ≤ x → x ≤ r.hi → x ∈ d) :
    d.contains (ofRange r) = true := by
  rw [contains_iff]
  intro x hx
  obtain ⟨hlo, hhi⟩ := mem_ofRange.1 hx
  exact h x hlo hhi

theorem contains_joinMap {g : Range w → SplitRange v} {f : SplitRange v}
    (h : ∀ r ∈ d.ranges, f.contains (g r) = true) : f.contains (d.joinMap g) = true := by
  apply contains_joinAll
  intro s hs
  obtain ⟨r, hr, rfl⟩ := List.mem_map.1 hs
  exact h r hr

theorem contains_pairwise {g : Range w → Range w → SplitRange w}
    (h : ∀ r ∈ d.ranges, ∀ s ∈ e.ranges, f.contains (g r s) = true) :
    f.contains (d.pairwise e g) = true :=
  contains_joinMap fun r hr => contains_joinMap (h r hr)

/-- Stepping from the lower end of a range does not wrap around before its upper end. -/
theorem toNat_lo_add (r : Range w) {k : Nat} (hk : k ≤ r.steps) :
    (r.lo + BitVec.ofNat w k).toNat = r.lo.toNat + k := by
  have hordered := r.ordered
  rw [BitVec.le_def] at hordered
  rw [Range.steps] at hk
  rw [BitVec.toNat_add, BitVec.toNat_ofNat, Nat.add_mod_mod, Nat.mod_eq_of_lt (by omega)]

theorem lo_add_mem (hr : r ∈ d.ranges) {k : Nat} (hk : k ≤ r.steps) :
    r.lo + BitVec.ofNat w k ∈ d := by
  have hordered := r.ordered
  have hadd := toNat_lo_add r hk
  rw [Range.steps] at hk
  rw [BitVec.le_def] at hordered
  apply mem_of_mem_ranges hr <;>
  · rw [BitVec.le_def]
    omega

theorem hi_sub_mem (hr : r ∈ d.ranges) {k : Nat} (hk : k ≤ r.steps) :
    r.hi - BitVec.ofNat w k ∈ d := by
  have hmem := lo_add_mem hr (show r.steps - k ≤ r.steps by omega)
  have hhi : r.hi = r.lo + BitVec.ofNat w (r.steps - k) + BitVec.ofNat w k := by
    rw [BitVec.add_assoc, ← BitVec.ofNat_add, Nat.sub_add_cancel hk]
    exact eq_add_ofNat r.ordered
  rwa [hhi, BitVec.add_sub_cancel]

/-! ## Arithmetic -/

/-- Steps through two ranges together are steps through the one and then through the other. -/
theorem exists_steps {k m n : Nat} (h : k ≤ m + n) :
    ∃ i ≤ m, ∃ j ≤ n, BitVec.ofNat w k = BitVec.ofNat w i + BitVec.ofNat w j := by
  refine ⟨min k m, Nat.min_le_right k m, k - min k m, by omega, ?_⟩
  rw [← BitVec.ofNat_add, Nat.add_sub_cancel' (Nat.min_le_left k m)]

theorem contains_add (h : ∀ x ∈ d, ∀ y ∈ e, x + y ∈ f) : f.contains (d.add e) = true := by
  refine contains_pairwise fun r hr s hs => contains_wrapping fun k hk => ?_
  obtain ⟨i, hi, j, hj, hsteps⟩ := exists_steps hk
  have hxy := h _ (lo_add_mem hr hi) _ (lo_add_mem hs hj)
  rw [hsteps]
  rwa [show r.lo + BitVec.ofNat w i + (s.lo + BitVec.ofNat w j) =
    r.lo + s.lo + (BitVec.ofNat w i + BitVec.ofNat w j) by ac_rfl] at hxy

/-- The subtracted range is stepped through from its upper end. -/
theorem contains_sub (h : ∀ x ∈ d, ∀ y ∈ e, x - y ∈ f) : f.contains (d.sub e) = true := by
  refine contains_pairwise fun r hr s hs => contains_wrapping fun k hk => ?_
  obtain ⟨i, hi, j, hj, hsteps⟩ := exists_steps hk
  have hxy := h _ (lo_add_mem hr hi) _ (hi_sub_mem hs hj)
  rw [hsteps]
  generalize BitVec.ofNat w i = m at hxy ⊢
  generalize BitVec.ofNat w j = n at hxy ⊢
  rwa [show r.lo + m - (s.hi - n) = r.lo - s.hi + (m + n) by grind] at hxy

theorem contains_neg (h : ∀ x ∈ d, -x ∈ f) : f.contains d.neg = true := by
  refine contains_sub fun x hx y hy => ?_
  rw [mem_ofWord.1 hx]
  exact (BitVec.zero_sub y).symm ▸ h y hy

theorem contains_not (h : ∀ x ∈ d, ~~~x ∈ f) : f.contains d.not = true := by
  refine contains_joinMap fun r hr => contains_ofRange fun x hlo hhi => ?_
  have hmem : ~~~x ∈ d := by
    apply mem_of_mem_ranges hr
    · simpa [Range.complement] using Ternary.not_le_not hhi
    · simpa [Range.complement] using Ternary.not_le_not hlo
  simpa using h _ hmem

/-! ## Change of width -/

/-- An extension that follows each step carries a range to a range. -/
theorem contains_ofRange_image {g : BitVec w → BitVec v} {f : SplitRange v} {s : Range v}
    (hr : r ∈ d.ranges) (hlo : s.lo = g r.lo) (hsteps : s.steps ≤ r.steps)
    (hg : ∀ k ≤ r.steps, g (r.lo + BitVec.ofNat w k) = g r.lo + BitVec.ofNat v k)
    (h : ∀ x ∈ d, g x ∈ f) : f.contains (ofRange s) = true := by
  refine contains_ofRange fun x hx hx' => ?_
  have hk : x.toNat - s.lo.toNat ≤ r.steps := by
    rw [BitVec.le_def] at hx'
    rw [Range.steps] at hsteps
    omega
  rw [eq_add_ofNat hx, hlo, ← hg _ (hlo ▸ hk)]
  exact h _ (lo_add_mem hr (hlo ▸ hk))

/-- Keeping or extending with zeros follows each step through a range. -/
theorem setWidth_lo_add (r : Range w) (v : Nat) {k : Nat} (hk : k ≤ r.steps) :
    (r.lo + BitVec.ofNat w k).setWidth v = r.lo.setWidth v + BitVec.ofNat v k := by
  have hadd := toNat_lo_add r hk
  have hle : r.lo ≤ r.lo + BitVec.ofNat w k := by
    rw [BitVec.le_def]
    omega
  rw [setWidth_eq_steps hle, hadd, Nat.add_sub_cancel_left]

/-- So does extending with the sign bit, as long as the sign stays the same. -/
theorem signExtend_lo_add (r : Range w) (hsign : r.lo.msb = r.hi.msb) (h : w ≤ v) {k : Nat}
    (hk : k ≤ r.steps) :
    (r.lo + BitVec.ofNat w k).signExtend v = r.lo.signExtend v + BitVec.ofNat v k := by
  have hadd := toNat_lo_add r hk
  have hordered := r.ordered
  have hsame : (r.lo + BitVec.ofNat w k).msb = r.lo.msb := by
    rw [BitVec.msb_eq_decide, BitVec.msb_eq_decide, decide_eq_decide] at hsign
    rw [BitVec.msb_eq_decide, BitVec.msb_eq_decide, decide_eq_decide, hadd]
    rw [BitVec.le_def] at hordered
    rw [Range.steps] at hk
    omega
  apply BitVec.eq_of_toNat_eq
  rw [BitVec.toNat_add, BitVec.toNat_signExtend, BitVec.toNat_signExtend, hsame,
    BitVec.toNat_setWidth_of_le h, BitVec.toNat_setWidth_of_le h, hadd, BitVec.toNat_ofNat,
    Nat.add_mod_mod, Nat.mod_eq_of_lt]
  · omega
  · have hlt := (r.lo + BitVec.ofNat w k).isLt
    have hpow := Nat.pow_le_pow_right (show 0 < 2 by decide) h
    rw [hadd] at hlt
    split <;> omega

theorem contains_truncate {f : SplitRange v} (h : ∀ x ∈ d, x.setWidth v ∈ f) :
    f.contains (d.truncate v) = true := by
  refine contains_joinMap fun r hr => contains_wrapping fun k hk => ?_
  rw [← setWidth_lo_add r v hk]
  exact h _ (lo_add_mem hr hk)

theorem contains_uext {f : SplitRange v} (h : ∀ x ∈ d, x.setWidth v ∈ f) :
    f.contains (d.uext v) = true := by
  rw [uext]
  split
  · exact contains_truncate h
  · rename_i hvw
    have hle := Nat.le_of_not_lt hvw
    refine contains_joinMap fun r hr => contains_ofRange_image hr rfl ?_
      (fun k => setWidth_lo_add r v) h
    simp only [Range.steps, Range.uext, BitVec.toNat_setWidth_of_le hle]
    exact Nat.le_refl _

/-- The ends of an interval have one sign. -/
theorem msb_eq_of_mem_ranges (hr : r ∈ d.ranges) : r.lo.msb = r.hi.msb := by
  rcases Reduced.mem_near_or_far hr with ⟨i, -, rfl⟩ | ⟨i, -, rfl⟩ <;>
  exact i.lo_sign.trans i.hi_sign.symm

theorem contains_sext {f : SplitRange v} (h : ∀ x ∈ d, x.signExtend v ∈ f) :
    f.contains (d.sext v) = true := by
  rw [sext]
  split
  · rename_i hvw
    refine contains_truncate fun x hx => ?_
    rw [← BitVec.signExtend_eq_setWidth_of_le x (Nat.le_of_lt hvw)]
    exact h x hx
  · rename_i hvw
    have hle := Nat.le_of_not_lt hvw
    refine contains_joinMap fun r hr => ?_
    have hsign := msb_eq_of_mem_ranges hr
    refine contains_ofRange_image hr rfl ?_ (fun k => signExtend_lo_add r hsign hle) h
    simp only [Range.steps, Range.sext, BitVec.toNat_signExtend, BitVec.toNat_setWidth_of_le hle,
      hsign]
    omega

/-! ## Comparisons -/

/-- The truth values a test admits are no more than those that it gives. -/
theorem contains_truth {f : SplitRange 1} {canBeFalse canBeTrue : Bool}
    {h : (canBeFalse || canBeTrue) = true} (hfalse : canBeFalse = true → BitVec.ofBool false ∈ f)
    (htrue : canBeTrue = true → BitVec.ofBool true ∈ f) :
    f.contains (truth canBeFalse canBeTrue h) = true := by
  rw [truth]
  split
  · rename_i hboth
    rw [Bool.and_eq_true] at hboth
    rw [contains_iff]
    intro x _
    rcases BitVec.eq_zero_or_eq_one x with rfl | rfl
    · exact hfalse hboth.1
    · exact htrue hboth.2
  · apply contains_ofWord
    cases canBeTrue with
    | true => exact htrue rfl
    | false => exact hfalse (by simpa using h)

theorem not_truth {canBeFalse canBeTrue : Bool} (h : (canBeFalse || canBeTrue) = true) :
    (truth canBeFalse canBeTrue h).not = truth canBeTrue canBeFalse (by rwa [Bool.or_comm]) := by
  revert h
  cases canBeFalse <;> cases canBeTrue <;> decide

/-- Operands all of whose members are equal are one word. -/
theorem exists_ne_of_canDiffer (h : d.canDiffer e = true) : ∃ x ∈ d, ∃ y ∈ e, x ≠ y := by
  by_contra hall
  push Not at hall
  obtain ⟨x, hx⟩ := d.exists_mem
  obtain ⟨y, hy⟩ := e.exists_mem
  have hd : d.word? = some x := Reduced.word?_of_ends fun r hr =>
    ⟨(hall _ (lo_mem hr) y hy).trans (hall x hx y hy).symm,
      (hall _ (hi_mem hr) y hy).trans (hall x hx y hy).symm⟩
  have he : e.word? = some x := Reduced.word?_of_ends fun r hr =>
    ⟨(hall x hx _ (lo_mem hr)).symm, (hall x hx _ (hi_mem hr)).symm⟩
  simp [canDiffer, hd, he] at h

theorem exists_eq_of_canAgree (h : d.canAgree e = true) : ∃ x ∈ d, x ∈ e := by
  obtain ⟨f, hf⟩ := Option.isSome_iff_exists.1 h
  obtain ⟨x, hx⟩ := f.exists_mem
  exact ⟨x, (meet?_eq_some hf x).1 hx⟩

theorem contains_compare (op : CompareOp) {f : SplitRange 1}
    (h : ∀ x ∈ d, ∀ y ∈ e, BitVec.ofBool (op.onWords x y) ∈ f) :
    f.contains (compare op d e) = true := by
  have result {c : Bool} {x y : BitVec w} (hx : x ∈ d) (hy : y ∈ e) (hc : op.onWords x y = c) :
      BitVec.ofBool c ∈ f := hc ▸ h x hx y hy
  -- a bit is in the result only if two members show it, which are found for each operator: the
  -- ends of the ranges for an order, and words that agree or differ for an equality
  cases op with
  | eq =>
    show f.contains (d.eq e) = true
    refine contains_truth (fun hf => ?_) fun ht => ?_
    · obtain ⟨x, hx, y, hy, hne⟩ := exists_ne_of_canDiffer hf
      exact result hx hy (beq_false_of_ne hne)
    · obtain ⟨x, hx, hy⟩ := exists_eq_of_canAgree ht
      exact result hx hy (beq_self_eq_true x)
  | ne =>
    show f.contains (truth _ _ _).not = true
    rw [not_truth]
    refine contains_truth (fun hf => ?_) fun ht => ?_
    · obtain ⟨x, hx, hy⟩ := exists_eq_of_canAgree hf
      exact result hx hy (bne_self_eq_false x)
    · obtain ⟨x, hx, y, hy, hne⟩ := exists_ne_of_canDiffer ht
      exact result hx hy (bne_iff_ne.2 hne)
  | ult =>
    show f.contains (d.ult e) = true
    refine contains_truth (fun hf => ?_) fun ht => ?_
    · exact result d.umax_mem e.umin_mem (Word.ult_eq_false hf)
    · exact result d.umin_mem e.umax_mem ht
  | ule =>
    show f.contains (d.ule e) = true
    refine contains_truth (fun hf => ?_) fun ht => ?_
    · exact result d.umax_mem e.umin_mem (Word.ule_eq_false hf)
    · exact result d.umin_mem e.umax_mem ht
  | slt =>
    show f.contains (d.slt e) = true
    refine contains_truth (fun hf => ?_) fun ht => ?_
    · exact result d.smax_mem e.smin_mem (Word.slt_eq_false hf)
    · exact result d.smin_mem e.smax_mem ht
  | sle =>
    show f.contains (d.sle e) = true
    refine contains_truth (fun hf => ?_) fun ht => ?_
    · exact result d.smax_mem e.smin_mem (Word.sle_eq_false hf)
    · exact result d.smin_mem e.smax_mem ht

/-! ## The operators -/

theorem contains_unary (op : UnaryOp) (h : ∀ x ∈ d, op.onWords x ∈ f) :
    f.contains (d.unary op) = true := by
  cases op with
  | neg => exact contains_neg h
  | not => exact contains_not h

theorem contains_binary {op : BinaryOp} (hop : op = .add ∨ op = .sub)
    (h : ∀ x ∈ d, ∀ y ∈ e, op.onWords x y ∈ f) : f.contains (binary op d e) = true := by
  rcases hop with rfl | rfl
  · exact contains_add h
  · exact contains_sub h

theorem contains_extend (op : ExtendOp) {f : SplitRange v} (h : ∀ x ∈ d, op.onWords x v ∈ f) :
    f.contains (extend op d v) = true := by
  cases op with
  | uext => exact contains_uext h
  | sext => exact contains_sext h

/-- Sums, differences, the operators of one operand, changes of width and comparisons return, for
    any operands, the least split range that holds the results on words. -/
theorem operators_best : Domain.Exact SplitRange Domain.Best fun op => op = .add ∨ op = .sub where
  unary op _ := ⟨_, Sized.unary_ok rfl, Set.forall_mem_image.2 fun _ hx => unary_mem op hx,
    fun _ h => contains_unary op fun _ hx => h _ (Set.mem_image_of_mem _ hx)⟩
  binary op _ _ hop := ⟨_, Sized.binary_ok rfl,
    Set.forall_mem_image2.2 fun _ hx _ hy => binary_mem op hx hy,
    fun _ h => contains_binary hop fun _ hx _ hy => h _ (Set.mem_image2_of_mem hx hy)⟩
  compare op _ _ := ⟨_, Sized.compare_ok rfl,
    Set.forall_mem_image2.2 fun _ hx _ hy => compare_mem op hx hy,
    fun _ h => contains_compare op fun _ hx _ hy => h _ (Set.mem_image2_of_mem hx hy)⟩
  extend op _ v hv := ⟨_, Sized.extend_ok hv rfl,
    Set.forall_mem_image.2 fun _ hx => extend_mem op hx v,
    fun _ h => contains_extend op fun _ hx => h _ (Set.mem_image_of_mem _ hx)⟩

/-- Every split range is stored as a well-formed record and can be read back from it, and every
    well-formed record is that of exactly one split range. On split ranges, sums, differences, the
    operators of one operand, changes of width and comparisons are as precise as can be. -/
theorem stored_and_operators_best :
    (∀ {w : Nat} (d : SplitRange w), d.stored.WellFormed ∧
      d.stored.near? = d.near.map Half.ends ∧ d.stored.far? = d.far.map Half.ends) ∧
    (∀ {w : Nat} (s : Stored w), s.WellFormed → ∃! d : SplitRange w, d.stored = s) ∧
    Domain.Exact SplitRange Domain.Best fun op => op = .add ∨ op = .sub := by
  refine ⟨fun d => ⟨d.stored_wellFormed, d.stored_near?, d.stored_far?⟩, fun s hs => ?_,
    operators_best⟩
  obtain ⟨d, hd⟩ := hs.exists_stored
  exact ⟨d, hd, fun e he => stored_injective (he.trans hd.symm)⟩

/-- A record that repeats an interval of negative words is that of a split range of them alone. -/
theorem stored_and_operators_best_negative :
    (⟨⟨9, 12⟩, ⟨9, 12⟩⟩ : Stored 4).WellFormed ∧
      ∃! d : SplitRange 4, d.stored = ⟨⟨9, 12⟩, ⟨9, 12⟩⟩ := by
  have hsign : (⟨9, 12⟩ : Ends 4).InSign true := by
    unfold Ends.InSign
    decide
  have hwf : (⟨⟨9, 12⟩, ⟨9, 12⟩⟩ : Stored 4).WellFormed :=
    ⟨by decide, by decide, .inr ⟨rfl, true, hsign⟩⟩
  exact ⟨hwf, stored_and_operators_best.2.1 _ hwf⟩

end RefineCheck.SplitRange
