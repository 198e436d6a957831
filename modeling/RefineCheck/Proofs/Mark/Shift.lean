/-
  RefineCheck.Proofs.Mark.Shift

  Backward marks of shifts are sufficient as long as the sign bit need not be spread over a
  whole word. Marks are moved back by the possible amounts below the width only; a larger one
  clears the word, but an arithmetic shift fills it with the sign bit, which is then not marked.
-/

import Mathlib
import RefineCheck.Proofs.Mark.Backward

namespace RefineCheck

/-! ## Bits that are moved back -/

namespace Mark

variable {w v n k : Nat} {later : Mark v}

theorem getLsbD_foldl_or {α : Type} (f : α → BitVec w) (l : List α) (acc : BitVec w) :
    (l.foldl (fun acc x => acc ||| f x) acc).getLsbD k = true ↔
      acc.getLsbD k = true ∨ ∃ x ∈ l, (f x).getLsbD k = true := by
  induction l generalizing acc with
  | nil => simp
  | cons x l ih =>
    rw [List.foldl_cons, ih, BitVec.getLsbD_or, Bool.or_eq_true, or_assoc, List.exists_mem_cons_iff]

theorem getLsbD_backShiftBits_shl (hk : later.bits.getLsbD k = true) (hn : n ≤ k) (hkw : k - n < w) :
    (backShiftBits w .shl later.bits.toNat n).getLsbD (k - n) = true := by
  rw [backShiftBits, BitVec.getLsbD_ofNat, Nat.testBit_shiftRight, Nat.add_sub_cancel' hn,
    decide_eq_true hkw, Bool.true_and]
  exact hk

theorem getLsbD_shiftLeft (hk : later.bits.getLsbD k = true) (hkw : n + k < w) :
    (BitVec.ofNat w (later.bits.toNat <<< n)).getLsbD (n + k) = true := by
  rw [BitVec.getLsbD_ofNat, Nat.testBit_shiftLeft, Nat.add_sub_cancel_left, decide_eq_true hkw,
    decide_eq_true (Nat.le_add_right n k), Bool.true_and, Bool.true_and]
  exact hk

/-- A mark that leaves the word when it is moved back is found again at the sign bit. -/
theorem getLsbD_backShiftBits_ashr (hk : later.bits.getLsbD k = true) (hw : 0 < w) :
    (backShiftBits w .ashr later.bits.toNat n).getLsbD (if n + k < w then n + k else w - 1) =
      true := by
  rw [backShiftBits]
  by_cases hkw : n + k < w
  · rw [if_pos hkw]
    split
    · exact getLsbD_shiftLeft hk hkw
    · rw [BitVec.getLsbD_or, getLsbD_shiftLeft hk hkw, Bool.true_or]
  · -- the bit is beyond the width, so moving it there and back loses it
    have hlost : (BitVec.ofNat w (later.bits.toNat <<< n)).toNat >>> n ≠ later.bits.toNat := by
      intro heq
      have hbit : later.bits.toNat.testBit k = true := hk
      rw [← heq, Nat.testBit_shiftRight] at hbit
      exact hkw (BitVec.lt_of_getLsbD hbit)
    rw [if_neg hkw, if_neg hlost, BitVec.getLsbD_or, BitVec.getLsbD_intMin]
    simp
    omega

end Mark

namespace Marking

variable {a s : Value}

/-- The marks of a shifted operand and of its amount: the amount is marked in full, and the operand
    where any amount below the width moves a mark to. -/
theorem backShift_ok (op : BinaryOp) (later : Marking) (hw : s.width = a.width) :
    ∃ marks, backShift op a s later = .ok marks ∧ Asks a marks.1 ∧ Asks s marks.2 ∧
      (later.isMarked = true → 0 < a.width → marks.2.marked = s.unknown ∧
        ∀ y ∈ s.val, y.toNat < a.width → ∀ j ∈ a.unknown,
          (Mark.backShiftBits a.width op later.val.bits.toNat y.toNat).getLsbD j = true →
            j ∈ marks.1.marked) := by
  obtain ⟨w, a⟩ := a
  obtain ⟨v, s⟩ := s
  obtain rfl : v = w := hw
  rw [backShift]
  split
  · -- nothing is marked, or there is nothing to mark
    rename_i h
    have hasks (x : Reduced v) : Asks ⟨v, x⟩ ⟨v, Mark.unmarked v⟩ := by
      refine ⟨rfl, fun k hk => ?_⟩
      simp [marked, Mark.unmarked] at hk
    refine ⟨_, rfl, hasks a, hasks s, fun hm hpos => ?_⟩
    have hzero : v = 0 := by simpa [hm] using h
    exact absurd hzero (Nat.ne_of_gt hpos)
  · rename_i h
    simp only [Bool.or_eq_true, Bool.not_eq_true', decide_eq_true_eq, not_or,
      Bool.not_eq_false] at h
    have hm : later.val.isMarked = true := h.1
    rw [dif_pos rfl, Mark.backShift, if_pos hm]
    refine ⟨_, rfl, ⟨rfl, fun k hk => (mem_marked_limit.1 hk).2⟩, asks_back ⟨v, s⟩ later, ?_⟩
    intro hlater _
    refine ⟨marked_back hlater, fun y hy hlt j hj hbit => mem_marked_limit.2 ⟨?_, hj⟩⟩
    show (Mark.of _ _).bits.getLsbD j = true
    rw [Mark.bits_of, Mark.getLsbD_foldl_or]
    refine .inr ⟨y.toNat, List.mem_filter.2 ⟨List.mem_range.2 hlt, ?_⟩, hbit⟩
    rw [BitVec.ofNat_toNat, BitVec.setWidth_eq]
    exact Reduced.has_iff.2 hy

/-! ## Shifts -/

/-- Whether an arithmetic shift by an amount of at least the width, if there is one, has a known sign
    bit to fill the word with. -/
def FillKnown (op : BinaryOp) (a s : Value) : Prop :=
  op = .ashr → (∀ y ∈ s.val, y.toNat < a.width) ∨ a.width - 1 ∉ a.unknown

theorem Answers.mem {w : Nat} {x y : Reduced w} {m : Marking} {n : BitVec w}
    (h : Answers ⟨w, x⟩ m ⟨w, y⟩) (hn : n ∈ y) : n ∈ x :=
  Reduced.mem_of_contains (Value.contains_iff.1 h.contained) hn

/-- Backward marks through shifts are sufficient for operands for which an arithmetic shift does not
    fill the whole word with an unknown sign bit. -/
theorem backShift_sufficient {op : BinaryOp} (hop : op ∈ [BinaryOp.shl, .lshr, .ashr])
    (ha : a.Built) (hs : s.Built) (hw : s.width = a.width) (later : Marking) :
    ∃ marks, backBinary op a s later = .ok marks ∧
      SufficientFor (FillKnown op) (Sized.binary op) a s later marks := by
  have hback : backBinary op a s later = backShift op a s later := by
    fin_cases hop <;> rfl
  obtain ⟨marks, hmarks, hleft, hright, hsource⟩ := backShift_ok op later hw
  refine ⟨marks, hback.trans hmarks, sufficientFor_of_settles ha hs hleft hright ?_⟩
  intro a' s' h h' hfill
  obtain ⟨w, a⟩ := a
  obtain ⟨v, s⟩ := s
  obtain rfl : v = w := hw
  obtain ⟨u, x⟩ := a'
  obtain rfl : u = v := h.width
  obtain ⟨v, y⟩ := s'
  obtain rfl : v = u := h'.width
  obtain ⟨r, hr, hunknown⟩ := Value.binary_unknown op h.built.val h'.built.val
  refine ⟨_, hr, Set.disjoint_left.2 fun k hk hkr => ?_⟩
  have hmarked : later.isMarked = true := by
    by_contra hm
    rw [marked_eq_empty_iff.2 (Bool.eq_false_iff.2 hm)] at hk
    exact hk
  have hkv : k < v := BitVec.lt_of_getLsbD (hunknown k hkr)
  obtain ⟨hamount, hsource⟩ := hsource hmarked (Nat.zero_lt_of_lt hkv)
  -- the amount is marked in full, so there is just one amount left, which was possible before
  have hknown := Value.unknown_eq_empty_iff.1 (h'.unknown_eq_empty hamount)
  obtain ⟨n, hn⟩ := h'.built.val.tight.exists_mem
  have hpossible := hsource n (h'.mem hn)
  fin_cases hop
  · obtain ⟨hlt, hle, hbit⟩ := Ternary.unknown_shl hn.1 hknown (hunknown k hkr)
    refine h.notMem_unknown (fun hu => hpossible hlt _ hu ?_) hbit
    exact Mark.getLsbD_backShiftBits_shl hk hle (BitVec.lt_of_getLsbD hbit)
  · obtain ⟨hlt, hbit⟩ := Ternary.unknown_lshr hn.1 hknown (hunknown k hkr)
    refine h.notMem_unknown (fun hu => hpossible hlt _ hu ?_) hbit
    exact Mark.getLsbD_shiftLeft hk (BitVec.lt_of_getLsbD hbit)
  · have hbit := Ternary.unknown_ashr hn.1 hknown (hunknown k hkr)
    -- from the width on every bit is the sign bit, which no amount has marked
    have hlt : n.toNat < v := by
      by_contra hge
      rw [if_neg fun hsum => hge (Nat.lt_of_le_of_lt (Nat.le_add_right _ _) hsum)] at hbit
      rcases hfill rfl with hsmall | hsign
      · exact hge (hsmall n hn)
      · exact hsign hbit
    refine h.notMem_unknown (fun hu => hpossible hlt _ hu ?_) hbit
    exact Mark.getLsbD_backShiftBits_ashr hk (Nat.zero_lt_of_lt hkv)

/-- A word that is shifted right by two places still has its sign bit in the second highest place,
    and a mark of it asks for a bit of the word. -/
theorem backShift_sufficient_ashr :
    Value.Built ⟨4, .full 4⟩ ∧ (Value.ofNat 4 2).Built ∧
      FillKnown .ashr ⟨4, .full 4⟩ (.ofNat 4 2) ∧
      Sized.binary .ashr ⟨4, .full 4⟩ (Value.ofNat 4 2) = .ok ⟨4, .full 4⟩ ∧
      ∃ marks, backBinary .ashr ⟨4, .full 4⟩ (.ofNat 4 2) ⟨4, .of 4 1⟩ = .ok marks ∧
        (marks.1.isMarked = true ∨ marks.2.isMarked = true) := by
  have ha : Value.Built ⟨4, .full 4⟩ := ⟨by decide, .full 4⟩
  have hs : (Value.ofNat 4 2).Built := Value.built_ofNat (by decide) 2
  have hfill : FillKnown .ashr ⟨4, .full 4⟩ (.ofNat 4 2) := by
    refine fun _ => .inl fun y hy => ?_
    rw [Reduced.mem_ofWord.1 hy]
    decide
  have hr : Sized.binary .ashr ⟨4, .full 4⟩ (Value.ofNat 4 2) = .ok ⟨4, .full 4⟩ := by decide
  have hmarked : (2 : Nat) ∈ Marking.marked ⟨4, .of 4 1⟩ :=
    show (Mark.of (4 : BitVec 4) 1).bits.getLsbD 2 = true by decide
  have hunknown : (2 : Nat) ∈ Value.unknown ⟨4, .full 4⟩ :=
    show (Reduced.full 4).bits.unknown.getLsbD 2 = true by decide
  obtain ⟨marks, hmarks, hsufficient⟩ :=
    backShift_sufficient (show BinaryOp.ashr ∈ [BinaryOp.shl, .lshr, .ashr] by decide) ha hs rfl
      ⟨4, .of 4 1⟩
  exact ⟨ha, hs, hfill, hr, marks, hmarks,
    hsufficient.culprit hfill hr (Set.not_disjoint_iff.2 ⟨2, hmarked, hunknown⟩)⟩

/-- An arithmetic shift by the width fills the word with the sign bit, but a mark of the result asks
    for nothing. -/
theorem backShift_insufficient :
    Value.Built ⟨8, .full 8⟩ ∧ (Value.ofNat 8 8).Built ∧
      backBinary .ashr ⟨8, .full 8⟩ (.ofNat 8 8) ⟨8, .of 1 1⟩ =
        .ok (⟨8, .unmarked 8⟩, ⟨8, .unmarked 8⟩) ∧
      Sized.binary .ashr ⟨8, .full 8⟩ (Value.ofNat 8 8) = .ok ⟨8, .full 8⟩ ∧
      ¬ Disjoint (Marking.marked ⟨8, .of 1 1⟩) (Value.unknown ⟨8, .full 8⟩) := by
  have hmarked : (0 : Nat) ∈ Marking.marked ⟨8, .of 1 1⟩ :=
    show (Mark.of (1 : BitVec 8) 1).bits.getLsbD 0 = true by decide
  have hunknown : (0 : Nat) ∈ Value.unknown ⟨8, .full 8⟩ :=
    show (Reduced.full 8).bits.unknown.getLsbD 0 = true by decide
  exact ⟨⟨by decide, .full 8⟩, Value.built_ofNat (by decide) 8, by decide, by decide,
    Set.not_disjoint_iff.2 ⟨0, hmarked, hunknown⟩⟩

end Marking

end RefineCheck
