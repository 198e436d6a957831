/-
  RefineCheck.Proofs.Ternary.Order

  Three-valued words as a lattice. Containment is inclusion of members, the join is the least upper
  bound, and the word that spans two ends is the least one that holds everything between them.
-/

import RefineCheck.Proofs.Reduced.Stable

namespace RefineCheck.Ternary

variable {w : Nat}

/-! ## Containment -/

theorem contains_iff_bits {a b : Ternary w} : a.contains b = true ↔
    ∀ k < w, (b.zeros.getLsbD k = true → a.zeros.getLsbD k = true) ∧
      (b.ones.getLsbD k = true → a.ones.getLsbD k = true) := by
  -- a flag of the one is no flag outside those of the other
  have inside (x y : BitVec w) :
      x &&& ~~~y = 0 ↔ ∀ k < w, x.getLsbD k = true → y.getLsbD k = true := by
    constructor
    · intro h k hk hx
      have := congrArg (BitVec.getLsbD · k) h
      simpa [hx, hk] using this
    · intro h
      apply BitVec.eq_of_getLsbD_eq
      intro k hk
      have := h k hk
      simp only [BitVec.getLsbD_and, BitVec.getLsbD_not, hk, decide_true, Bool.true_and]
      revert this
      cases x.getLsbD k <;> cases y.getLsbD k <;> simp
  rw [contains, Bool.and_eq_true, beq_iff_eq, beq_iff_eq, inside, inside]
  constructor
  · rintro ⟨hzeros, hones⟩ k hk
    exact ⟨hzeros k hk, hones k hk⟩
  · intro h
    exact ⟨fun k hk => (h k hk).1, fun k hk => (h k hk).2⟩

/-- The bounds of a three-valued word show all of its bits. -/
theorem contains_of_bounds {a b : Ternary w} (hmin : b.umin ∈ a) (hmax : b.umax ∈ a) :
    a.contains b = true := by
  obtain ⟨hzeros, hones⟩ := flags_and hmin hmax
  rw [contains_iff_bits]
  intro k _
  rw [← hzeros, ← hones, BitVec.getLsbD_and, BitVec.getLsbD_and, Bool.and_eq_true,
    Bool.and_eq_true]
  exact ⟨And.right, And.right⟩

theorem contains_iff {a b : Ternary w} : a.contains b = true ↔ ∀ x ∈ b, x ∈ a :=
  ⟨fun h _ hx => mem_of_contains h hx,
    fun h => contains_of_bounds (h _ b.umin_mem) (h _ b.umax_mem)⟩

theorem contains_refl (a : Ternary w) : a.contains a = true := contains_iff.2 fun _ hx => hx

theorem contains_trans {a b c : Ternary w} (hab : a.contains b = true)
    (hbc : b.contains c = true) : a.contains c = true :=
  contains_iff.2 fun _ hx => mem_of_contains hab (mem_of_contains hbc hx)

theorem contains_antisymm {a b : Ternary w} (hab : a.contains b = true)
    (hba : b.contains a = true) : a = b :=
  ext_mem fun _ => ⟨mem_of_contains hba, mem_of_contains hab⟩

theorem full_contains (a : Ternary w) : (full w).contains a = true :=
  contains_iff.2 fun x _ => mem_full x

theorem contains_ofWord {a : Ternary w} {x : BitVec w} (h : x ∈ a) :
    a.contains (ofWord x) = true := by
  rw [contains_iff]
  intro y hy
  rwa [mem_ofWord.1 hy]

/-! ## Joins and meets -/

theorem join_contains_left (a b : Ternary w) : (a.join b).contains a = true :=
  contains_iff.2 fun _ hx => mem_join_left b hx

theorem join_contains_right (a b : Ternary w) : (a.join b).contains b = true :=
  contains_iff.2 fun _ hx => mem_join_right a hx

theorem contains_join {a b c : Ternary w} (ha : c.contains a = true) (hb : c.contains b = true) :
    c.contains (a.join b) = true := by
  rw [contains_iff_bits] at *
  intro k hk
  obtain ⟨haz, hao⟩ := ha k hk
  obtain ⟨hbz, hbo⟩ := hb k hk
  rw [join, BitVec.getLsbD_or, BitVec.getLsbD_or, Bool.or_eq_true, Bool.or_eq_true]
  exact ⟨Or.rec haz hbz, Or.rec hao hbo⟩

theorem join_mono {a b a' b' : Ternary w} (ha : a.contains a' = true)
    (hb : b.contains b' = true) : (a.join b).contains (a'.join b') = true :=
  contains_join (contains_trans (join_contains_left a b) ha)
    (contains_trans (join_contains_right a b) hb)

theorem contains_foldl_join {c : Ternary w} {rest : List (Ternary w)} {a : Ternary w}
    (ha : c.contains a = true) (h : ∀ b ∈ rest, c.contains b = true) :
    c.contains (rest.foldl join a) = true := by
  induction rest generalizing a with
  | nil => exact ha
  | cons b rest ih =>
    exact ih (contains_join ha (h b List.mem_cons_self))
      fun d hd => h d (List.mem_cons_of_mem b hd)

/-- The join of a list is its least upper bound. -/
theorem contains_joinAll {c : Ternary w} {l : List (Ternary w)} (hl : l ≠ [])
    (h : ∀ a ∈ l, c.contains a = true) : c.contains (joinAll l hl) = true := by
  cases l with
  | nil => exact absurd rfl hl
  | cons a rest =>
    exact contains_foldl_join (h a List.mem_cons_self) fun b hb => h b (List.mem_cons_of_mem a hb)

theorem joinAll_mono {l l' : List (Ternary w)} (hl : l ≠ []) (hl' : l' ≠ [])
    (h : ∀ a' ∈ l', ∃ a ∈ l, a.contains a' = true) :
    (joinAll l hl).contains (joinAll l' hl') = true := by
  apply contains_joinAll
  intro a' ha'
  obtain ⟨a, ha, hcontains⟩ := h a' ha'
  exact contains_iff.2 fun x hx => mem_joinAll hl ha (mem_of_contains hcontains hx)

theorem meet?_eq_none {a b : Ternary w} : a.meet? b = none ↔ ∀ x, ¬ (x ∈ a ∧ x ∈ b) := by
  constructor
  · rintro h x ⟨ha, hb⟩
    obtain ⟨c, hc⟩ := meet?_isSome ha hb
    rw [h] at hc
    cases hc
  · intro h
    cases hc : a.meet? b with
    | none => rfl
    | some c => exact absurd ((meet?_eq_some hc _).1 c.umin_mem) (h _)

/-! ## Single words -/

theorem word?_ofWord (x : BitVec w) : (ofWord x).word? = some x := by
  have hunknown : (ofWord x).unknown = 0 := by
    rw [unknown, ofWord, BitVec.and_comm]
    exact BitVec.and_not_self x
  rw [word?, if_pos hunknown]
  rfl

theorem word?_eq_some {a : Ternary w} {x : BitVec w} : a.word? = some x ↔ a = ofWord x := by
  constructor
  · intro h
    apply ext_mem
    intro y
    rw [mem_ofWord]
    constructor
    · exact eq_of_word? h
    · rintro rfl
      rw [← eq_of_word? h a.umin_mem]
      exact a.umin_mem
  · rintro rfl
    exact word?_ofWord x

/-- A three-valued word within a single word is that word. -/
theorem word?_mono {a a' : Ternary w} {x : BitVec w} (ha : a.contains a' = true)
    (h : a.word? = some x) : a'.word? = some x := by
  rw [word?_eq_some] at h ⊢
  rw [h] at ha
  apply contains_antisymm _ ha
  apply contains_ofWord
  rw [← mem_ofWord.1 (mem_of_contains ha a'.umin_mem)]
  exact a'.umin_mem

/-! ## Words between two ends -/

/-- The ends show the bits of a word between them as far as they agree from above. -/
theorem mem_ofRange_iff {lo hi x : BitVec w} : x ∈ ofRange lo hi ↔
    ∀ k < w, (∀ j, k ≤ j → lo.getLsbD j = hi.getLsbD j) → x.getLsbD k = lo.getLsbD k := by
  have known {k : Nat} (hk : k < w) : (~~~Word.spread (lo ^^^ hi)).getLsbD k = true ↔
      ∀ j, k ≤ j → lo.getLsbD j = hi.getLsbD j := by
    rw [BitVec.getLsbD_not, Word.getLsbD_spread _ hk, decide_eq_true hk, Bool.true_and,
      Bool.not_eq_true', Bool.and_eq_false_iff, decide_eq_false_iff_not, decide_eq_false_iff_not,
      Decidable.not_not]
    constructor
    · rintro (he | habove) j hj
      · have := congrArg (BitVec.getLsbD · j) he
        simpa [BitVec.getLsbD_xor] using this
      · have := Word.getLsbD_above_highestBit (x := lo ^^^ hi) (k := j) (by omega)
        simpa [BitVec.getLsbD_xor] using this
    · intro h
      by_cases he : lo ^^^ hi = 0
      · exact .inl he
      · right
        intro hle
        have hbit := Word.getLsbD_highestBit he
        rw [BitVec.getLsbD_xor, h _ hle] at hbit
        simp at hbit
  rw [ofRange, mem_ofKnown]
  exact forall_congr' fun k => forall_congr' fun hk => imp_congr (known hk) Iff.rfl

theorem ofRange_mono {lo hi lo' hi' : BitVec w} (hlo : lo ≤ lo') (hle : lo' ≤ hi')
    (hhi : hi' ≤ hi) : (ofRange lo hi).contains (ofRange lo' hi') = true := by
  rw [contains_iff]
  intro x hx
  rw [mem_ofRange_iff] at hx ⊢
  intro k hk hagree
  -- the inner ends lie between the outer ones, so they agree wherever those do
  have hlow {j : Nat} (hj : k ≤ j) : lo'.getLsbD j = lo.getLsbD j :=
    Word.getLsbD_of_between hlo (BitVec.le_trans hle hhi) hagree hj
  have hhigh {j : Nat} (hj : k ≤ j) : hi'.getLsbD j = lo.getLsbD j :=
    Word.getLsbD_of_between (BitVec.le_trans hlo hle) hhi hagree hj
  rw [hx k hk fun j hj => (hlow hj).trans (hhigh hj).symm, hlow le_rfl]

/-- A member may take over the bits of another one below a bit that it sets. -/
theorem raise_mem {a : Ternary w} {x y : BitVec w} (hx : x ∈ a) (hy : y ∈ a) {p : Nat}
    (hp : x.getLsbD p = true) :
    (x &&& ~~~Word.low w (p + 1)) ||| BitVec.twoPow w p ||| (y &&& Word.low w p) ∈ a := by
  rw [mem_iff_known]
  intro k hk hknown
  rw [getLsbD_raise x y hk]
  split
  · exact mem_iff_known.1 hx k hk hknown
  · split
    · rename_i hkp
      rw [← mem_iff_known.1 hx k hk hknown, hkp, hp]
    · exact mem_iff_known.1 hy k hk hknown

/-- Likewise below a bit that it clears. -/
theorem lower_mem {a : Ternary w} {x y : BitVec w} (hx : x ∈ a) (hy : y ∈ a) {p : Nat}
    (hp : x.getLsbD p = false) : (x &&& ~~~Word.low w (p + 1)) ||| (y &&& Word.low w p) ∈ a := by
  rw [mem_iff_known]
  intro k hk hknown
  rw [getLsbD_lower x y hk]
  split
  · exact mem_iff_known.1 hx k hk hknown
  · split
    · rename_i hkp
      rw [← mem_iff_known.1 hx k hk hknown, hkp, hp]
    · exact mem_iff_known.1 hy k hk hknown

section Between

variable {a : Ternary w} {lo hi : BitVec w} {p k : Nat}

/-- Below the highest bit in which two members differ, the upper one may drop to the least bits
    without passing the lower one. -/
theorem raise_between (hhi : hi ∈ a) (hp : p < w) (hlop : lo.getLsbD p = false)
    (hhip : hi.getLsbD p = true) (hagree : ∀ j, p < j → lo.getLsbD j = hi.getLsbD j) :
    lo ≤ (hi &&& ~~~Word.low w (p + 1)) ||| BitVec.twoPow w p ||| (a.umin &&& Word.low w p) ∧
      (hi &&& ~~~Word.low w (p + 1)) ||| BitVec.twoPow w p ||| (a.umin &&& Word.low w p) ≤ hi := by
  constructor
  · refine BitVec.le_of_lt (Word.lt_of_highest p hlop ?_ fun j hj hpj => ?_)
    · simp [getLsbD_raise hi a.umin hp]
    · rw [getLsbD_raise hi a.umin hj, if_pos hpj, hagree j hpj]
  · apply Word.le_of_bits
    intro j hj hx
    rw [getLsbD_raise hi a.umin hj] at hx
    split at hx
    · exact hx
    · split at hx
      · rename_i hjp
        rw [hjp, hhip]
      · exact getLsbD_of_umin hhi hx

/-- Likewise the lower one may rise to the greatest bits without passing the upper one. -/
theorem lower_between (hlo : lo ∈ a) (hp : p < w) (hlop : lo.getLsbD p = false)
    (hhip : hi.getLsbD p = true) (hagree : ∀ j, p < j → lo.getLsbD j = hi.getLsbD j) :
    lo ≤ (lo &&& ~~~Word.low w (p + 1)) ||| (a.umax &&& Word.low w p) ∧
      (lo &&& ~~~Word.low w (p + 1)) ||| (a.umax &&& Word.low w p) ≤ hi := by
  constructor
  · apply Word.le_of_bits
    intro j hj hx
    rw [getLsbD_lower lo a.umax hj]
    split
    · exact hx
    · split
      · rename_i hjp
        rw [hjp, hlop] at hx
        cases hx
      · exact ones_of_mem hlo hj hx
  · refine BitVec.le_of_lt (Word.lt_of_highest p ?_ hhip fun j hj hpj => ?_)
    · simp [getLsbD_lower lo a.umax hp]
    · rw [getLsbD_lower lo a.umax hj, if_pos hpj, hagree j hpj]

/-- Between two members whose span holds a three-valued word, each of its bits is shown by a
    member. -/
theorem exists_mem_between {y : BitVec w} (hlo : lo ∈ a) (hhi : hi ∈ a)
    (hle : lo ≤ hi) (hspan : ∀ x ∈ a, x ∈ ofRange lo hi) (hy : y ∈ a) (hk : k < w) :
    ∃ x ∈ a, lo ≤ x ∧ x ≤ hi ∧ x.getLsbD k = y.getLsbD k := by
  -- where the ends agree from above, they show the bit themselves
  have hagreed (h : ∀ j, k ≤ j → lo.getLsbD j = hi.getLsbD j) :
      ∃ x ∈ a, lo ≤ x ∧ x ≤ hi ∧ x.getLsbD k = y.getLsbD k :=
    ⟨lo, hlo, BitVec.le_refl lo, hle, (mem_ofRange_iff.1 (hspan y hy) k hk h).symm⟩
  by_cases hlt : lo < hi
  · obtain ⟨p, hp, hlop, hhip, hagree⟩ := Word.exists_highest hlt
    rcases Nat.lt_trichotomy k p with hkp | rfl | hpk
    · cases hyk : y.getLsbD k
      · obtain ⟨habove, hbelow⟩ := raise_between hhi hp hlop hhip hagree
        refine ⟨_, raise_mem hhi a.umin_mem hhip, habove, hbelow, ?_⟩
        rw [getLsbD_raise hi a.umin hk, if_neg (by omega), if_neg (by omega), a.getLsbD_umin hk,
          zeros_of_mem hy hk hyk]
        rfl
      · obtain ⟨habove, hbelow⟩ := lower_between hlo hp hlop hhip hagree
        refine ⟨_, lower_mem hlo a.umax_mem hlop, habove, hbelow, ?_⟩
        rw [getLsbD_lower lo a.umax hk, if_neg (by omega), if_neg (by omega)]
        exact ones_of_mem hy hk hyk
    · -- the ends differ in the bit itself
      cases hyk : y.getLsbD k
      · exact ⟨lo, hlo, BitVec.le_refl lo, hle, hlop⟩
      · exact ⟨hi, hhi, hle, BitVec.le_refl hi, hhip⟩
    · exact hagreed fun j hj => hagree j (by omega)
  · -- with one end there is one word
    have heq : lo = hi := BitVec.le_antisymm hle (BitVec.not_lt.1 hlt)
    exact hagreed fun j _ => by rw [heq]

end Between

end RefineCheck.Ternary
