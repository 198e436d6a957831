/-
  RefineCheck.Proofs.SplitRange.Soundness

  Every operator on split ranges holds the result of the operator on words, for all
  members of its operands. Arithmetic goes through one lemma about intervals that may
  wrap around, the bitwise operators through three-valued words.
-/

import RefineCheck.Proofs.Ternary.Soundness
import RefineCheck.SplitRange.Operations

namespace RefineCheck.SplitRange

variable {w : Nat}

/-! ## Members -/

theorem mem_iff {d : SplitRange w} {x : BitVec w} : x ∈ d ↔ ∃ r ∈ d.ranges, x ∈ r := by
  have half {sign : Bool} (i : Option (Half w sign)) :
      (∃ j ∈ i, x ∈ j) ↔ ∃ r ∈ (i.map Half.toRange).toList, x ∈ r := by
    cases i with
    | none => simp
    | some i =>
      simp only [Option.mem_def, Option.some.injEq, exists_eq_left', Option.map_some,
        Option.toList_some, List.mem_singleton, exists_eq_left]
      exact Iff.rfl
  show (_ ∨ _) ↔ _
  simp only [ranges, List.mem_append, or_and_right, exists_or]
  exact or_congr (half d.near) (half d.far)

/-! ## Intervals by sign -/

theorem toRange_injective {sign : Bool} {i j : Half w sign} (h : i.toRange = j.toRange) :
    i = j := by
  obtain ⟨lo, hi, _, _, _⟩ := i
  obtain ⟨lo', hi', _, _, _⟩ := j
  obtain rfl : lo = lo' := congrArg Range.lo h
  obtain rfl : hi = hi' := congrArg Range.hi h
  rfl

/-- Intervals of different signs have different ends. -/
theorem toRange_ne {i : Half w false} {j : Half w true} : i.toRange ≠ j.toRange := by
  intro h
  have hsign : i.lo.msb = j.lo.msb := congrArg (fun r : Range w => r.lo.msb) h
  rw [i.lo_sign, j.lo_sign] at hsign
  cases hsign

theorem near_mem_ranges {d : SplitRange w} {i : Half w false} :
    i.toRange ∈ d.ranges ↔ i ∈ d.near := by
  rw [ranges, List.mem_append, Option.mem_toList, Option.mem_toList,
    Option.map_eq_some_iff, Option.map_eq_some_iff]
  constructor
  · rintro (⟨j, hj, h⟩ | ⟨j, -, h⟩)
    · rwa [← toRange_injective h]
    · exact absurd h.symm toRange_ne
  · intro hi
    exact .inl ⟨i, hi, rfl⟩

theorem far_mem_ranges {d : SplitRange w} {i : Half w true} :
    i.toRange ∈ d.ranges ↔ i ∈ d.far := by
  rw [ranges, List.mem_append, Option.mem_toList, Option.mem_toList,
    Option.map_eq_some_iff, Option.map_eq_some_iff]
  constructor
  · rintro (⟨j, -, h⟩ | ⟨j, hj, h⟩)
    · exact absurd h toRange_ne
    · rwa [← toRange_injective h]
  · intro hi
    exact .inr ⟨i, hi, rfl⟩

/-- A split range is given by its intervals, since these show their signs. -/
theorem ext_ranges {d d' : SplitRange w} (h : ∀ r, r ∈ d.ranges ↔ r ∈ d'.ranges) : d = d' := by
  have hnear : d.near = d'.near := by
    apply Option.ext
    intro i
    show i ∈ d.near ↔ i ∈ d'.near
    rw [← near_mem_ranges, h, near_mem_ranges]
  have hfar : d.far = d'.far := by
    apply Option.ext
    intro i
    show i ∈ d.far ↔ i ∈ d'.far
    rw [← far_mem_ranges, h, far_mem_ranges]
  obtain ⟨near, far, _⟩ := d
  obtain ⟨near', far', _⟩ := d'
  obtain rfl : near = near' := hnear
  obtain rfl : far = far' := hfar
  rfl

/-! ## Constructed ranges -/

/-- The non-negative part of a range ends where the sign changes, if the range goes on. -/
theorem mem_near_ofRange {r : Range w} {x : BitVec w} :
    (∃ i ∈ (ofRange r).near, x ∈ i) ↔ x.msb = false ∧ r.lo ≤ x ∧ x ≤ r.hi := by
  constructor
  · rintro ⟨i, hi, hx⟩
    have hxs := i.msb_of_mem hx
    simp only [ofRange, Option.mem_def] at hi
    split at hi
    · obtain rfl := Option.some.inj hi
      refine ⟨hxs, hx.1, ?_⟩
      have hle := hx.2
      simp only at hle
      split at hle
      · -- a negative upper end is above every non-negative word
        rename_i hs
        rcases BitVec.le_total x r.hi with h | h
        · exact h
        · exact absurd (msb_of_le h hs) (by simp [hxs])
      · exact hle
    · cases hi
  · rintro ⟨hs, hlo, hhi⟩
    have hl : r.lo.msb = false := by
      cases h : r.lo.msb
      · rfl
      · simp [msb_of_le hlo h] at hs
    simp only [ofRange, Option.mem_def, dif_pos hl]
    refine ⟨_, rfl, hlo, ?_⟩
    simp only
    split
    · exact le_intMax_of_msb hs
    · exact hhi

/-- The negative part of a range begins where the sign changes, if the range begins before. -/
theorem mem_far_ofRange {r : Range w} {x : BitVec w} :
    (∃ i ∈ (ofRange r).far, x ∈ i) ↔ x.msb = true ∧ r.lo ≤ x ∧ x ≤ r.hi := by
  constructor
  · rintro ⟨i, hi, hx⟩
    have hxs := i.msb_of_mem hx
    simp only [ofRange, Option.mem_def] at hi
    split at hi
    · obtain rfl := Option.some.inj hi
      refine ⟨hxs, ?_, hx.2⟩
      have hle := hx.1
      simp only at hle
      split at hle
      · exact hle
      · rename_i hs
        rcases BitVec.le_total r.lo x with h | h
        · exact h
        · exact absurd (msb_of_le h hxs) hs
    · cases hi
  · rintro ⟨hs, hlo, hhi⟩
    simp only [ofRange, Option.mem_def, dif_pos (msb_of_le hhi hs)]
    refine ⟨_, rfl, ?_, hhi⟩
    simp only
    split
    · exact hlo
    · exact intMin_le_of_msb hs

theorem mem_ofRange {r : Range w} {x : BitVec w} : x ∈ ofRange r ↔ r.lo ≤ x ∧ x ≤ r.hi := by
  show (∃ i ∈ (ofRange r).near, x ∈ i) ∨ (∃ i ∈ (ofRange r).far, x ∈ i) ↔ _
  rw [mem_near_ofRange, mem_far_ofRange]
  cases x.msb <;> simp

theorem mem_ofWord {x y : BitVec w} : x ∈ ofWord y ↔ x = y := by
  rw [ofWord, mem_ofRange]
  constructor
  · rintro ⟨h1, h2⟩
    exact BitVec.le_antisymm h2 h1
  · rintro rfl
    exact ⟨BitVec.le_refl _, BitVec.le_refl _⟩

theorem mem_hull_left {sign : Bool} {i : Half w sign} (j : Half w sign) {x : BitVec w}
    (h : x ∈ i) : x ∈ i.hull j := by
  have h1 := h.1
  have h2 := h.2
  constructor <;> simp only [Half.hull, BitVec.le_def] at * <;> split <;> omega

theorem mem_hull_right {sign : Bool} (i : Half w sign) {j : Half w sign} {x : BitVec w}
    (h : x ∈ j) : x ∈ i.hull j := by
  have h1 := h.1
  have h2 := h.2
  constructor <;> simp only [Half.hull, BitVec.le_def] at * <;> split <;> omega

theorem mem_merge_left {sign : Bool} {i : Option (Half w sign)} (j : Option (Half w sign))
    {x : BitVec w} (h : ∃ k ∈ i, x ∈ k) : ∃ k ∈ Option.merge Half.hull i j, x ∈ k := by
  obtain ⟨i, rfl, hx⟩ := h
  cases j with
  | none => exact ⟨i, rfl, hx⟩
  | some j => exact ⟨_, rfl, mem_hull_left j hx⟩

theorem mem_merge_right {sign : Bool} (i : Option (Half w sign)) {j : Option (Half w sign)}
    {x : BitVec w} (h : ∃ k ∈ j, x ∈ k) : ∃ k ∈ Option.merge Half.hull i j, x ∈ k := by
  obtain ⟨j, rfl, hx⟩ := h
  cases i with
  | none => exact ⟨j, rfl, hx⟩
  | some i => exact ⟨_, rfl, mem_hull_right i hx⟩

theorem mem_join_left {d : SplitRange w} (e : SplitRange w) {x : BitVec w} (h : x ∈ d) :
    x ∈ d.join e :=
  h.imp (mem_merge_left _) (mem_merge_left _)

theorem mem_join_right (d : SplitRange w) {e : SplitRange w} {x : BitVec w} (h : x ∈ e) :
    x ∈ d.join e :=
  h.imp (mem_merge_right _) (mem_merge_right _)

theorem mem_foldl_join {x : BitVec w} {rest : List (SplitRange w)} {d : SplitRange w}
    (h : x ∈ d ∨ ∃ e ∈ rest, x ∈ e) : x ∈ rest.foldl join d := by
  induction rest generalizing d with
  | nil => simpa using h
  | cons e rest ih =>
    apply ih
    rcases h with h | ⟨f, hf, hx⟩
    · exact .inl (mem_join_left e h)
    · rcases List.mem_cons.1 hf with rfl | hf
      · exact .inl (mem_join_right d hx)
      · exact .inr ⟨f, hf, hx⟩

theorem mem_joinAll {x : BitVec w} {l : List (SplitRange w)} (hl : l ≠ []) {d : SplitRange w}
    (hd : d ∈ l) (h : x ∈ d) : x ∈ joinAll l hl := by
  cases l with
  | nil => exact absurd rfl hl
  | cons e rest =>
    apply mem_foldl_join
    rcases List.mem_cons.1 hd with rfl | hd
    · exact .inl h
    · exact .inr ⟨d, hd, h⟩

/-- An operation that is sound on every interval is sound on their union. -/
theorem mem_joinMap {v : Nat} {d : SplitRange w} {f : Range w → SplitRange v} {x : BitVec w}
    {z : BitVec v} (hx : x ∈ d) (h : ∀ r : Range w, r.lo ≤ x → x ≤ r.hi → z ∈ f r) :
    z ∈ d.joinMap f := by
  obtain ⟨r, hr, hxr⟩ := mem_iff.1 hx
  exact mem_joinAll _ (List.mem_map.2 ⟨r, hr, rfl⟩) (h r hxr.1 hxr.2)

theorem mem_pairwise {d e : SplitRange w} {f : Range w → Range w → SplitRange w} {x y z : BitVec w}
    (hx : x ∈ d) (hy : y ∈ e)
    (h : ∀ r s : Range w, r.lo ≤ x → x ≤ r.hi → s.lo ≤ y → y ≤ s.hi → z ∈ f r s) :
    z ∈ d.pairwise e f :=
  mem_joinMap hx fun r hr hr' => mem_joinMap hy fun s hs hs' => h r s hr hr' hs hs'

/-! ## Meets -/

theorem of?_eq_some {sign : Bool} {lo hi : BitVec w} {k : Half w sign}
    (h : Half.of? sign lo hi = some k) : k.lo = lo ∧ k.hi = hi := by
  rw [Half.of?] at h
  split at h
  · obtain rfl := Option.some.inj h
    exact ⟨rfl, rfl⟩
  · cases h

theorem inter?_eq_some {sign : Bool} {i j k : Half w sign} (h : i.inter? j = some k)
    (x : BitVec w) : x ∈ k ↔ x ∈ i ∧ x ∈ j := by
  obtain ⟨hlo, hhi⟩ := of?_eq_some h
  show (_ ∧ _) ↔ (_ ∧ _) ∧ (_ ∧ _)
  rw [hlo, hhi]
  simp only [BitVec.le_def]
  split <;> split <;> omega

theorem mem_common {sign : Bool} {i j : Option (Half w sign)} {x : BitVec w} :
    (∃ k ∈ common i j, x ∈ k) ↔ (∃ k ∈ i, x ∈ k) ∧ ∃ k ∈ j, x ∈ k := by
  constructor
  · rintro ⟨k, hk, hx⟩
    cases i with
    | none => cases hk
    | some i =>
      cases j with
      | none => cases hk
      | some j =>
        obtain ⟨hi, hj⟩ := (inter?_eq_some (by simpa [common] using hk) x).1 hx
        exact ⟨⟨i, rfl, hi⟩, ⟨j, rfl, hj⟩⟩
  · rintro ⟨⟨i, rfl, hi⟩, ⟨j, rfl, hj⟩⟩
    obtain ⟨k, hk⟩ := Half.inter?_isSome hi hj
    exact ⟨k, by simpa [common] using hk, (inter?_eq_some hk x).2 ⟨hi, hj⟩⟩

/-- The common members of two split ranges are those of their meet. -/
theorem meet?_eq_some {d e f : SplitRange w} (h : d.meet? e = some f) (x : BitVec w) :
    x ∈ f ↔ x ∈ d ∧ x ∈ e := by
  rw [meet?, ofHalves?] at h
  split at h
  · obtain rfl := Option.some.inj h
    constructor
    · rintro (hx | hx)
      · exact ⟨.inl (mem_common.1 hx).1, .inl (mem_common.1 hx).2⟩
      · exact ⟨.inr (mem_common.1 hx).1, .inr (mem_common.1 hx).2⟩
    · rintro ⟨hd | ⟨i, hi, hx⟩, he | ⟨j, hj, hy⟩⟩
      · exact .inl (mem_common.2 ⟨hd, he⟩)
      · obtain ⟨i, hi, hx⟩ := hd
        exact absurd ((i.msb_of_mem hx).symm.trans (j.msb_of_mem hy)) (by simp)
      · obtain ⟨j, hj, hy⟩ := he
        exact absurd ((i.msb_of_mem hx).symm.trans (j.msb_of_mem hy)) (by simp)
      · exact .inr (mem_common.2 ⟨⟨i, hi, hx⟩, ⟨j, hj, hy⟩⟩)
  · cases h

/-! ## Arithmetic -/

theorem card_eq_pow (w : Nat) : Word.card w = 2 ^ w := rfl

/-- The words reached from the start within the number of steps lie in a wrapping interval. -/
theorem mem_wrapping (start : BitVec w) {steps k : Nat} (hk : k ≤ steps) :
    start + BitVec.ofNat w k ∈ wrapping start steps := by
  rw [wrapping]
  split
  · exact mem_full _
  · rename_i hsteps
    rw [card_eq_pow] at hsteps
    have hlt := start.isLt
    have hkm : k % 2 ^ w = k := Nat.mod_eq_of_lt (by omega)
    have hsm : steps % 2 ^ w = steps := Nat.mod_eq_of_lt (by omega)
    have hx : (start + BitVec.ofNat w k).toNat = (start.toNat + k) % 2 ^ w := by
      rw [BitVec.toNat_add, BitVec.toNat_ofNat, hkm]
    have hstop : (start + BitVec.ofNat w steps).toNat = (start.toNat + steps) % 2 ^ w := by
      rw [BitVec.toNat_add, BitVec.toNat_ofNat, hsm]
    -- a sum below twice the number of words wraps at most once
    have wrap {n : Nat} (hn : n ≤ steps) : (start.toNat + n) % 2 ^ w =
        if start.toNat + n < 2 ^ w then start.toNat + n else start.toNat + n - 2 ^ w := by
      split
      · exact Nat.mod_eq_of_lt ‹_›
      · rw [Nat.mod_eq_sub_mod (by omega), Nat.mod_eq_of_lt (by omega)]
    rw [wrap hk] at hx
    rw [wrap (Nat.le_refl _)] at hstop
    simp only
    split
    · rename_i hle
      rw [BitVec.le_def, hstop] at hle
      rw [mem_ofRange]
      simp only [BitVec.le_def, hx, hstop]
      split at hle <;> split <;> omega
    · rename_i hgt
      rw [BitVec.le_def, hstop] at hgt
      by_cases hw : start.toNat + k < 2 ^ w
      · apply mem_join_left
        rw [mem_ofRange]
        simp only [Range.above, BitVec.le_def, hx, BitVec.toNat_allOnes, if_pos hw]
        omega
      · apply mem_join_right
        refine mem_ofRange.2 ⟨by simp [Range.upTo, BitVec.le_def], ?_⟩
        simp only [Range.upTo, BitVec.le_def, hx, hstop, if_neg hw]
        split at hgt <;> split <;> omega

/-- A word as the start of an interval plus its distance to the start. -/
theorem eq_add_ofNat {lo x : BitVec w} (h : lo ≤ x) :
    x = lo + BitVec.ofNat w (x.toNat - lo.toNat) := by
  rw [BitVec.le_def] at h
  apply BitVec.eq_of_toNat_eq
  rw [BitVec.toNat_add, BitVec.toNat_ofNat, Nat.add_mod_mod, Nat.add_sub_cancel' h,
    Nat.mod_eq_of_lt x.isLt]

/-- A sum as the steps from the sum of the lower ends. -/
theorem add_eq_steps {lo lo' x y : BitVec w} (hx : lo ≤ x) (hy : lo' ≤ y) :
    x + y = lo + lo' + BitVec.ofNat w ((x.toNat - lo.toNat) + (y.toNat - lo'.toNat)) := by
  rw [BitVec.ofNat_add]
  have h1 := eq_add_ofNat hx
  have h2 := eq_add_ofNat hy
  generalize BitVec.ofNat w (x.toNat - lo.toNat) = m at h1 ⊢
  generalize BitVec.ofNat w (y.toNat - lo'.toNat) = n at h2 ⊢
  rw [h1, h2]
  ac_rfl

/-- A difference as the steps from the lower end less the upper one. -/
theorem sub_eq_steps {lo hi x y : BitVec w} (hx : lo ≤ x) (hy : y ≤ hi) :
    x - y = lo - hi + BitVec.ofNat w ((x.toNat - lo.toNat) + (hi.toNat - y.toNat)) := by
  rw [BitVec.ofNat_add]
  have h1 := eq_add_ofNat hx
  have h2 := eq_add_ofNat hy
  generalize BitVec.ofNat w (x.toNat - lo.toNat) = m at h1 ⊢
  generalize BitVec.ofNat w (hi.toNat - y.toNat) = n at h2 ⊢
  rw [h1, h2]
  grind

/-- A product as the steps from a smaller one. -/
theorem mul_eq_steps {lo lo' x y : BitVec w} (h : lo.toNat * lo'.toNat ≤ x.toNat * y.toNat) :
    x * y = lo * lo' + BitVec.ofNat w (x.toNat * y.toNat - lo.toNat * lo'.toNat) := by
  apply BitVec.eq_of_toNat_eq
  rw [BitVec.toNat_add, BitVec.toNat_ofNat, BitVec.toNat_mul, BitVec.toNat_mul, ← Nat.add_mod,
    Nat.add_sub_cancel' h]

theorem add_mem {d e : SplitRange w} {x y : BitVec w} (hx : x ∈ d) (hy : y ∈ e) :
    x + y ∈ d.add e := by
  refine mem_pairwise hx hy fun r s hr hr' hs hs' => ?_
  rw [add_eq_steps hr hs]
  apply mem_wrapping
  simp only [BitVec.le_def, Range.steps] at *
  omega

theorem sub_mem {d e : SplitRange w} {x y : BitVec w} (hx : x ∈ d) (hy : y ∈ e) :
    x - y ∈ d.sub e := by
  refine mem_pairwise hx hy fun r s hr hr' hs hs' => ?_
  rw [sub_eq_steps hr hs']
  apply mem_wrapping
  simp only [BitVec.le_def, Range.steps] at *
  omega

theorem mul_mem {d e : SplitRange w} {x y : BitVec w} (hx : x ∈ d) (hy : y ∈ e) :
    x * y ∈ d.mul e := by
  refine mem_pairwise hx hy fun r s hr hr' hs hs' => ?_
  rw [BitVec.le_def] at hr hr' hs hs'
  have hlo : r.lo.toNat * s.lo.toNat ≤ x.toNat * y.toNat := Nat.mul_le_mul hr hs
  have hhi : x.toNat * y.toNat ≤ r.hi.toNat * s.hi.toNat := Nat.mul_le_mul hr' hs'
  rw [mul_eq_steps hlo]
  apply mem_wrapping
  omega

theorem neg_mem {d : SplitRange w} {x : BitVec w} (hx : x ∈ d) : -x ∈ d.neg := by
  have h := sub_mem (mem_ofWord.2 (rfl : (0 : BitVec w) = 0)) hx
  rwa [show (0 : BitVec w) - x = -x from BitVec.zero_sub x] at h

/-! ## Bitwise operators and shifts -/

theorem not_mem {d : SplitRange w} {x : BitVec w} (hx : x ∈ d) : ~~~x ∈ d.not := by
  refine mem_joinMap hx fun r hr hr' => mem_ofRange.2 ?_
  simp only [Range.complement, BitVec.le_def, BitVec.toNat_not] at *
  omega

/-- The three-valued word of a split range holds its members. -/
theorem mem_toTernary {d : SplitRange w} {x : BitVec w} (hx : x ∈ d) : x ∈ d.toTernary := by
  obtain ⟨r, hr, hxr⟩ := mem_iff.1 hx
  exact Ternary.mem_joinAll _ (List.mem_map.2 ⟨r, hr, rfl⟩) (Ternary.mem_ofRange hxr.1 hxr.2)

/-- An operator that is sound on three-valued words is sound through them. -/
theorem viaTernary_mem {f : Ternary w → Ternary w → Ternary w} {g : BitVec w → BitVec w → BitVec w}
    (h : ∀ {a b : Ternary w} {x y : BitVec w}, x ∈ a → y ∈ b → g x y ∈ f a b)
    {d e : SplitRange w} {x y : BitVec w} (hx : x ∈ d) (hy : y ∈ e) : g x y ∈ viaTernary f d e :=
  mem_ofTernary (h (mem_toTernary hx) (mem_toTernary hy))

/-! ## Change of width -/

/-- A kept or zero-extended word as the steps from that of a lower end. -/
theorem setWidth_eq_steps {lo x : BitVec w} (h : lo ≤ x) (v : Nat) :
    x.setWidth v = lo.setWidth v + BitVec.ofNat v (x.toNat - lo.toNat) := by
  rw [BitVec.le_def] at h
  apply BitVec.eq_of_toNat_eq
  rw [BitVec.toNat_add, BitVec.toNat_ofNat, BitVec.toNat_setWidth, BitVec.toNat_setWidth,
    ← Nat.add_mod, Nat.add_sub_cancel' h]

theorem truncate_mem {d : SplitRange w} {x : BitVec w} (hx : x ∈ d) (v : Nat) :
    x.setWidth v ∈ d.truncate v := by
  refine mem_joinMap hx fun r hr hr' => ?_
  rw [setWidth_eq_steps hr]
  apply mem_wrapping
  simp only [BitVec.le_def, Range.steps] at *
  omega

theorem uext_mem {d : SplitRange w} {x : BitVec w} (hx : x ∈ d) (v : Nat) :
    x.setWidth v ∈ d.uext v := by
  rw [uext]
  split
  · exact truncate_mem hx v
  · rename_i h
    refine mem_joinMap hx fun r hr hr' => mem_ofRange.2 ?_
    have hle : w ≤ v := Nat.le_of_not_lt h
    simp only [Range.uext, BitVec.le_def, BitVec.toNat_setWidth_of_le hle] at *
    exact ⟨hr, hr'⟩

theorem sext_mem {d : SplitRange w} {x : BitVec w} (hx : x ∈ d) (v : Nat) :
    x.signExtend v ∈ d.sext v := by
  rw [sext]
  split
  · rename_i h
    rw [BitVec.signExtend_eq_setWidth_of_le x (Nat.le_of_lt h)]
    exact truncate_mem hx v
  · rename_i h
    have hle : w ≤ v := Nat.le_of_not_lt h
    exact mem_joinMap hx fun r hr hr' =>
      mem_ofRange.2 ⟨signExtend_le hle hr, signExtend_le hle hr'⟩

/-! ## Comparisons -/

theorem mem_truth {canBeFalse canBeTrue : Bool} {h : (canBeFalse || canBeTrue) = true} {b : Bool}
    (ht : b = true → canBeTrue = true) (hf : b = false → canBeFalse = true) :
    BitVec.ofBool b ∈ truth canBeFalse canBeTrue h := by
  rw [truth]
  split
  · exact mem_full _
  · rename_i hn
    rw [mem_ofWord]
    cases b <;> cases canBeFalse <;> cases canBeTrue <;> simp_all

theorem eq_of_word? {d : SplitRange w} {x y : BitVec w} (h : d.word? = some y) (hx : x ∈ d) :
    x = y := by
  obtain ⟨r, hr, hxr⟩ := mem_iff.1 hx
  rw [word?] at h
  split at h
  · rename_i s hs
    obtain rfl : r = s := by simpa [hs] using hr
    split at h
    · rename_i he
      obtain rfl := Option.some.inj h
      exact BitVec.le_antisymm (by rw [he]; exact hxr.2) hxr.1
    · cases h
  · cases h

theorem eq_mem {d e : SplitRange w} {x y : BitVec w} (hx : x ∈ d) (hy : y ∈ e) :
    BitVec.ofBool (x == y) ∈ d.eq e := by
  refine mem_truth (fun h => ?_) fun h => ?_
  · obtain rfl : x = y := by simpa using h
    exact meet?_isSome hx hy
  · rw [canDiffer]
    cases hd : d.word? with
    | none => rfl
    | some z =>
      have hne : e.word? ≠ some z := by
        intro he
        have hxy : x = y := (eq_of_word? hd hx).trans (eq_of_word? he hy).symm
        simp [hxy] at h
      simpa using fun he => hne he.symm

theorem ult_mem {d e : SplitRange w} {x y : BitVec w} (hx : x ∈ d) (hy : y ∈ e) :
    BitVec.ofBool (x.ult y) ∈ d.ult e := by
  have h1 := umin_le hx
  have h2 := le_umax hx
  have h3 := umin_le hy
  have h4 := le_umax hy
  simp only [BitVec.le_def] at *
  apply mem_truth <;> simp only [BitVec.ult, BitVec.ule, decide_eq_true_eq,
    decide_eq_false_iff_not] <;> omega

theorem ule_mem {d e : SplitRange w} {x y : BitVec w} (hx : x ∈ d) (hy : y ∈ e) :
    BitVec.ofBool (x.ule y) ∈ d.ule e := by
  have h1 := umin_le hx
  have h2 := le_umax hx
  have h3 := umin_le hy
  have h4 := le_umax hy
  simp only [BitVec.le_def] at *
  apply mem_truth <;> simp only [BitVec.ult, BitVec.ule, decide_eq_true_eq,
    decide_eq_false_iff_not] <;> omega

theorem slt_mem {d e : SplitRange w} {x y : BitVec w} (hx : x ∈ d) (hy : y ∈ e) :
    BitVec.ofBool (x.slt y) ∈ d.slt e := by
  have h1 := smin_sle hx
  have h2 := sle_smax hx
  have h3 := smin_sle hy
  have h4 := sle_smax hy
  simp only [BitVec.sle_iff_toInt_le] at *
  apply mem_truth <;> simp only [BitVec.slt, BitVec.sle, decide_eq_true_eq,
    decide_eq_false_iff_not] <;> omega

theorem sle_mem {d e : SplitRange w} {x y : BitVec w} (hx : x ∈ d) (hy : y ∈ e) :
    BitVec.ofBool (x.sle y) ∈ d.sle e := by
  have h1 := smin_sle hx
  have h2 := sle_smax hx
  have h3 := smin_sle hy
  have h4 := sle_smax hy
  simp only [BitVec.sle_iff_toInt_le] at *
  apply mem_truth <;> simp only [BitVec.slt, BitVec.sle, decide_eq_true_eq,
    decide_eq_false_iff_not] <;> omega

/-! ## Division -/

theorem udiv_mem {d e : SplitRange w} {x y : BitVec w} (hx : x ∈ d) (hy : y ∈ e) :
    Word.udiv x y ∈ d.udiv e :=
  mem_ofRange.2 ⟨Word.udiv_le_udiv (umin_le hx) (le_umax hy),
    Word.udiv_le_udiv (le_umax hx) (umin_le hy)⟩

theorem urem_mem {d e : SplitRange w} {x y : BitVec w} (hx : x ∈ d) (hy : y ∈ e) :
    Word.urem x y ∈ d.urem e := by
  have hxmax := le_umax hx
  have hymin := umin_le hy
  have hymax := le_umax hy
  have hrem : (Word.urem x y).toNat = x.toNat % y.toNat := BitVec.toNat_umod
  have hle : (Word.urem x y).toNat ≤ x.toNat := hrem ▸ Nat.mod_le _ _
  rw [urem]
  split
  · rename_i hq
    obtain ⟨hlo, hhi⟩ := Word.udiv_eq_of_between (umin_le hx) hxmax hymin hymax hq
    exact mem_ofRange.2 ⟨Word.urem_le_urem (umin_le hx) hymax hlo,
      Word.urem_le_urem hxmax hymin hhi⟩
  · split
    · refine mem_ofRange.2 ⟨by simp [Range.upTo, BitVec.le_def], ?_⟩
      simp only [Range.upTo, BitVec.le_def] at *
      omega
    · -- the divisor is not zero, so the remainder is below it
      rename_i hn
      rw [not_or] at hn
      have hpos : 0 < e.umin.toNat := by
        have : e.umin.toNat ≠ 0 := fun h0 => hn.1 (BitVec.eq_of_toNat_eq (by simpa using h0))
        omega
      simp only [BitVec.le_def] at *
      have hlt : x.toNat % y.toNat < y.toNat := Nat.mod_lt _ (by omega)
      have hw : 0 < w := by
        rcases Nat.eq_zero_or_pos w with rfl | hw
        · have := e.umin.isLt
          omega
        · exact hw
      have hone : (e.umax - 1).toNat = e.umax.toNat - 1 := by
        have h1 : (1 : BitVec w).toNat = 1 := BitVec.toNat_one hw
        rw [BitVec.toNat_sub_of_le (by rw [BitVec.le_def]; omega), h1]
      refine mem_ofRange.2 ⟨by simp [Range.upTo, BitVec.le_def], ?_⟩
      simp only [Range.upTo, BitVec.le_def, hone, hrem]
      omega

theorem exactOrFull_mem {d e : SplitRange w} {x y : BitVec w} (hx : x ∈ d) (hy : y ∈ e)
    (f : BitVec w → BitVec w → BitVec w) : f x y ∈ exactOrFull f d e := by
  rw [exactOrFull]
  split
  · rename_i hd he
    rw [eq_of_word? hd hx, eq_of_word? he hy]
    exact mem_ofWord.2 rfl
  · exact mem_full _

theorem panicOf_mem {e : SplitRange w} {y : BitVec w} (hy : y ∈ e) (code : Nat) :
    BitVec.ofNat panicWidth (if y = 0 then code else noPanic) ∈ e.panicOf code := by
  rw [panicOf]
  by_cases h0 : e.word? = some 0
  · rw [if_pos h0, if_pos (eq_of_word? h0 hy)]
    exact mem_ofWord.2 rfl
  · rw [if_neg h0]
    by_cases hm : e.has 0 = true
    · rw [if_pos hm]
      split
      · exact mem_join_right _ (mem_ofWord.2 rfl)
      · exact mem_join_left _ (mem_ofWord.2 rfl)
    · have hne : ¬ y = 0 := fun h => hm ((has_iff e 0).2 (by rwa [h] at hy))
      rw [if_neg hm, if_neg hne]
      exact mem_ofWord.2 rfl

end RefineCheck.SplitRange
