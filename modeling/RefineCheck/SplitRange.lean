/-
  RefineCheck.SplitRange

  Sets of words described by one unsigned interval among the non-negative words and
  one among the negative words. Splitting at the sign keeps both the unsigned and the
  signed bounds of a set.
-/

import RefineCheck.Ternary

namespace RefineCheck

/-! ## Intervals -/

/-- The words from `lo` to `hi`. -/
structure Range (w : Nat) where
  lo : BitVec w
  hi : BitVec w
  ordered : lo ≤ hi

namespace Range

variable {w : Nat}

/-- The words between the ends, in unsigned order. -/
protected def Mem (r : Range w) (x : BitVec w) : Prop := r.lo ≤ x ∧ x ≤ r.hi

instance : Membership (BitVec w) (Range w) where
  mem := Range.Mem

/-- The range of one word. -/
def single (x : BitVec w) : Range w := ⟨x, x, BitVec.le_refl x⟩

/-- The words up to a bound. -/
def upTo (x : BitVec w) : Range w := ⟨0, x, by simp [BitVec.le_def]⟩

/-- The words from a bound on. -/
def above (x : BitVec w) : Range w := ⟨x, BitVec.allOnes w, by simp [BitVec.le_def]; omega⟩

/-- The number of steps from the lower to the upper end. -/
def steps (r : Range w) : Nat := r.hi.toNat - r.lo.toNat

/-- The complements of the words. -/
def complement (r : Range w) : Range w where
  lo := ~~~r.hi
  hi := ~~~r.lo
  ordered := by
    have h := r.ordered
    rw [BitVec.le_def] at *
    rw [BitVec.toNat_not, BitVec.toNat_not]
    omega

end Range

/-! ## Signs of words -/

theorem msb_of_le {w : Nat} {x y : BitVec w} (h : x ≤ y) (hx : x.msb = true) : y.msb = true := by
  rw [BitVec.msb_eq_decide, decide_eq_true_eq] at *
  rw [BitVec.le_def] at h
  omega

theorem le_intMax_of_msb {w : Nat} {x : BitVec w} (hx : x.msb = false) : x ≤ BitVec.intMax w := by
  rw [BitVec.msb_eq_decide, decide_eq_false_iff_not] at hx
  rw [BitVec.le_def, BitVec.toNat_intMax]
  omega

theorem msb_intMax_eq_false (w : Nat) : (BitVec.intMax w).msb = false := by
  have := Nat.two_pow_pos (w - 1)
  rw [BitVec.msb_eq_decide, BitVec.toNat_intMax, decide_eq_false_iff_not]
  omega

theorem pos_of_msb {w : Nat} {x : BitVec w} (hx : x.msb = true) : 0 < w := by
  rcases Nat.eq_zero_or_pos w with rfl | h
  · simp [BitVec.msb] at hx
  · exact h

theorem intMin_le_of_msb {w : Nat} {x : BitVec w} (hx : x.msb = true) : BitVec.intMin w ≤ x := by
  have hw := pos_of_msb hx
  have hlt := Nat.two_pow_pred_lt_two_pow hw
  rw [BitVec.msb_eq_decide, decide_eq_true_eq] at hx
  rw [BitVec.le_def, BitVec.toNat_intMin, Nat.mod_eq_of_lt hlt]
  exact hx

theorem signExtend_le {w v : Nat} (h : w ≤ v) {x y : BitVec w} (hxy : x ≤ y) :
    x.signExtend v ≤ y.signExtend v := by
  have hm := msb_of_le hxy
  rw [BitVec.le_def] at *
  rw [BitVec.toNat_signExtend, BitVec.toNat_signExtend, BitVec.toNat_setWidth_of_le h,
    BitVec.toNat_setWidth_of_le h]
  split
  · rw [if_pos (hm ‹_›)]
    omega
  · omega

/-- A range in a larger width, filled up with zeros. -/
def Range.uext {w v : Nat} (h : w ≤ v) (r : Range w) : Range v where
  lo := r.lo.setWidth v
  hi := r.hi.setWidth v
  ordered := by
    rw [BitVec.le_def, BitVec.toNat_setWidth_of_le h, BitVec.toNat_setWidth_of_le h]
    exact r.ordered

/-- A range in a larger width, filled up with the sign bit. -/
def Range.sext {w v : Nat} (h : w ≤ v) (r : Range w) : Range v where
  lo := r.lo.signExtend v
  hi := r.hi.signExtend v
  ordered := signExtend_le h r.ordered

/-! ## Intervals of one sign -/

/-- The words from `lo` to `hi`, all of which have the sign bit `sign`. -/
structure Half (w : Nat) (sign : Bool) where
  lo : BitVec w
  hi : BitVec w
  ordered : lo ≤ hi
  lo_sign : lo.msb = sign
  hi_sign : hi.msb = sign
deriving DecidableEq

namespace Half

variable {w : Nat} {sign : Bool}

/-- The words between the ends. -/
protected def Mem (i : Half w sign) (x : BitVec w) : Prop := i.lo ≤ x ∧ x ≤ i.hi

instance : Membership (BitVec w) (Half w sign) where
  mem := Half.Mem

instance (i : Half w sign) (x : BitVec w) : Decidable (x ∈ i) :=
  inferInstanceAs (Decidable (_ ∧ _))

theorem msb_of_mem (i : Half w sign) {x : BitVec w} (h : x ∈ i) : x.msb = sign := by
  cases sign with
  | true => exact msb_of_le h.1 i.lo_sign
  | false =>
    cases hx : x.msb
    · rfl
    · exact absurd (msb_of_le h.2 hx) (by simp [i.hi_sign])

/-- The interval without its sign. -/
def toRange (i : Half w sign) : Range w := ⟨i.lo, i.hi, i.ordered⟩

/-- The interval between two words, if it is one of the sign. -/
def of? (sign : Bool) (lo hi : BitVec w) : Option (Half w sign) :=
  if h : lo ≤ hi ∧ lo.msb = sign ∧ hi.msb = sign then
    some ⟨lo, hi, h.1, h.2.1, h.2.2⟩
  else none

/-- The smallest interval that contains both. -/
def hull (i j : Half w sign) : Half w sign where
  lo := if i.lo ≤ j.lo then i.lo else j.lo
  hi := if i.hi ≤ j.hi then j.hi else i.hi
  ordered := by
    have hi := i.ordered
    have hj := j.ordered
    simp only [BitVec.le_def] at *
    split <;> split <;> omega
  lo_sign := by
    split
    · exact i.lo_sign
    · exact j.lo_sign
  hi_sign := by
    split
    · exact j.hi_sign
    · exact i.hi_sign

/-- The common words, if there are any. -/
def inter? (i j : Half w sign) : Option (Half w sign) :=
  of? sign (if i.lo ≤ j.lo then j.lo else i.lo) (if i.hi ≤ j.hi then i.hi else j.hi)

/-- Intervals with a common word have an intersection. -/
theorem inter?_isSome {i j : Half w sign} {x : BitVec w} (hi : x ∈ i) (hj : x ∈ j) :
    ∃ k, i.inter? j = some k := by
  rw [inter?, of?, dif_pos]
  · exact ⟨_, rfl⟩
  · refine ⟨?_, ?_, ?_⟩
    · have h1 := hi.1
      have h2 := hi.2
      have h3 := hj.1
      have h4 := hj.2
      simp only [BitVec.le_def] at *
      split <;> split <;> omega
    · split
      · exact j.lo_sign
      · exact i.lo_sign
    · split
      · exact i.hi_sign
      · exact j.hi_sign

/-- An interval that lies in another one is the intersection of the two. -/
theorem inter?_of_mem {i j : Half w sign} (hlo : i.lo ∈ j) (hhi : i.hi ∈ j) :
    i.inter? j = some i ∧ j.inter? i = some i := by
  have h1 : i.lo ≤ j.lo → j.lo = i.lo := fun h => BitVec.le_antisymm hlo.1 h
  have h2 : j.hi ≤ i.hi → j.hi = i.hi := fun h => BitVec.le_antisymm h hhi.2
  constructor
  · rw [inter?, ite_eq_right_iff.2 h1, if_pos hhi.2, of?, dif_pos ⟨i.ordered, i.lo_sign, i.hi_sign⟩]
  · rw [inter?, if_pos hlo.1, ite_eq_right_iff.2 h2, of?, dif_pos ⟨i.ordered, i.lo_sign, i.hi_sign⟩]

/-- Whether the first encloses the second. -/
def contains (i j : Half w sign) : Bool := decide (i.lo ≤ j.lo ∧ j.hi ≤ i.hi)

end Half

/-! ## Both signs together -/

/-- A nonempty set of words: an interval of non-negative words, an interval of negative
    words, or one of each. -/
structure SplitRange (w : Nat) where
  near : Option (Half w false)
  far : Option (Half w true)
  populated : near.isSome ∨ far.isSome
deriving DecidableEq

namespace SplitRange

variable {w : Nat}

/-- The words of either half. -/
protected def Mem (d : SplitRange w) (x : BitVec w) : Prop :=
  (∃ i ∈ d.near, x ∈ i) ∨ (∃ i ∈ d.far, x ∈ i)

instance : Membership (BitVec w) (SplitRange w) where
  mem := SplitRange.Mem

/-- Whether a word lies in one of the intervals. -/
def has (d : SplitRange w) (x : BitVec w) : Bool :=
  d.near.any (fun i => decide (x ∈ i)) || d.far.any (fun i => decide (x ∈ i))

theorem has_iff (d : SplitRange w) (x : BitVec w) : d.has x = true ↔ x ∈ d := by
  simp [has, Option.any_eq_true, Membership.mem, SplitRange.Mem]

theorem mem_near_of_msb {d : SplitRange w} {x : BitVec w} (hx : x ∈ d) (hs : x.msb = false) :
    ∃ i ∈ d.near, x ∈ i := by
  rcases hx with hx | ⟨i, -, hi⟩
  · exact hx
  · exact absurd (hs.symm.trans (i.msb_of_mem hi)) (by decide)

theorem mem_far_of_msb {d : SplitRange w} {x : BitVec w} (hx : x ∈ d) (hs : x.msb = true) :
    ∃ i ∈ d.far, x ∈ i := by
  rcases hx with ⟨i, -, hi⟩ | hx
  · exact absurd (hs.symm.trans (i.msb_of_mem hi)) (by decide)
  · exact hx

/-- An interval that ends in members lies in the interval of its sign. -/
theorem exists_near {d : SplitRange w} {i : Half w false} (hlo : i.lo ∈ d) (hhi : i.hi ∈ d) :
    ∃ j ∈ d.near, i.lo ∈ j ∧ i.hi ∈ j := by
  obtain ⟨j, hj, hloj⟩ := mem_near_of_msb hlo i.lo_sign
  obtain ⟨j', hj', hhij⟩ := mem_near_of_msb hhi i.hi_sign
  obtain rfl : j = j' := Option.some.inj (hj.symm.trans hj')
  exact ⟨j, hj, hloj, hhij⟩

theorem exists_far {d : SplitRange w} {i : Half w true} (hlo : i.lo ∈ d) (hhi : i.hi ∈ d) :
    ∃ j ∈ d.far, i.lo ∈ j ∧ i.hi ∈ j := by
  obtain ⟨j, hj, hloj⟩ := mem_far_of_msb hlo i.lo_sign
  obtain ⟨j', hj', hhij⟩ := mem_far_of_msb hhi i.hi_sign
  obtain rfl : j = j' := Option.some.inj (hj.symm.trans hj')
  exact ⟨j, hj, hloj, hhij⟩

/-- The set with these intervals, if there is one. -/
def ofHalves? (near : Option (Half w false)) (far : Option (Half w true)) :
    Option (SplitRange w) :=
  if h : near.isSome ∨ far.isSome then some ⟨near, far, h⟩ else none

/-- The set of all words. -/
def full (w : Nat) : SplitRange w where
  near := some {
    lo := 0
    hi := BitVec.intMax w
    ordered := by simp [BitVec.le_def]
    lo_sign := BitVec.msb_zero
    hi_sign := msb_intMax_eq_false w }
  far := Half.of? true (BitVec.intMin w) (BitVec.allOnes w)
  populated := .inl rfl

theorem mem_full (x : BitVec w) : x ∈ full w := by
  cases hs : x.msb
  · exact .inl ⟨_, rfl, by simp [BitVec.le_def], le_intMax_of_msb hs⟩
  · have hle := intMin_le_of_msb hs
    have htop : x ≤ BitVec.allOnes w := by
      rw [BitVec.le_def, BitVec.toNat_allOnes]
      omega
    refine .inr ⟨⟨BitVec.intMin w, BitVec.allOnes w, BitVec.le_trans hle htop, ?_, ?_⟩, ?_, hle, htop⟩
    · rw [BitVec.msb_intMin]
      exact decide_eq_true (pos_of_msb hs)
    · exact msb_of_le htop hs
    · simp only [full, Half.of?]
      rw [dif_pos]
      · rfl
      · refine ⟨BitVec.le_trans hle htop, ?_, msb_of_le htop hs⟩
        rw [BitVec.msb_intMin]
        exact decide_eq_true (pos_of_msb hs)

/-- Every word of a range, which is cut where the sign changes. -/
def ofRange (r : Range w) : SplitRange w where
  near :=
    if h : r.lo.msb = false then some {
      lo := r.lo
      hi := if r.hi.msb then BitVec.intMax w else r.hi
      ordered := by
        split
        · exact le_intMax_of_msb h
        · exact r.ordered
      lo_sign := h
      hi_sign := by
        split
        · exact msb_intMax_eq_false w
        · simp_all }
    else none
  far :=
    if h : r.hi.msb = true then some {
      lo := if r.lo.msb then r.lo else BitVec.intMin w
      hi := r.hi
      ordered := by
        split
        · exact r.ordered
        · exact intMin_le_of_msb h
      lo_sign := by
        split
        · assumption
        · rw [BitVec.msb_intMin]
          exact decide_eq_true (pos_of_msb h)
      hi_sign := h }
    else none
  populated := by
    by_cases h : r.lo.msb = false
    · left
      rw [dif_pos h]
      rfl
    · right
      rw [dif_pos (msb_of_le r.ordered (by simpa using h))]
      rfl

/-- The set of one word. -/
def ofWord (x : BitVec w) : SplitRange w := ofRange (.single x)

/-- The smallest split range that holds every member of a three-valued word. Its smallest member
    tells whether there are non-negative ones, its largest whether there are negative ones. -/
def ofTernary (a : Ternary w) : SplitRange w where
  near :=
    if h : a.umin.msb = false then some {
      lo := a.umin &&& ~~~BitVec.intMin w
      hi := a.umax &&& ~~~BitVec.intMin w
      ordered := by
        apply Word.le_of_bits
        intro k hk hm
        rw [BitVec.getLsbD_and, Bool.and_eq_true] at hm ⊢
        have hm' : (a.ones.getLsbD k && (~~~a.zeros).getLsbD k) = true := by
          rw [← BitVec.getLsbD_and]
          exact hm.1
        rw [Bool.and_eq_true] at hm'
        exact ⟨hm'.1, hm.2⟩
      lo_sign := by simp [h]
      hi_sign := by
        rw [BitVec.msb_and, BitVec.msb_not, BitVec.msb_intMin]
        rcases Nat.eq_zero_or_pos w with rfl | hw
        · simp [BitVec.msb]
        · simp [hw] }
    else none
  far :=
    if h : a.umax.msb = true then some {
      lo := a.umin ||| BitVec.intMin w
      hi := a.umax ||| BitVec.intMin w
      ordered := by
        apply Word.le_of_bits
        intro k hk hm
        rw [BitVec.getLsbD_or, Bool.or_eq_true] at hm ⊢
        refine hm.imp_left fun h' => ?_
        have hm' : (a.ones.getLsbD k && (~~~a.zeros).getLsbD k) = true := by
          rw [← BitVec.getLsbD_and]
          exact h'
        rw [Bool.and_eq_true] at hm'
        exact hm'.1
      lo_sign := by
        rw [BitVec.msb_or, BitVec.msb_intMin]
        simp [pos_of_msb h]
      hi_sign := by simp [h] }
    else none
  populated := by
    by_cases h : a.umin.msb = false
    · left
      rw [dif_pos h]
      rfl
    · right
      rw [dif_pos (msb_of_le a.umin_le_umax (by simpa using h))]
      rfl

/-- The split range of a three-valued word holds its members. -/
theorem mem_ofTernary {a : Ternary w} {x : BitVec w} (hx : x ∈ a) : x ∈ ofTernary a := by
  have hmin := Ternary.umin_le hx
  have hmax := Ternary.le_umax hx
  cases hs : x.msb
  · have hl : a.umin.msb = false := by
      cases h : a.umin.msb
      · rfl
      · simp [msb_of_le hmin h] at hs
    left
    simp only [ofTernary, Option.mem_def, dif_pos hl]
    refine ⟨_, rfl, BitVec.le_trans (Word.le_of_bits fun k _ h => ?_) hmin,
      Word.le_of_bits fun k hk h => ?_⟩
    · rw [BitVec.getLsbD_and, Bool.and_eq_true] at h
      exact h.1
    · -- below the sign bit the mask changes nothing, and a non-negative word has no sign bit
      have ho : a.umax.getLsbD k = true := Ternary.ones_of_mem hx hk h
      have hsign : (BitVec.intMin w).getLsbD k = false := by
        rw [BitVec.getLsbD_intMin, decide_eq_false_iff_not]
        intro hkw
        rw [BitVec.msb_eq_getLsbD_last, show w - 1 = k by omega] at hs
        simp [hs] at h
      rw [BitVec.getLsbD_and, BitVec.getLsbD_not, ho, hsign, decide_eq_true hk]
      rfl
  · have hh : a.umax.msb = true := msb_of_le hmax hs
    right
    simp only [ofTernary, Option.mem_def, dif_pos hh]
    refine ⟨_, rfl, Word.le_of_bits fun k hk h => ?_,
      BitVec.le_trans hmax (Word.le_of_bits fun k _ h => ?_)⟩
    · rw [BitVec.getLsbD_or, Bool.or_eq_true] at h
      rcases h with h | h
      · cases hxk : x.getLsbD k
        · simp [Ternary.umin, Ternary.zeros_of_mem hx hk hxk] at h
        · rfl
      · rw [BitVec.getLsbD_intMin, decide_eq_true_eq] at h
        rw [BitVec.msb_eq_getLsbD_last] at hs
        rwa [show k = w - 1 by omega]
    · rw [BitVec.getLsbD_or, h, Bool.true_or]

/-- The intervals of a three-valued word end in members. -/
theorem near_ends_ofTernary {a : Ternary w} {i : Half w false} (hi : (ofTernary a).near = some i) :
    i.lo ∈ a ∧ i.hi ∈ a := by
  simp only [ofTernary] at hi
  split at hi
  · rename_i hsign
    obtain rfl := Option.some.inj hi
    -- without the sign bit, which the least member clears
    constructor <;> refine Ternary.mem_of_either a.umin_mem a.umax_mem fun k hk => ?_ <;>
      simp only [BitVec.getLsbD_and, BitVec.getLsbD_not, BitVec.getLsbD_intMin, hk, decide_true,
        Bool.true_and]
    all_goals
      by_cases hkw : k + 1 = w
      · left
        rw [BitVec.msb_eq_getLsbD_last, show w - 1 = k by omega] at hsign
        simp [hkw, hsign]
      · simp [hkw]
  · cases hi

theorem far_ends_ofTernary {a : Ternary w} {i : Half w true} (hi : (ofTernary a).far = some i) :
    i.lo ∈ a ∧ i.hi ∈ a := by
  simp only [ofTernary] at hi
  split at hi
  · rename_i hsign
    obtain rfl := Option.some.inj hi
    -- with the sign bit, which the greatest member sets
    constructor <;> refine Ternary.mem_of_either a.umin_mem a.umax_mem fun k hk => ?_ <;>
      simp only [BitVec.getLsbD_or, BitVec.getLsbD_intMin]
    all_goals
      by_cases hkw : k + 1 = w
      · right
        rw [BitVec.msb_eq_getLsbD_last, show w - 1 = k by omega] at hsign
        simp [hkw, hsign]
      · simp [hkw]
  · cases hi

/-- The truth values a test admits, of which there is at least one, as a word of width one. -/
def truth (canBeFalse canBeTrue : Bool) (_ : (canBeFalse || canBeTrue) = true) : SplitRange 1 :=
  if canBeFalse && canBeTrue then full 1 else ofWord (BitVec.ofBool canBeTrue)

/-! ## Intervals and bounds -/

/-- The intervals, the non-negative one first. -/
def ranges (d : SplitRange w) : List (Range w) :=
  (d.near.map Half.toRange).toList ++ (d.far.map Half.toRange).toList

theorem ranges_ne_nil (d : SplitRange w) : d.ranges ≠ [] := by
  have h := d.populated
  rw [ranges]
  cases hn : d.near with
  | some i => simp
  | none =>
    cases hf : d.far with
    | some j => simp
    | none => simp [hn, hf] at h

/-- The smallest member as an unsigned number. -/
def umin (d : SplitRange w) : BitVec w :=
  match d.near, d.far with
  | some i, _ => i.lo
  | none, some i => i.lo
  | none, none => 0

/-- The largest member as an unsigned number. -/
def umax (d : SplitRange w) : BitVec w :=
  match d.near, d.far with
  | _, some i => i.hi
  | some i, none => i.hi
  | none, none => 0

/-- The smallest member as a signed number. -/
def smin (d : SplitRange w) : BitVec w :=
  match d.near, d.far with
  | _, some i => i.lo
  | some i, none => i.lo
  | none, none => 0

/-- The largest member as a signed number. -/
def smax (d : SplitRange w) : BitVec w :=
  match d.near, d.far with
  | some i, _ => i.hi
  | none, some i => i.hi
  | none, none => 0

/-- The smallest member is an end of one of the intervals. -/
theorem umin_of_ends {d : SplitRange w} {p : BitVec w → Prop} (hnear : ∀ i ∈ d.near, p i.lo)
    (hfar : ∀ i ∈ d.far, p i.lo) : p d.umin := by
  have hpop := d.populated
  unfold umin
  cases hn : d.near with
  | some i => exact hnear i hn
  | none =>
    cases hf : d.far with
    | some i => exact hfar i hf
    | none => simp [hn, hf] at hpop

theorem umin_le {d : SplitRange w} {x : BitVec w} (h : x ∈ d) : d.umin ≤ x := by
  unfold umin
  rcases h with ⟨i, hi, hx⟩ | ⟨j, hj, hx⟩
  · rw [hi]
    exact hx.1
  · rw [hj]
    cases hn : d.near with
    | none => exact hx.1
    | some i =>
      -- a negative word lies above every non-negative one
      have hs : ¬ (x ≤ i.lo) := fun hle => by
        have h1 := msb_of_le hx.1 j.lo_sign
        have h2 := msb_of_le hle h1
        simp [i.lo_sign] at h2
      show i.lo ≤ x
      rw [BitVec.le_def] at *
      omega

theorem le_umax {d : SplitRange w} {x : BitVec w} (h : x ∈ d) : x ≤ d.umax := by
  unfold umax
  rcases h with ⟨i, hi, hx⟩ | ⟨j, hj, hx⟩
  · rw [hi]
    cases hf : d.far with
    | none => exact hx.2
    | some j =>
      have hs : ¬ (j.hi ≤ x) := fun hle => by
        have h1 := msb_of_le hle j.hi_sign
        have h2 := msb_of_le hx.2 h1
        simp [i.hi_sign] at h2
      show x ≤ j.hi
      rw [BitVec.le_def] at *
      omega
  · rw [hj]
    exact hx.2

theorem smin_sle {d : SplitRange w} {x : BitVec w} (h : x ∈ d) : d.smin.sle x = true := by
  unfold smin
  rcases h with ⟨i, hi, hx⟩ | ⟨j, hj, hx⟩
  · rw [hi]
    cases hf : d.far with
    | none => exact Word.sle_of_le hx.1 (i.lo_sign.trans (i.msb_of_mem hx).symm)
    | some j => exact Word.sle_of_msb j.lo_sign (i.msb_of_mem hx)
  · rw [hj]
    exact Word.sle_of_le hx.1 (j.lo_sign.trans (j.msb_of_mem hx).symm)

theorem sle_smax {d : SplitRange w} {x : BitVec w} (h : x ∈ d) : x.sle d.smax = true := by
  unfold smax
  rcases h with ⟨i, hi, hx⟩ | ⟨j, hj, hx⟩
  · rw [hi]
    exact Word.sle_of_le hx.2 ((i.msb_of_mem hx).trans i.hi_sign.symm)
  · rw [hj]
    cases hn : d.near with
    | none => exact Word.sle_of_le hx.2 ((j.msb_of_mem hx).trans j.hi_sign.symm)
    | some i => exact Word.sle_of_msb (j.msb_of_mem hx) i.hi_sign

theorem exists_mem (d : SplitRange w) : ∃ x, x ∈ d := by
  have h := d.populated
  cases hn : d.near with
  | some i => exact ⟨i.lo, .inl ⟨i, hn, BitVec.le_refl _, i.ordered⟩⟩
  | none =>
    cases hf : d.far with
    | some j => exact ⟨j.lo, .inr ⟨j, hf, BitVec.le_refl _, j.ordered⟩⟩
    | none => simp [hn, hf] at h

theorem umin_le_umax (d : SplitRange w) : d.umin ≤ d.umax := by
  obtain ⟨x, hx⟩ := d.exists_mem
  exact BitVec.le_trans (umin_le hx) (le_umax hx)

theorem smin_sle_smax (d : SplitRange w) : d.smin.sle d.smax = true := by
  obtain ⟨x, hx⟩ := d.exists_mem
  have h1 := smin_sle hx
  have h2 := sle_smax hx
  rw [BitVec.sle_iff_toInt_le] at *
  omega

/-- The member, if there is just one. -/
def word? (d : SplitRange w) : Option (BitVec w) :=
  match d.ranges with
  | [r] => if r.lo = r.hi then some r.lo else none
  | _ => none

theorem mem_of_word? {d : SplitRange w} {x : BitVec w} (h : d.word? = some x) : x ∈ d := by
  unfold word? ranges at h
  cases hn : d.near with
  | some i =>
    cases hf : d.far with
    | some j => simp [hn, hf] at h
    | none =>
      simp only [hn, hf, Option.map_some, Option.map_none, Option.toList_some, Option.toList_none,
        List.append_nil, Half.toRange] at h
      split at h
      · obtain rfl : i.lo = x := by simpa using h
        exact .inl ⟨i, hn, BitVec.le_refl _, i.ordered⟩
      · simp at h
  | none =>
    cases hf : d.far with
    | some j =>
      simp only [hn, hf, Option.map_some, Option.map_none, Option.toList_some, Option.toList_none,
        List.nil_append, Half.toRange] at h
      split at h
      · obtain rfl : j.lo = x := by simpa using h
        exact .inr ⟨j, hf, BitVec.le_refl _, j.ordered⟩
      · simp at h
    | none => simp [hn, hf] at h

/-! ## Order and lattice -/

/-- Whether each interval of `e` lies in the interval of `d` of the same sign. -/
def contains (d e : SplitRange w) : Bool :=
  let inside {sign : Bool} (outer inner : Option (Half w sign)) : Bool :=
    inner.all fun j => outer.any fun i => i.contains j
  inside d.near e.near && inside d.far e.far

/-- The smallest split range that contains both. -/
def join (d e : SplitRange w) : SplitRange w where
  near := Option.merge Half.hull d.near e.near
  far := Option.merge Half.hull d.far e.far
  populated := by
    have h := d.populated
    cases hn : d.near <;> cases hf : d.far <;> cases e.near <;> cases e.far <;> simp_all

/-- The common words of the intervals of one sign, if there are any. -/
def common {sign : Bool} (i j : Option (Half w sign)) : Option (Half w sign) :=
  i.bind fun i => j.bind fun j => i.inter? j

/-- The common members, if there are any. -/
def meet? (d e : SplitRange w) : Option (SplitRange w) :=
  ofHalves? (common d.near e.near) (common d.far e.far)

theorem meet?_isSome {d e : SplitRange w} {x : BitVec w} (hd : x ∈ d) (he : x ∈ e) :
    (d.meet? e).isSome = true := by
  have inter {sign : Bool} {i j : Half w sign} (hi : x ∈ i) (hj : x ∈ j) :
      (i.inter? j).isSome = true := Option.isSome_iff_exists.2 (Half.inter?_isSome hi hj)
  rw [meet?, ofHalves?, dif_pos]
  · rfl
  · rcases hd with ⟨i, hi, hx⟩ | ⟨i, hi, hx⟩ <;> rcases he with ⟨j, hj, hy⟩ | ⟨j, hj, hy⟩
    · left
      rw [common, hi, hj]
      exact inter hx hy
    · exact absurd ((i.msb_of_mem hx).symm.trans (j.msb_of_mem hy)) (by simp)
    · exact absurd ((i.msb_of_mem hx).symm.trans (j.msb_of_mem hy)) (by simp)
    · right
      rw [common, hi, hj]
      exact inter hx hy

/-- The smallest split range that contains all of a nonempty list. -/
def joinAll : (l : List (SplitRange w)) → l ≠ [] → SplitRange w
  | d :: rest, _ => rest.foldl join d

/-- The smallest split range that contains what a function gives for every interval. -/
def joinMap {v : Nat} (d : SplitRange w) (f : Range w → SplitRange v) : SplitRange v :=
  joinAll (d.ranges.map f) (by simpa using d.ranges_ne_nil)

/-- The smallest three-valued word that holds every member. -/
def toTernary (d : SplitRange w) : Ternary w :=
  Ternary.joinAll (d.ranges.map fun r => Ternary.ofRange r.lo r.hi) (by simpa using d.ranges_ne_nil)

/-- The intervals as `[lo..hi]`, with `∪` between them. -/
def text (d : SplitRange w) : String :=
  "∪".intercalate (d.ranges.map fun r => s!"[{r.lo.toNat}..{r.hi.toNat}]")

end SplitRange

end RefineCheck
