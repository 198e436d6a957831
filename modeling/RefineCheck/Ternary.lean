/-
  RefineCheck.Ternary

  Three-valued words: each bit is zero, one or unknown. A three-valued word
  stands for the set of words that agree with its known bits.
-/

import RefineCheck.Operator

namespace RefineCheck

/-- A set of words described bit by bit. A bit may be zero if it is set in `zeros`
    and may be one if it is set in `ones`; every bit may be at least one of the two. -/
structure Ternary (w : Nat) where
  zeros : BitVec w
  ones : BitVec w
  total : zeros ||| ones = BitVec.allOnes w
deriving DecidableEq

namespace Ternary

variable {w : Nat}

/-! ## Members -/

/-- A word is a member if each of its bits is a possible one. -/
protected def Mem (a : Ternary w) (x : BitVec w) : Prop :=
  x &&& ~~~a.ones = 0 ∧ ~~~x &&& ~~~a.zeros = 0

instance : Membership (BitVec w) (Ternary w) where
  mem := Ternary.Mem

instance (a : Ternary w) (x : BitVec w) : Decidable (x ∈ a) :=
  inferInstanceAs (Decidable (_ ∧ _))

/-- Every bit is zero or one, so a bit that cannot be zero is one. -/
theorem getLsbD_total (a : Ternary w) {k : Nat} (h : k < w) :
    (a.zeros.getLsbD k || a.ones.getLsbD k) = true := by
  rw [← BitVec.getLsbD_or, a.total]
  simp [h]

theorem mem_iff (a : Ternary w) (x : BitVec w) :
    x ∈ a ↔ ∀ k < w, if x.getLsbD k then a.ones.getLsbD k = true else a.zeros.getLsbD k = true := by
  constructor
  · rintro ⟨h₁, h₀⟩ k hk
    have e₁ := congrArg (BitVec.getLsbD · k) h₁
    have e₀ := congrArg (BitVec.getLsbD · k) h₀
    simp only [BitVec.getLsbD_and, BitVec.getLsbD_not] at e₁ e₀
    cases hx : x.getLsbD k <;> simp_all
  · intro h
    constructor <;>
    · apply BitVec.eq_of_getLsbD_eq
      intro k hk
      have hb := h k hk
      rw [BitVec.getLsbD_and, BitVec.getLsbD_not]
      by_cases hx : x.getLsbD k = true
      · rw [if_pos hx] at hb
        simp [hx, hb]
      · rw [if_neg hx] at hb
        simp [hx, hb]

theorem mem_of_getLsbD {a : Ternary w} {x : BitVec w}
    (h₁ : ∀ k < w, x.getLsbD k = true → a.ones.getLsbD k = true)
    (h₀ : ∀ k < w, x.getLsbD k = false → a.zeros.getLsbD k = true) : x ∈ a := by
  rw [mem_iff]
  intro k hk
  cases hx : x.getLsbD k
  · simpa using h₀ k hk hx
  · simpa using h₁ k hk hx

theorem ones_of_mem {a : Ternary w} {x : BitVec w} (h : x ∈ a) {k : Nat} (hk : k < w)
    (hx : x.getLsbD k = true) : a.ones.getLsbD k = true := by
  simpa [hx] using (mem_iff a x).1 h k hk

theorem zeros_of_mem {a : Ternary w} {x : BitVec w} (h : x ∈ a) {k : Nat} (hk : k < w)
    (hx : x.getLsbD k = false) : a.zeros.getLsbD k = true := by
  simpa [hx] using (mem_iff a x).1 h k hk

/-- Flags that cover every bit position are total. -/
theorem total_of_bits {zeros ones : BitVec w}
    (h : ∀ k < w, (zeros.getLsbD k || ones.getLsbD k) = true) :
    zeros ||| ones = BitVec.allOnes w := by
  apply BitVec.eq_of_getLsbD_eq
  intro k hk
  rw [BitVec.getLsbD_or, h k hk]
  simp [hk]

/-! ## Construction -/

/-- The bits in `known` take their value from `x`, the others are unknown. -/
def ofKnown (x known : BitVec w) : Ternary w where
  zeros := ~~~x ||| ~~~known
  ones := x ||| ~~~known
  total := by
    apply BitVec.eq_of_getLsbD_eq
    intro k hk
    simp only [BitVec.getLsbD_or, BitVec.getLsbD_not, BitVec.getLsbD_allOnes]
    cases x.getLsbD k <;> simp [hk]

/-- The set of one word. -/
def ofWord (x : BitVec w) : Ternary w where
  zeros := ~~~x
  ones := x
  total := by
    apply BitVec.eq_of_getLsbD_eq
    intro k hk
    simp only [BitVec.getLsbD_or, BitVec.getLsbD_not, BitVec.getLsbD_allOnes]
    cases x.getLsbD k <;> simp [hk]

/-- The set of all words. -/
def full (w : Nat) : Ternary w where
  zeros := BitVec.allOnes w
  ones := BitVec.allOnes w
  total := BitVec.or_self

theorem mem_ofKnown {x v known : BitVec w} :
    x ∈ ofKnown v known ↔ ∀ k < w, known.getLsbD k = true → x.getLsbD k = v.getLsbD k := by
  rw [mem_iff]
  constructor
  · intro h k hk hknown
    have hb := h k hk
    simp only [ofKnown, BitVec.getLsbD_or, BitVec.getLsbD_not, hk, hknown, decide_true,
      Bool.true_and, Bool.not_true, Bool.or_false] at hb
    cases hx : x.getLsbD k <;> simp_all
  · intro h k hk
    have hb := h k hk
    simp only [ofKnown, BitVec.getLsbD_or, BitVec.getLsbD_not, hk, decide_true, Bool.true_and]
    cases hknown : known.getLsbD k
    · simp
    · rw [hb hknown]
      cases v.getLsbD k <;> simp

theorem mem_full (x : BitVec w) : x ∈ full w := by
  apply mem_of_getLsbD <;> simp +contextual [full]

/-- The three-valued word with these flags, if each bit has one. -/
def ofFlags? (zeros ones : BitVec w) : Option (Ternary w) :=
  if h : zeros ||| ones = BitVec.allOnes w then some ⟨zeros, ones, h⟩ else none

/-- The smallest three-valued word that holds every word from `lo` to `hi`: the bits
    above the highest one where the ends differ are known. -/
def ofRange (lo hi : BitVec w) : Ternary w :=
  ofKnown lo (~~~Word.spread (lo ^^^ hi))

/-- The three-valued word whose bit `k` is the parity of `lo k` if `lo k = hi k`, and
    unknown otherwise. -/
def ofExtremes (lo hi : Nat → Int) : Ternary w :=
  ofKnown (Word.ofBits w fun k => lo k % 2 == 1) (Word.ofBits w fun k => lo k == hi k)

/-- The truth values a test admits, of which there is at least one, as a word of width one. -/
def truth (canBeFalse canBeTrue : Bool) (h : (canBeFalse || canBeTrue) = true) : Ternary 1 where
  zeros := BitVec.ofBool canBeFalse
  ones := BitVec.ofBool canBeTrue
  total := by cases canBeFalse <;> cases canBeTrue <;> simp_all

/-! ## Bits and bounds -/

/-- The bits that may be both zero and one. -/
def unknown (a : Ternary w) : BitVec w := a.zeros &&& a.ones

/-- The bits with a single possible value. -/
def known (a : Ternary w) : BitVec w := ~~~a.unknown

/-- The smallest member as an unsigned number. -/
def umin (a : Ternary w) : BitVec w := a.ones &&& ~~~a.zeros

/-- The largest member as an unsigned number. -/
def umax (a : Ternary w) : BitVec w := a.ones

/-- The smallest member as a signed number: it has the sign bit if it may. -/
def smin (a : Ternary w) : BitVec w :=
  (a.umin &&& ~~~BitVec.intMin w) ||| (a.ones &&& BitVec.intMin w)

/-- The largest member as a signed number: it has the sign bit only if it must. -/
def smax (a : Ternary w) : BitVec w :=
  (a.ones &&& ~~~BitVec.intMin w) ||| (a.umin &&& BitVec.intMin w)

theorem umin_mem (a : Ternary w) : a.umin ∈ a := by
  apply mem_of_getLsbD
  · intro k hk h
    simp only [umin, BitVec.getLsbD_and, Bool.and_eq_true] at h
    exact h.1
  · intro k hk h
    have := a.getLsbD_total hk
    simp only [umin, BitVec.getLsbD_and, BitVec.getLsbD_not, hk, decide_true, Bool.true_and] at h
    revert h this
    cases a.zeros.getLsbD k <;> cases a.ones.getLsbD k <;> simp

theorem umax_mem (a : Ternary w) : a.umax ∈ a := by
  apply mem_of_getLsbD
  · intro k _ h
    exact h
  · intro k hk h
    have := a.getLsbD_total hk
    have h' : a.ones.getLsbD k = false := h
    simpa [h'] using this

theorem getLsbD_known (a : Ternary w) {k : Nat} (hk : k < w) :
    a.known.getLsbD k = !(a.zeros.getLsbD k && a.ones.getLsbD k) := by
  simp [known, unknown, hk]

theorem getLsbD_umin (a : Ternary w) {k : Nat} (hk : k < w) :
    a.umin.getLsbD k = !a.zeros.getLsbD k := by
  have := a.getLsbD_total hk
  revert this
  simp only [umin, BitVec.getLsbD_and, BitVec.getLsbD_not, hk, decide_true, Bool.true_and]
  cases a.zeros.getLsbD k <;> cases a.ones.getLsbD k <;> simp

/-- Members agree with the smallest one on the known bits. -/
theorem mem_iff_known {a : Ternary w} {x : BitVec w} :
    x ∈ a ↔ ∀ k < w, a.known.getLsbD k = true → x.getLsbD k = a.umin.getLsbD k := by
  rw [mem_iff]
  refine forall_congr' fun k => forall_congr' fun hk => ?_
  rw [a.getLsbD_known hk, a.getLsbD_umin hk]
  have := a.getLsbD_total hk
  revert this
  cases a.zeros.getLsbD k <;> cases a.ones.getLsbD k <;> cases x.getLsbD k <;> simp

/-- A word that takes each bit from one of two members is a member. -/
theorem mem_of_either {a : Ternary w} {x y z : BitVec w} (hx : x ∈ a) (hy : y ∈ a)
    (h : ∀ k < w, z.getLsbD k = x.getLsbD k ∨ z.getLsbD k = y.getLsbD k) : z ∈ a := by
  rw [mem_iff] at *
  intro k hk
  rcases h k hk with h | h
  · rw [h]
    exact hx k hk
  · rw [h]
    exact hy k hk

theorem umin_le {a : Ternary w} {x : BitVec w} (h : x ∈ a) : a.umin ≤ x := by
  apply Word.le_of_bits
  intro k hk hm
  cases hx : x.getLsbD k
  · have hz := zeros_of_mem h hk hx
    simp [umin, hz] at hm
  · rfl

theorem le_umax {a : Ternary w} {x : BitVec w} (h : x ∈ a) : x ≤ a.umax :=
  Word.le_of_bits fun _ hk hx => ones_of_mem h hk hx

theorem umin_le_umax (a : Ternary w) : a.umin ≤ a.umax := umin_le a.umax_mem

theorem getLsbD_intMin_of_lt {k : Nat} (hk : k < w - 1) : (BitVec.intMin w).getLsbD k = false := by
  rw [BitVec.getLsbD_intMin]
  have : ¬ k + 1 = w := by omega
  simp [this]

theorem msb_smin (a : Ternary w) : a.smin.msb = a.ones.msb := by
  rcases Nat.eq_zero_or_pos w with rfl | h
  · simp [BitVec.msb]
  · have h' : 0 < w := h
    simp [smin, umin, BitVec.msb_intMin, h']

theorem msb_smax (a : Ternary w) : a.smax.msb = (a.ones.msb && !a.zeros.msb) := by
  rcases Nat.eq_zero_or_pos w with rfl | h
  · simp [BitVec.msb]
  · have h' : 0 < w := h
    simp [smax, umin, BitVec.msb_intMin, h']

theorem smin_sle {a : Ternary w} {x : BitVec w} (h : x ∈ a) : a.smin.sle x = true := by
  apply Word.sle_of_bits
  · intro hx
    rw [msb_smin, BitVec.msb_eq_getLsbD_last]
    rw [BitVec.msb_eq_getLsbD_last] at hx
    exact ones_of_mem h (BitVec.lt_of_getLsbD hx) hx
  · intro k hk hm
    have hkw : k < w := by omega
    have hm' : a.umin.getLsbD k = true := by
      simp only [smin, BitVec.getLsbD_or, BitVec.getLsbD_and, BitVec.getLsbD_not,
        getLsbD_intMin_of_lt hk, hkw, decide_true, Bool.not_false, Bool.and_true,
        Bool.and_false, Bool.or_false] at hm
      exact hm
    cases hx : x.getLsbD k
    · have hz := zeros_of_mem h hkw hx
      simp [umin, hz] at hm'
    · rfl

theorem sle_smax {a : Ternary w} {x : BitVec w} (h : x ∈ a) : x.sle a.smax = true := by
  apply Word.sle_of_bits
  · intro hs
    rw [msb_smax] at hs
    rw [BitVec.msb_eq_getLsbD_last]
    rw [BitVec.msb_eq_getLsbD_last, BitVec.msb_eq_getLsbD_last] at hs
    cases hx : x.getLsbD (w - 1)
    · have hw : w - 1 < w := by
        simp only [Bool.and_eq_true] at hs
        exact BitVec.lt_of_getLsbD hs.1
      have hz := zeros_of_mem h hw hx
      simp [hz] at hs
    · rfl
  · intro k hk hx
    have hkw : k < w := by omega
    have ho := ones_of_mem h hkw hx
    simp only [smax, BitVec.getLsbD_or, BitVec.getLsbD_and, BitVec.getLsbD_not,
      getLsbD_intMin_of_lt hk, hkw, ho, decide_true, Bool.not_false, Bool.and_true, Bool.true_or]

theorem smin_sle_smax (a : Ternary w) : a.smin.sle a.smax = true := by
  have h1 := smin_sle a.umin_mem
  have h2 := sle_smax a.umin_mem
  rw [BitVec.sle_iff_toInt_le] at *
  omega

/-- The member, if there is just one. -/
def word? (a : Ternary w) : Option (BitVec w) :=
  if a.unknown = 0 then some a.ones else none

/-- Whether some bit can be one. -/
def canBeTrue (a : Ternary w) : Bool := a.ones != 0

/-- Whether some bit can be zero, or there is none. -/
def canBeFalse (a : Ternary w) : Bool := a.zeros != 0 || w == 0

/-- Every member, in increasing order. -/
def members (a : Ternary w) : List (BitVec w) :=
  (Word.subsets a.unknown).map (a.umin ||| ·)

theorem members_ne_nil (a : Ternary w) : a.members ≠ [] := by
  rw [members, Ne, List.map_eq_nil_iff]
  exact Word.subsetsBelow_ne_nil _ _

/-- The smallest member that is not below the bound. -/
def next? (a : Ternary w) (bound : BitVec w) : Option (BitVec w) :=
  let conflicts := (bound ^^^ a.umin) &&& a.known
  if conflicts = 0 then some bound
  else
    let j := Word.highestBit conflicts
    let above := ~~~Word.low w (j + 1)
    if a.umin.getLsbD j then
      -- bit `j` has to rise: keep what is above, take the least below
      some ((bound &&& above) ||| BitVec.twoPow w j ||| (a.umin &&& Word.low w j))
    else
      -- bit `j` has to drop, so the lowest unknown zero above it rises
      let candidates := ~~~bound &&& a.unknown &&& above
      if candidates = 0 then none
      else
        let p := Word.lowestBit candidates
        some ((bound &&& ~~~(p ||| (p - 1))) ||| p ||| (a.umin &&& (p - 1)))

/-- The largest member that is not above the bound. -/
def prev? (a : Ternary w) (bound : BitVec w) : Option (BitVec w) :=
  let conflicts := (bound ^^^ a.umin) &&& a.known
  if conflicts = 0 then some bound
  else
    let j := Word.highestBit conflicts
    let above := ~~~Word.low w (j + 1)
    if a.umin.getLsbD j then
      -- bit `j` has to rise, so the lowest unknown one above it drops
      let candidates := bound &&& a.unknown &&& above
      if candidates = 0 then none
      else
        let p := Word.lowestBit candidates
        some ((bound &&& ~~~(p ||| (p - 1))) ||| (a.ones &&& (p - 1)))
    else
      -- bit `j` has to drop: keep what is above, take the most below
      some ((bound &&& above) ||| (a.ones &&& Word.low w j))

/-- A word gets no known bit wrong exactly if it is a member. -/
theorem no_conflict_iff {a : Ternary w} {x : BitVec w} :
    (x ^^^ a.umin) &&& a.known = 0 ↔ x ∈ a := by
  rw [mem_iff_known]
  constructor
  · intro h k _ hknown
    have := congrArg (BitVec.getLsbD · k) h
    simpa [hknown] using this
  · intro h
    apply BitVec.eq_of_getLsbD_eq
    intro k hk
    rw [BitVec.getLsbD_and, BitVec.getLsbD_xor]
    cases hknown : a.known.getLsbD k
    · simp
    · simp [h k hk hknown]

/-- A bound that is a member is its own neighbour. -/
theorem next?_of_mem {a : Ternary w} {x : BitVec w} (h : x ∈ a) : a.next? x = some x :=
  if_pos (no_conflict_iff.2 h)

theorem prev?_of_mem {a : Ternary w} {x : BitVec w} (h : x ∈ a) : a.prev? x = some x :=
  if_pos (no_conflict_iff.2 h)

/-! ## Order and lattice -/

/-- Whether every possible bit of `b` is a possible bit of `a`. -/
def contains (a b : Ternary w) : Bool :=
  b.zeros &&& ~~~a.zeros == 0 && b.ones &&& ~~~a.ones == 0

/-- The smallest three-valued word that contains both. -/
def join (a b : Ternary w) : Ternary w where
  zeros := a.zeros ||| b.zeros
  ones := a.ones ||| b.ones
  total := by
    apply BitVec.eq_of_getLsbD_eq
    intro k hk
    have := a.getLsbD_total hk
    simp only [BitVec.getLsbD_or, BitVec.getLsbD_allOnes]
    revert this
    cases a.zeros.getLsbD k <;> cases a.ones.getLsbD k <;> simp [hk]

/-- Makes the masked bits unknown. -/
def forget (a : Ternary w) (mask : BitVec w) : Ternary w where
  zeros := a.zeros ||| mask
  ones := a.ones ||| mask
  total := by
    apply BitVec.eq_of_getLsbD_eq
    intro k hk
    have := a.getLsbD_total hk
    simp only [BitVec.getLsbD_or, BitVec.getLsbD_allOnes]
    revert this
    cases a.zeros.getLsbD k <;> cases a.ones.getLsbD k <;> simp [hk]

/-- The common members, if there are any. -/
def meet? (a b : Ternary w) : Option (Ternary w) :=
  ofFlags? (a.zeros &&& b.zeros) (a.ones &&& b.ones)

theorem meet?_isSome {a b : Ternary w} {x : BitVec w} (ha : x ∈ a) (hb : x ∈ b) :
    ∃ c, a.meet? b = some c := by
  rw [meet?, ofFlags?, dif_pos]
  · exact ⟨_, rfl⟩
  · apply total_of_bits
    intro k hk
    rw [BitVec.getLsbD_and, BitVec.getLsbD_and]
    cases hx : x.getLsbD k
    · rw [zeros_of_mem ha hk hx, zeros_of_mem hb hk hx]
      rfl
    · rw [ones_of_mem ha hk hx, ones_of_mem hb hk hx]
      exact Bool.or_true _

/-- The smallest three-valued word that contains all of a nonempty list. -/
def joinAll : (l : List (Ternary w)) → l ≠ [] → Ternary w
  | a :: rest, _ => rest.foldl join a

/-- Bits from the most significant, between double quotes; unknown bits are `X`. -/
def text (a : Ternary w) : String :=
  let bit (k : Nat) : Char :=
    if a.unknown.getLsbD k then 'X' else if a.ones.getLsbD k then '1' else '0'
  String.ofList ('"' :: ((List.range w).reverse.map bit) ++ ['"'])

end Ternary

end RefineCheck
