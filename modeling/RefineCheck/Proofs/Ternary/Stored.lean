/-
  RefineCheck.Proofs.Ternary.Stored

  Three-valued words as they are stored: the flags of the bits that may be zero and of those that may
  be one in two machine words of 64 bits, whose bits above the width are zero. The neighbours of a
  bound among the members are found with masks and by counting zeros from either end of a machine
  word. At every width a word may have this finds the next member upwards and downwards, or that there
  is none.
-/

import RefineCheck.Proofs.Ternary.Neighbours
import RefineCheck.Proofs.Word.Stored

namespace RefineCheck.Ternary

open Word (Machine low)
open Word.Stored (mask)

variable {w : Nat}

/-- The flags of the possible zeros and ones, with a width. -/
structure Stored where
  zeros : Machine
  ones : Machine
  width : Nat
deriving DecidableEq

namespace Stored

/-- Whether the width is one a word may have, every bit below it has a flag and no bit above it. -/
structure WellFormed (a : Stored) : Prop where
  width_le : a.width ≤ Word.maxWidth
  total : a.zeros ||| a.ones = mask a.width

/-- The bits that can be zero and one. -/
def unknown (a : Stored) : Machine := a.zeros &&& a.ones

/-- The other bits of the width. -/
def known (a : Stored) : Machine := ~~~a.unknown &&& mask a.width

/-- The member whose unknown bits are zero. -/
def umin (a : Stored) : Machine := a.ones &&& ~~~a.zeros

/-! ## Searching -/

/-- The position of the highest one bit of a machine word that is not zero. -/
def highestBit (x : Machine) : Nat := 63 - x.clz.toNat

/-- The position of the lowest one bit of a machine word that is not zero. -/
def lowestBit (x : Machine) : Nat := x.ctz.toNat

/-- The smallest member that is not below the bound. -/
def next? (a : Stored) (bound : Machine) : Option Machine :=
  let conflicts := (bound ^^^ a.umin) &&& a.known
  if conflicts = 0 then some bound
  else
    let j := highestBit conflicts
    let above := ~~~mask (j + 1) &&& mask a.width
    if a.umin &&& (1#64 <<< j) ≠ 0 then
      some ((bound &&& above) ||| (1#64 <<< j) ||| (a.umin &&& mask j))
    else
      let candidates := ~~~bound &&& a.unknown &&& above
      if candidates = 0 then none
      else
        let p := lowestBit candidates
        some ((bound &&& ~~~mask (p + 1)) ||| (1#64 <<< p) ||| (a.umin &&& mask p))

/-- The largest member that is not above the bound. -/
def prev? (a : Stored) (bound : Machine) : Option Machine :=
  let conflicts := (bound ^^^ a.umin) &&& a.known
  if conflicts = 0 then some bound
  else
    let j := highestBit conflicts
    let above := ~~~mask (j + 1) &&& mask a.width
    if a.umin &&& (1#64 <<< j) = 0 then some ((bound &&& above) ||| (a.ones &&& mask j))
    else
      let candidates := bound &&& a.unknown &&& above
      if candidates = 0 then none
      else
        let p := lowestBit candidates
        some ((bound &&& ~~~mask (p + 1)) ||| (a.ones &&& mask p))

/-! ## Machine words -/

theorem highestBit_eq {x : Machine} (hx : x ≠ 0) : highestBit x = Word.highestBit x := by
  have hne : x.toNat ≠ 0 := fun h => hx (BitVec.eq_of_toNat_eq h)
  have hclz : x.clz.toNat < 64 := BitVec.lt_def.1 (BitVec.clz_lt_iff_ne_zero.2 hx)
  have hhigh : x.toNat < 2 ^ (64 - x.clz.toNat) := BitVec.toNat_lt_two_pow_sub_clz
  refine ((Nat.log2_eq_iff hne).2 ⟨?_, ?_⟩).symm
  · exact BitVec.two_pow_sub_clz_le_toNat_of_ne_zero (by decide) hx
  · rwa [highestBit, show 63 - x.clz.toNat + 1 = 64 - x.clz.toNat by omega]

theorem lowestBit_eq {x : Machine} {p : Nat} (hp : x.getLsbD p = true)
    (hbelow : ∀ k < p, x.getLsbD k = false) : lowestBit x = p := by
  have hx : x ≠ 0 := by
    rintro rfl
    simp at hp
  have hbit : x.getLsbD (lowestBit x) = true := BitVec.getLsbD_true_ctz_of_ne_zero hx
  rcases Nat.lt_trichotomy (lowestBit x) p with h | h | h
  · rw [hbelow _ h] at hbit
    cases hbit
  · exact h
  · rw [BitVec.getLsbD_false_of_lt_ctz h] at hp
    cases hp

/-! ## Storing three-valued words -/

/-- What a three-valued word is stored as. -/
def of (a : Ternary w) : Stored := ⟨a.zeros.setWidth 64, a.ones.setWidth 64, w⟩

theorem getLsbD_setWidth (x : BitVec w) {k : Nat} (hk : k < 64) :
    (x.setWidth 64).getLsbD k = x.getLsbD k := by
  rw [BitVec.getLsbD_setWidth, decide_eq_true hk, Bool.true_and]

/-- A machine word with the bits of a word stores it. -/
theorem eq_setWidth {v : Machine} {x : BitVec w} (h : ∀ k < 64, v.getLsbD k = x.getLsbD k) :
    v = x.setWidth 64 := by
  apply BitVec.eq_of_getLsbD_eq
  intro k hk
  rw [h k hk, getLsbD_setWidth x hk]

theorem setWidth_eq_zero_iff (hw : w ≤ 64) {x : BitVec w} : x.setWidth 64 = 0 ↔ x = 0 := by
  rw [← Word.Stored.value_inj hw, Word.Stored.of, Word.Stored.of, BitVec.ofNat_eq_ofNat,
    BitVec.ofNat_eq_ofNat, BitVec.setWidth_zero]

theorem wellFormed_of (hw : w ≤ 64) (a : Ternary w) : (of a).WellFormed := by
  refine ⟨hw, BitVec.eq_of_getLsbD_eq fun k hk => ?_⟩
  rw [of, ← BitVec.setWidth_or, a.total, getLsbD_setWidth _ hk, Word.Stored.getLsbD_mask,
    BitVec.getLsbD_allOnes, decide_eq_true hk, Bool.true_and]

/-- Every well-formed record stores a three-valued word. -/
theorem WellFormed.exists_of {s : Stored} (h : s.WellFormed) (hw : s.width = w) :
    ∃ a : Ternary w, s = of a := by
  subst hw
  have hbit {k : Nat} (hk : k < 64) :
      (s.zeros.getLsbD k || s.ones.getLsbD k) = decide (k < s.width) := by
    rw [← BitVec.getLsbD_or, h.total, Word.Stored.getLsbD_mask, decide_eq_true hk, Bool.true_and]
  have hflags (v : Machine) (hv : ∀ k < 64, v.getLsbD k = true → k < s.width) :
      v = (v.setWidth s.width).setWidth 64 := by
    refine eq_setWidth fun k hk => ?_
    rw [BitVec.getLsbD_setWidth]
    cases hvk : v.getLsbD k with
    | true => rw [decide_eq_true (hv k hk hvk), Bool.and_self]
    | false => rw [Bool.and_false]
  refine ⟨⟨s.zeros.setWidth s.width, s.ones.setWidth s.width, ?_⟩, ?_⟩
  · refine total_of_bits fun k hk => ?_
    have hk' : k < 64 := Nat.lt_of_lt_of_le hk h.width_le
    rw [BitVec.getLsbD_setWidth, BitVec.getLsbD_setWidth, decide_eq_true hk, Bool.true_and,
      Bool.true_and, hbit hk', decide_eq_true hk]
  · have hzeros := hflags s.zeros fun k hk hz =>
      of_decide_eq_true (by rw [← hbit hk, hz, Bool.true_or])
    have hones := hflags s.ones fun k hk ho =>
      of_decide_eq_true (by rw [← hbit hk, ho, Bool.or_true])
    obtain ⟨zeros, ones, width⟩ := s
    exact Stored.mk.injEq .. |>.mpr ⟨hzeros, hones, rfl⟩

/-! ## Masks on stored words

What is cut out of a stored word stores what the same positions cut out of the word. -/

theorem unknown_of (a : Ternary w) : (of a).unknown = a.unknown.setWidth 64 :=
  BitVec.setWidth_and.symm

theorem umin_of (a : Ternary w) : (of a).umin = a.umin.setWidth 64 := by
  refine eq_setWidth fun k hk => ?_
  rw [umin, of, BitVec.getLsbD_and, BitVec.getLsbD_not, getLsbD_setWidth _ hk, getLsbD_setWidth _ hk,
    decide_eq_true hk, Bool.true_and, Ternary.umin, BitVec.getLsbD_and, BitVec.getLsbD_not]
  cases ho : a.ones.getLsbD k with
  | true =>
    rw [decide_eq_true (BitVec.lt_of_getLsbD ho)]
    rfl
  | false => rfl

theorem and_known_of (a : Ternary w) (x : BitVec w) :
    x.setWidth 64 &&& (of a).known = (x &&& a.known).setWidth 64 := by
  refine eq_setWidth fun k hk => ?_
  rw [known, unknown_of, Ternary.known, BitVec.getLsbD_and, BitVec.getLsbD_and, BitVec.getLsbD_and,
    BitVec.getLsbD_not, BitVec.getLsbD_not, Word.Stored.getLsbD_mask, getLsbD_setWidth _ hk,
    getLsbD_setWidth _ hk, decide_eq_true hk, of]
  cases decide (k < w) <;> simp

/-- The bits of a stored word from a position on. -/
theorem and_above_of (x : BitVec w) (n : Nat) :
    x.setWidth 64 &&& ~~~mask n = (x &&& ~~~low w n).setWidth 64 := by
  refine eq_setWidth fun k hk => ?_
  rw [BitVec.getLsbD_and, BitVec.getLsbD_and, BitVec.getLsbD_not, BitVec.getLsbD_not,
    Word.Stored.getLsbD_mask, Word.getLsbD_low, getLsbD_setWidth _ hk, decide_eq_true hk]
  cases hx : x.getLsbD k with
  | true => rw [decide_eq_true (BitVec.lt_of_getLsbD hx), Bool.true_and, Bool.true_and]
  | false => rfl

/-- A mask that stops at the width cuts nothing else off a stored word. -/
theorem and_above_mask_of (x : BitVec w) (n : Nat) :
    x.setWidth 64 &&& (~~~mask n &&& mask w) = (x &&& ~~~low w n).setWidth 64 := by
  rw [← and_above_of]
  apply BitVec.eq_of_getLsbD_eq
  intro k hk
  rw [BitVec.getLsbD_and, BitVec.getLsbD_and, BitVec.getLsbD_and, Word.Stored.getLsbD_mask w,
    getLsbD_setWidth _ hk, decide_eq_true hk]
  cases hx : x.getLsbD k with
  | true => rw [decide_eq_true (BitVec.lt_of_getLsbD hx), Bool.and_true, Bool.and_true]
  | false => rfl

/-- The bits of a stored word below a position. -/
theorem and_below_of (x : BitVec w) (n : Nat) :
    x.setWidth 64 &&& mask n = (x &&& low w n).setWidth 64 := by
  refine eq_setWidth fun k hk => ?_
  rw [BitVec.getLsbD_and, BitVec.getLsbD_and, Word.Stored.getLsbD_mask, Word.getLsbD_low,
    getLsbD_setWidth _ hk, decide_eq_true hk]
  cases hx : x.getLsbD k with
  | true => rw [decide_eq_true (BitVec.lt_of_getLsbD hx)]
  | false => rfl

theorem bit_of {p : Nat} (hp : p < w) : (1#64 <<< p) = (BitVec.twoPow w p).setWidth 64 := by
  refine eq_setWidth fun k hk => ?_
  rw [← BitVec.twoPow_eq, BitVec.getLsbD_twoPow, BitVec.getLsbD_twoPow, decide_eq_true hp]
  by_cases hpk : p = k
  · rw [hpk, decide_eq_true hk]
  · rw [decide_eq_false hpk, Bool.and_false, Bool.and_false]

theorem and_bit_of {p : Nat} (hp : p < 64) (x : BitVec w) :
    x.setWidth 64 &&& (1#64 <<< p) = 0 ↔ x.getLsbD p = false := by
  have hbit : BitVec.twoPow 64 p ≠ 0 := by
    rw [Ne, BitVec.toNat_eq, BitVec.toNat_twoPow_of_lt hp]
    exact (Nat.two_pow_pos p).ne'
  rw [← BitVec.twoPow_eq, BitVec.and_twoPow, getLsbD_setWidth _ hp]
  cases x.getLsbD p with
  | true => simpa using hbit
  | false => simp

/-! ## The searches on stored words -/

theorem conflicts_of (a : Ternary w) (bound : BitVec w) :
    (bound.setWidth 64 ^^^ (of a).umin) &&& (of a).known =
      ((bound ^^^ a.umin) &&& a.known).setWidth 64 := by
  rw [umin_of, ← BitVec.setWidth_xor, and_known_of]

theorem highestBit_of (hw : w ≤ 64) {x : BitVec w} (hx : x ≠ 0) :
    highestBit (x.setWidth 64) = Word.highestBit x := by
  rw [highestBit_eq (fun h => hx ((setWidth_eq_zero_iff hw).1 h)), Word.highestBit, Word.highestBit,
    BitVec.toNat_setWidth_of_le hw]

theorem lowestBit_of (hw : w ≤ 64) {x : BitVec w} (hx : x ≠ 0) :
    ∃ p < w, Word.lowestBit x = BitVec.twoPow w p ∧ lowestBit (x.setWidth 64) = p := by
  obtain ⟨p, hp, hpow, hbit, hbelow⟩ := Word.lowestBit_eq_twoPow hx
  refine ⟨p, hp, hpow, lowestBit_eq ?_ fun k hk => ?_⟩
  · rw [getLsbD_setWidth _ (hp.trans_le hw), hbit]
  · rw [getLsbD_setWidth _ ((hk.trans hp).trans_le hw), hbelow k hk]

theorem next?_of (hw : w ≤ 64) (a : Ternary w) (bound : BitVec w) :
    (of a).next? (bound.setWidth 64) = (a.next? bound).map (·.setWidth 64) := by
  have hcandidates (n : Nat) :
      ~~~(bound.setWidth 64) &&& (of a).unknown &&& (~~~mask n &&& mask w) =
        (~~~bound &&& a.unknown &&& ~~~low w n).setWidth 64 := by
    rw [← and_above_mask_of, unknown_of]
    congr 1
    refine eq_setWidth fun k hk => ?_
    rw [BitVec.getLsbD_and, BitVec.getLsbD_and, BitVec.getLsbD_not, BitVec.getLsbD_not,
      getLsbD_setWidth _ hk, getLsbD_setWidth _ hk, decide_eq_true hk]
    cases hx : a.unknown.getLsbD k with
    | true => rw [decide_eq_true (BitVec.lt_of_getLsbD hx)]
    | false => rw [Bool.and_false, Bool.and_false]
  rw [next?, Ternary.next?, conflicts_of]
  simp only [setWidth_eq_zero_iff hw]
  split
  · rfl
  · rename_i hne
    have hj := Word.highestBit_lt hne
    rw [highestBit_of hw hne]
    generalize Word.highestBit ((bound ^^^ a.umin) &&& a.known) = j at hj ⊢
    have hwidth : (of a).width = w := rfl
    have hbit := and_bit_of (hj.trans_le hw) a.umin
    rw [hwidth, umin_of, hcandidates]
    simp only [setWidth_eq_zero_iff hw]
    cases hrise : a.umin.getLsbD j with
    | true =>
      -- the highest conflicting bit is raised, and the bits below it are as small as they can be
      rw [if_pos (fun h => Bool.false_ne_true ((hbit.1 h).symm.trans hrise)), if_pos rfl,
        and_above_mask_of, and_below_of, bit_of hj, Option.map_some, BitVec.setWidth_or,
        BitVec.setWidth_or]
    | false =>
      -- it cannot be raised, so an unknown bit above it has to be
      rw [if_neg (not_not_intro (hbit.2 hrise)), if_neg Bool.false_ne_true]
      split
      · rfl
      · rename_i hcand
        obtain ⟨p, hp, hpow, hlowest⟩ := lowestBit_of hw hcand
        rw [hlowest, hpow, low_succ hp, Word.twoPow_sub_one hp, and_above_of, and_below_of, bit_of hp,
          Option.map_some, BitVec.setWidth_or, BitVec.setWidth_or]

theorem prev?_of (hw : w ≤ 64) (a : Ternary w) (bound : BitVec w) :
    (of a).prev? (bound.setWidth 64) = (a.prev? bound).map (·.setWidth 64) := by
  have hones : (of a).ones = a.ones.setWidth 64 := rfl
  rw [prev?, Ternary.prev?, conflicts_of, hones]
  simp only [setWidth_eq_zero_iff hw]
  split
  · rfl
  · rename_i hne
    have hj := Word.highestBit_lt hne
    rw [highestBit_of hw hne]
    generalize Word.highestBit ((bound ^^^ a.umin) &&& a.known) = j at hj ⊢
    have hwidth : (of a).width = w := rfl
    have hbit := and_bit_of (hj.trans_le hw) a.umin
    rw [hwidth, umin_of, unknown_of, ← BitVec.setWidth_and, and_above_mask_of (bound &&& a.unknown)]
    simp only [setWidth_eq_zero_iff hw]
    cases hrise : a.umin.getLsbD j with
    | false =>
      rw [if_pos (hbit.2 hrise), if_neg Bool.false_ne_true, and_above_mask_of, and_below_of,
        Option.map_some, BitVec.setWidth_or]
    | true =>
      rw [if_neg (fun h => Bool.false_ne_true ((hbit.1 h).symm.trans hrise)), if_pos rfl]
      split
      · rfl
      · rename_i hcand
        obtain ⟨p, hp, hpow, hlowest⟩ := lowestBit_of hw hcand
        rw [hlowest, hpow, low_succ hp, Word.twoPow_sub_one hp, and_above_of, and_below_of,
          Option.map_some, BitVec.setWidth_or]

end Stored

/-! ## What is found -/

/-- Whether a word is the largest member that is not above the bound. -/
def IsPrev (a : Ternary w) (bound y : BitVec w) : Prop :=
  y ∈ a ∧ y ≤ bound ∧ ∀ x ∈ a, x ≤ bound → x ≤ y

theorem next?_eq_none_iff {a : Ternary w} {bound : BitVec w} :
    a.next? bound = none ↔ ¬ ∃ x ∈ a, bound ≤ x := by
  constructor
  · rintro h ⟨x, hx, hle⟩
    exact not_le_of_next? h hx hle
  · intro h
    cases hnext : a.next? bound with
    | none => rfl
    | some y =>
      obtain ⟨hy, hle, -⟩ := isNext_of_next? hnext
      exact absurd ⟨y, hy, hle⟩ h

theorem next?_eq_some_iff {a : Ternary w} {bound y : BitVec w} :
    a.next? bound = some y ↔ IsNext a bound y := by
  refine ⟨isNext_of_next?, fun ⟨hy, hle, hleast⟩ => ?_⟩
  cases hnext : a.next? bound with
  | none => exact absurd hle (not_le_of_next? hnext hy)
  | some z =>
    -- both are the smallest one
    obtain ⟨hz, hlez, hleastz⟩ := isNext_of_next? hnext
    rw [BitVec.le_antisymm (hleast z hz hlez) (hleastz y hy hle)]

theorem prev?_eq_none_iff {a : Ternary w} {bound : BitVec w} :
    a.prev? bound = none ↔ ¬ ∃ x ∈ a, x ≤ bound := by
  constructor
  · rintro h ⟨x, hx, hle⟩
    exact not_le_of_prev? h hx hle
  · intro h
    cases hprev : a.prev? bound with
    | none => rfl
    | some y =>
      obtain ⟨hy, hle, -⟩ := isPrev_of_prev? hprev
      exact absurd ⟨y, hy, hle⟩ h

theorem prev?_eq_some_iff {a : Ternary w} {bound y : BitVec w} :
    a.prev? bound = some y ↔ IsPrev a bound y := by
  refine ⟨isPrev_of_prev?, fun ⟨hy, hle, hgreatest⟩ => ?_⟩
  cases hprev : a.prev? bound with
  | none => exact absurd hle (not_le_of_prev? hprev hy)
  | some z =>
    -- both are the largest one
    obtain ⟨hz, hlez, hgreatestz⟩ := isPrev_of_prev? hprev
    rw [BitVec.le_antisymm (hgreatestz y hy hle) (hgreatest z hz hlez)]

/-- The answers of the searches from a bound. -/
structure Searches (a : Ternary w) (bound : BitVec w) : Prop where
  next_none : a.next? bound = none ↔ ¬ ∃ x ∈ a, bound ≤ x
  next_some (y : BitVec w) : a.next? bound = some y ↔
    y ∈ a ∧ bound ≤ y ∧ ∀ x ∈ a, bound ≤ x → y ≤ x
  prev_none : a.prev? bound = none ↔ ¬ ∃ x ∈ a, x ≤ bound
  prev_some (y : BitVec w) : a.prev? bound = some y ↔
    y ∈ a ∧ y ≤ bound ∧ ∀ x ∈ a, x ≤ bound → x ≤ y

/-- At every width a word may have, each well-formed record stores a three-valued word. From any bound
    the searches on the record find what those on the three-valued word find: the smallest member that
    is not below the bound and the largest one that is not above it, and nothing only if there is
    none. -/
theorem member_search (hw : w ≤ Word.maxWidth) :
    (∀ s : Stored, s.WellFormed ∧ s.width = w ↔ ∃ a : Ternary w, s = .of a) ∧
      ∀ (a : Ternary w) (bound : BitVec w), Searches a bound ∧
        (Stored.of a).next? (Word.Stored.of bound).value =
          (a.next? bound).map (fun y => (Word.Stored.of y).value) ∧
        (Stored.of a).prev? (Word.Stored.of bound).value =
          (a.prev? bound).map fun y => (Word.Stored.of y).value := by
  refine ⟨fun s => ⟨fun hs => hs.1.exists_of hs.2, ?_⟩, fun a bound => ⟨?_, ?_, ?_⟩⟩
  · rintro ⟨a, rfl⟩
    exact ⟨Stored.wellFormed_of hw a, rfl⟩
  · exact ⟨next?_eq_none_iff, fun _ => next?_eq_some_iff, prev?_eq_none_iff,
      fun _ => prev?_eq_some_iff⟩
  · exact Stored.next?_of hw a bound
  · exact Stored.prev?_of hw a bound

/-- The highest bit of the machine word is known to be one, and the bound lacks it: the next member
    is the smallest one of all, and there is none below. -/
theorem member_search_highest_bit :
    let a : Ternary 64 := ofKnown 0x8000000000000001 0x8000000000000011
    (Stored.of a).next? (Word.Stored.of 6#64).value = some 0x8000000000000001 ∧
      (∀ x ∈ a, 6#64 ≤ x → 0x8000000000000001 ≤ x) ∧
      (Stored.of a).prev? (Word.Stored.of 6#64).value = none ∧ ¬ ∃ x ∈ a, x ≤ 6#64 := by
  intro a
  obtain ⟨hsearches, hnext, hprev⟩ := (member_search (w := 64) le_rfl).2 a 6#64
  have hsome : a.next? 6#64 = some 0x8000000000000001 := by decide
  have hnone : a.prev? 6#64 = none := by decide
  refine ⟨?_, ((hsearches.next_some _).1 hsome).2.2, ?_, hsearches.prev_none.1 hnone⟩
  · rw [hnext, hsome]
    rfl
  · rw [hprev, hnone]
    rfl

end RefineCheck.Ternary
