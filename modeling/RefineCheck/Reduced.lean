/-
  RefineCheck.Reduced

  The reduced product of three-valued words and split ranges: after every operation
  the two components narrow each other, so that a bound known to one is not lost by
  the other.
-/

import RefineCheck.Fault
import RefineCheck.SplitRange.Operations

namespace RefineCheck

/-- A set of words: those that are members of both components. -/
structure Reduced (w : Nat) where
  bits : Ternary w
  ranges : SplitRange w
deriving DecidableEq

namespace Reduced

variable {w : Nat}

/-- The words that both components allow. -/
protected def Mem (a : Reduced w) (x : BitVec w) : Prop := x ∈ a.bits ∧ x ∈ a.ranges

instance : Membership (BitVec w) (Reduced w) where
  mem := Reduced.Mem

/-! ## Reduction -/

/-- The part of two intervals of one sign that lies between members of the three-valued
    word. -/
def tighten? {sign : Bool} (bits : Ternary w) (i j : Half w sign) : Option (Half w sign) := do
  let common ← i.inter? j
  Half.of? sign (← bits.next? common.lo) (← bits.prev? common.hi)

/-- Tightens the intervals of one sign if there are two. -/
def tightenBoth? {sign : Bool} (bits : Ternary w) (i j : Option (Half w sign)) :
    Option (Half w sign) := do
  tighten? bits (← i) (← j)

/-- Restricts each interval to the ends that are members, then the bits to the hull of
    what is left. Fails if the components have no common member. -/
def reduce? (bits : Ternary w) (ranges : SplitRange w) : Option (Reduced w) := do
  let bounds := SplitRange.ofTernary bits
  let narrowed ← SplitRange.ofHalves? (tightenBoth? bits bounds.near ranges.near)
    (tightenBoth? bits bounds.far ranges.far)
  let kept ← bits.meet? (Ternary.ofRange narrowed.umin narrowed.umax)
  return ⟨kept, narrowed⟩

/-- The reduction of components that are meant to have a common member. -/
def reduce (bits : Ternary w) (ranges : SplitRange w) : Except Fault (Reduced w) :=
  match reduce? bits ranges with
  | some a => .ok a
  | none => .error (.disjoint bits.text ranges.text)

/-! ## Reductions that succeed -/

/-- An intersection that ends in members stays as it is. -/
theorem tighten?_of_inter? {sign : Bool} {bits : Ternary w} {i j k : Half w sign}
    (h : i.inter? j = some k) (hlo : k.lo ∈ bits) (hhi : k.hi ∈ bits) :
    tighten? bits i j = some k := by
  simp only [tighten?, h, Ternary.next?_of_mem hlo, Ternary.prev?_of_mem hhi,
    Option.bind_eq_bind, Option.bind_some]
  rw [Half.of?, dif_pos ⟨k.ordered, k.lo_sign, k.hi_sign⟩]

/-- Tightening changes no interval that ends in members, if it lies in the other interval. -/
theorem tightenBoth?_eq_left {sign : Bool} {bits : Ternary w} {i j : Option (Half w sign)}
    (hends : ∀ k ∈ i, k.lo ∈ bits ∧ k.hi ∈ bits)
    (hinside : ∀ k ∈ i, ∃ l ∈ j, k.lo ∈ l ∧ k.hi ∈ l) : tightenBoth? bits i j = i := by
  cases i with
  | none => rfl
  | some k =>
    obtain ⟨l, rfl, hlo, hhi⟩ := hinside k rfl
    exact tighten?_of_inter? (Half.inter?_of_mem hlo hhi).1 (hends k rfl).1 (hends k rfl).2

theorem tightenBoth?_eq_right {sign : Bool} {bits : Ternary w} {i j : Option (Half w sign)}
    (hends : ∀ k ∈ j, k.lo ∈ bits ∧ k.hi ∈ bits)
    (hinside : ∀ k ∈ j, ∃ l ∈ i, k.lo ∈ l ∧ k.hi ∈ l) : tightenBoth? bits i j = j := by
  cases j with
  | none => cases i <;> rfl
  | some k =>
    obtain ⟨l, rfl, hlo, hhi⟩ := hinside k rfl
    exact tighten?_of_inter? (Half.inter?_of_mem hlo hhi).2 (hends k rfl).1 (hends k rfl).2

/-- A reduction succeeds if what it leaves of the ranges ends in members. -/
theorem reduce?_isSome_of_ends {bits : Ternary w} {ranges narrowed : SplitRange w}
    (hnear : tightenBoth? bits (SplitRange.ofTernary bits).near ranges.near = narrowed.near)
    (hfar : tightenBoth? bits (SplitRange.ofTernary bits).far ranges.far = narrowed.far)
    (hends : narrowed.umin ∈ bits) : (reduce? bits ranges).isSome := by
  -- the smallest member is left in the bits
  have hhull : narrowed.umin ∈ Ternary.ofRange narrowed.umin narrowed.umax :=
    Ternary.mem_ofKnown.2 fun _ _ _ => rfl
  obtain ⟨kept, hkept⟩ := Ternary.meet?_isSome hends hhull
  simp only [reduce?, hnear, hfar, SplitRange.ofHalves?, dif_pos narrowed.populated,
    Option.bind_eq_bind, Option.bind_some, hkept]
  rfl

/-- The members of a three-valued word lie in the ranges it has, which end in members. -/
theorem isSome_reduce?_of_bits (bits : Ternary w) : (reduce? bits (.full w)).isSome := by
  have hnear {i : Half w false} := SplitRange.near_ends_ofTernary (a := bits) (i := i)
  have hfar {i : Half w true} := SplitRange.far_ends_ofTernary (a := bits) (i := i)
  refine reduce?_isSome_of_ends
    (tightenBoth?_eq_left (fun _ hi => hnear hi) fun _ _ =>
      SplitRange.exists_near (SplitRange.mem_full _) (SplitRange.mem_full _))
    (tightenBoth?_eq_left (fun _ hi => hfar hi) fun _ _ =>
      SplitRange.exists_far (SplitRange.mem_full _) (SplitRange.mem_full _)) ?_
  exact SplitRange.umin_of_ends (fun _ hi => (hnear hi).1) fun _ hi => (hfar hi).1

/-- Every word is a member of the bits, so that the ranges stay as they are. -/
theorem isSome_reduce?_of_ranges (ranges : SplitRange w) :
    (reduce? (.full w) ranges).isSome := by
  have hbits {x : BitVec w} := SplitRange.mem_ofTernary (Ternary.mem_full x)
  exact reduce?_isSome_of_ends
    (tightenBoth?_eq_right (fun _ _ => ⟨Ternary.mem_full _, Ternary.mem_full _⟩) fun _ _ =>
      SplitRange.exists_near hbits hbits)
    (tightenBoth?_eq_right (fun _ _ => ⟨Ternary.mem_full _, Ternary.mem_full _⟩) fun _ _ =>
      SplitRange.exists_far hbits hbits)
    (Ternary.mem_full _)

/-! ## Construction -/

/-- The set of one word. -/
def ofWord (x : BitVec w) : Reduced w := ⟨.ofWord x, .ofWord x⟩

/-- The set of all words. -/
def full (w : Nat) : Reduced w := ⟨.full w, .full w⟩

/-- The members of a three-valued word. -/
def ofTernary (bits : Ternary w) : Reduced w :=
  (reduce? bits (.full w)).get (isSome_reduce?_of_bits bits)

/-- The members of a split range. -/
def ofSplitRange (ranges : SplitRange w) : Reduced w :=
  (reduce? (.full w) ranges).get (isSome_reduce?_of_ranges ranges)

theorem reduce?_ofTernary (bits : Ternary w) :
    reduce? bits (.full w) = some (ofTernary bits) :=
  (Option.some_get _).symm

theorem reduce?_ofSplitRange (ranges : SplitRange w) :
    reduce? (.full w) ranges = some (ofSplitRange ranges) :=
  (Option.some_get _).symm

/-- The truth values both components admit. -/
def truth (bits : Ternary 1) (ranges : SplitRange 1) : Except Fault (Reduced 1) :=
  let canBeFalse := bits.canBeFalse && ranges.has 0
  let canBeTrue := bits.canBeTrue && ranges.has 1
  if h : (canBeFalse || canBeTrue) = true then
    .ok ⟨.truth canBeFalse canBeTrue h, .truth canBeFalse canBeTrue h⟩
  else .error (.missingBits 0 0 1)

/-! ## Bounds -/

/-- Whether the word is a member. -/
def has (a : Reduced w) (x : BitVec w) : Bool := decide (x ∈ a.bits) && a.ranges.has x

/-- The member, if one of the components has just one. -/
def word? (a : Reduced w) : Option (BitVec w) := a.bits.word? <|> a.ranges.word?

/-- The least member in unsigned order. -/
def umin (a : Reduced w) : BitVec w :=
  if a.bits.umin ≤ a.ranges.umin then a.ranges.umin else a.bits.umin

/-- The greatest member in unsigned order. -/
def umax (a : Reduced w) : BitVec w :=
  if a.bits.umax ≤ a.ranges.umax then a.bits.umax else a.ranges.umax

/-- The least member in signed order. -/
def smin (a : Reduced w) : BitVec w :=
  if a.bits.smin.sle a.ranges.smin then a.ranges.smin else a.bits.smin

/-- The greatest member in signed order. -/
def smax (a : Reduced w) : BitVec w :=
  if a.bits.smax.sle a.ranges.smax then a.bits.smax else a.ranges.smax

/-- Whether some bit can be one. -/
def canBeTrue (a : Reduced w) : Bool := a.bits.canBeTrue

/-- Whether some bit can be zero, or there is none. -/
def canBeFalse (a : Reduced w) : Bool := a.bits.canBeFalse

/-! ## Order and lattice -/

/-- Component by component, so that it can miss an inclusion. -/
def contains (a b : Reduced w) : Bool :=
  a.bits.contains b.bits && a.ranges.contains b.ranges

/-- The join of both components, reduced. -/
def join (a b : Reduced w) : Except Fault (Reduced w) :=
  reduce (a.bits.join b.bits) (a.ranges.join b.ranges)

/-- The meet of both components, reduced; none without a common member. -/
def meet? (a b : Reduced w) : Option (Reduced w) := do
  reduce? (← a.bits.meet? b.bits) (← a.ranges.meet? b.ranges)

/-- The number alone if there is one member, otherwise both components. -/
def text (a : Reduced w) : String :=
  match a.word? with
  | some x => toString x.toNat
  | none => a.bits.text ++ a.ranges.text

end Reduced

end RefineCheck
