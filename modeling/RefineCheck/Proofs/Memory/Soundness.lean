/-
  RefineCheck.Proofs.Memory.Soundness

  Abstract arrays are sound. What a concrete array holds at an index is a member of what the
  abstract one reads there, and a concrete write stays within the abstract one. An index that
  stands for one word writes there and nowhere else; any other index changes elements between its
  bounds only. Joins are least upper bounds, and a meet tells whether the operands have a common
  array and holds exactly the common ones.
-/

import Mathlib
import RefineCheck.Proofs.Domain.Lattice
import RefineCheck.Proofs.Runs.Pointwise
import RefineCheck.Proofs.State.Coverage

namespace RefineCheck

/-! ## Values of a width -/

/-- A value of a width that the constructors and operators return. -/
structure Value.OfWidth (v : Value) (w : Nat) : Prop where
  built : v.Built
  width_eq : v.width = w

namespace Value

variable {w : Nat} {a b : Value}

theorem has_iff {r : Reduced w} (hw : w ≤ Word.maxWidth) {x : BitVec w} :
    Has ⟨w, r⟩ ⟨w, x⟩ ↔ x ∈ r := by
  constructor
  · rintro ⟨-, y, hy, hxy⟩
    obtain rfl : x = y := by
      injection hxy
    exact hy
  · exact fun hx => ⟨hw, x, hx, rfl⟩

theorem Has.of_contains {x : Sized BitVec} (hx : b.Has x) (h : a.contains b = .ok true) :
    a.Has x := by
  obtain ⟨w, a⟩ := a
  obtain ⟨v, b⟩ := b
  obtain rfl : v = w := width_of_contains h
  obtain ⟨hw, y, hy, rfl⟩ := hx
  exact ⟨hw, y, Reduced.mem_of_contains (contains_iff.1 h) hy, rfl⟩

theorem ofWidth_ofNat (hw : w ≤ Word.maxWidth) (n : Nat) : (ofNat w n).OfWidth w :=
  ⟨built_ofNat hw n, rfl⟩

namespace OfWidth

theorem exists_has (ha : a.OfWidth w) : ∃ x : BitVec w, a.Has ⟨w, x⟩ := by
  obtain ⟨w, a⟩ := a
  obtain ⟨⟨hw, hval⟩, rfl⟩ := ha
  obtain ⟨x, hx⟩ := hval.tight.exists_mem
  exact ⟨x, (has_iff hw).2 hx⟩

/-- The members lie between the bounds. -/
theorem bounds (ha : a.OfWidth w) {x : BitVec w} (hx : a.Has ⟨w, x⟩) :
    a.lower ≤ x.toNat ∧ x.toNat ≤ a.upper := by
  obtain ⟨w, a⟩ := a
  obtain ⟨⟨hw, hval⟩, rfl⟩ := ha
  exact hval.tight.bounded.unsigned x ((has_iff hw).1 hx)

theorem upper_le_last (ha : a.OfWidth w) : a.upper ≤ Word.last w := by
  obtain ⟨w, a⟩ := a
  obtain ⟨⟨hw, -⟩, rfl⟩ := ha
  rw [Word.last_eq hw]
  exact Nat.le_sub_one_of_lt a.umax.isLt

theorem lower_le_upper (ha : a.OfWidth w) : a.lower ≤ a.upper := by
  obtain ⟨x, hx⟩ := ha.exists_has
  obtain ⟨hlower, hupper⟩ := ha.bounds hx
  exact hlower.trans hupper

/-- A number is given exactly for a value with one member, and is that member. -/
theorem number?_eq_some_iff (ha : a.OfWidth w) {n : Nat} :
    a.number? = some n ↔ ∃ y : BitVec w, y.toNat = n ∧ ∀ x : BitVec w, a.Has ⟨w, x⟩ ↔ x = y := by
  obtain ⟨w, a⟩ := a
  obtain ⟨⟨hw, hval⟩, rfl⟩ := ha
  rw [number?, Option.map_eq_some_iff]
  simp only [has_iff hw]
  constructor
  · rintro ⟨y, hy, rfl⟩
    exact ⟨y, rfl, fun x => Reduced.mem_iff_of_word? hy hval.tight.exists_mem⟩
  · rintro ⟨y, rfl, hmem⟩
    have hsome : a.word?.isSome = true :=
      hval.tight.word?_isSome_iff.2 ⟨y, (hmem y).2 rfl, fun x hx => (hmem x).1 hx⟩
    obtain ⟨z, hz⟩ := Option.isSome_iff_exists.1 hsome
    obtain rfl : z = y := (hmem z).1 ((Reduced.mem_iff_of_word? hz hval.tight.exists_mem).2 rfl)
    exact ⟨z, hz, rfl⟩

/-- The join of two values is the least one that contains both. -/
theorem join (ha : a.OfWidth w) (hb : b.OfWidth w) :
    ∃ c : Value, Sized.join a b = .ok c ∧ c.OfWidth w ∧ c.contains a = .ok true ∧
      c.contains b = .ok true ∧ ∀ d : Value, d.OfWidth w → d.contains a = .ok true →
        d.contains b = .ok true → d.contains c = .ok true := by
  obtain ⟨w, a⟩ := a
  obtain ⟨v, b⟩ := b
  obtain ⟨⟨hw, ha⟩, rfl⟩ := ha
  obtain ⟨⟨-, hb⟩, hv⟩ := hb
  obtain rfl : v = w := hv
  obtain ⟨c, hc, hbuilt, hca, hcb, hleast⟩ := Reduced.ordered.join_least ha hb
  refine ⟨⟨v, c⟩, ?_, ⟨⟨hw, hbuilt⟩, rfl⟩, contains_iff.2 hca, contains_iff.2 hcb, ?_⟩
  · simp only [Sized.join, Sized.zipWithM, Sized.zipWith, dite_true, Except.bind, id, hc]
    rfl
  · rintro ⟨u, d⟩ ⟨⟨-, hd⟩, hu⟩ hda hdb
    obtain rfl : u = v := hu
    exact contains_iff.2 (hleast d hd (contains_iff.1 hda) (contains_iff.1 hdb))

/-- Two values have a meet unless they have no common member, and its members are the common
    ones. -/
theorem meet? (ha : a.OfWidth w) (hb : b.OfWidth w) :
    ∃ o : Option Value, Sized.meet? a b = .ok o ∧
      (o.isSome = true ↔ ∃ x : BitVec w, a.Has ⟨w, x⟩ ∧ b.Has ⟨w, x⟩) ∧
      ∀ c ∈ o, ∀ x : BitVec w, c.Has ⟨w, x⟩ ↔ a.Has ⟨w, x⟩ ∧ b.Has ⟨w, x⟩ := by
  obtain ⟨w, a⟩ := a
  obtain ⟨v, b⟩ := b
  obtain ⟨⟨hw, ha⟩, rfl⟩ := ha
  obtain ⟨⟨-, hb⟩, hv⟩ := hb
  obtain rfl : v = w := hv
  simp only [has_iff hw]
  refine ⟨_, dif_pos rfl, ?_, ?_⟩
  · rw [Option.isSome_map, Option.isSome_iff_ne_none, ne_eq, Reduced.ordered.meet_none ha hb]
    push Not
    rfl
  · intro c hc x
    obtain ⟨r, hr, rfl⟩ := Option.map_eq_some_iff.1 hc
    rw [has_iff hw]
    exact (Reduced.ordered.meet_some ha hb hr).2 x

/-- Joining values one after the other gives a value that contains each of them. -/
theorem foldlM_join {pieces : List (Segment Value)} (ha : a.OfWidth w)
    (h : ∀ s ∈ pieces, s.value.OfWidth w) :
    ∃ r : Value, pieces.foldlM (fun acc s => Sized.join acc s.value) a = .ok r ∧ r.OfWidth w ∧
      r.contains a = .ok true ∧ ∀ s ∈ pieces, r.contains s.value = .ok true := by
  induction pieces generalizing a with
  | nil => exact ⟨a, rfl, ha, a.contains_self, fun s hs => absurd hs List.not_mem_nil⟩
  | cons s rest ih =>
    rw [List.forall_mem_cons] at h
    obtain ⟨c, hc, hcw, hca, hcs, -⟩ := ha.join h.1
    obtain ⟨r, hr, hrw, hrc, hrest⟩ := ih hcw h.2
    refine ⟨r, ?_, hrw, contains_trans hrc hca,
      List.forall_mem_cons.2 ⟨contains_trans hrc hcs, hrest⟩⟩
    rw [List.foldlM_cons, hc, ok_bind, hr]

end OfWidth

end Value

/-! ## Arrays of some widths -/

namespace Memory

/-- A well-formed array of built values with an index width and an element width. -/
structure OfWidths (a : Memory) (v w : Nat) : Prop where
  canonical : a.Canonical
  indexWidth_eq : a.indexWidth = v
  elementWidth_eq : a.elementWidth = w

/-- Whether an abstract array stands for a concrete one. -/
def Holds (a : Memory) {v w : Nat} (cells : BitVec v → BitVec w) : Prop :=
  ∀ i : BitVec v, ∃ e, a.element i.toNat = .ok e ∧ e.Has ⟨w, cells i⟩

variable {v w : Nat} {a b : Memory} {index element : Value}

theorem Built.ofWidths (ha : a.Built) : a.OfWidths a.indexWidth a.elementWidth :=
  ⟨ha.canonical, rfl, rfl⟩

namespace OfWidths

theorem ordered (ha : a.OfWidths v w) : a.elements.Ordered := ha.canonical.ordered

theorem last_eq (ha : a.OfWidths v w) : a.elements.last = Word.last v := by
  rw [ha.canonical.last_eq, ha.indexWidth_eq]

theorem item (ha : a.OfWidths v w) {i : Nat} (hi : i ≤ Word.last v) :
    (a.elements.item i).OfWidth w := by
  rw [← ha.last_eq] at hi
  exact ⟨ha.canonical.item_built hi, (ha.canonical.item_width hi).trans ha.elementWidth_eq⟩

theorem element_eq (ha : a.OfWidths v w) {i : Nat} (hi : i ≤ Word.last v) :
    a.element i = .ok (a.elements.item i) := Runs.get_ok (ha.last_eq.symm ▸ hi)

theorem contains_iff (ha : a.OfWidths v w) (hb : b.OfWidths v w) :
    a.contains b = .ok true ↔
      ∀ i ≤ Word.last v, (a.elements.item i).contains (b.elements.item i) = .ok true := by
  rw [Memory.contains_iff ha.canonical.toWellFormed hb.canonical.toWellFormed
    (hb.indexWidth_eq.trans ha.indexWidth_eq.symm)
    (hb.elementWidth_eq.trans ha.elementWidth_eq.symm), ha.indexWidth_eq]

end OfWidths

section

variable (hv : v ≤ Word.maxWidth)
include hv

theorem toNat_le_last (i : BitVec v) : i.toNat ≤ Word.last v := by
  rw [Word.last_eq hv]
  exact Nat.le_sub_one_of_lt i.isLt

/-- The words of the index width are all indices. -/
theorem exists_toNat_eq {i : Nat} (hi : i ≤ Word.last v) : ∃ x : BitVec v, x.toNat = i := by
  have hpos := Nat.two_pow_pos v
  rw [Word.last_eq hv] at hi
  exact ⟨BitVec.ofNat v i, Nat.mod_eq_of_lt (by omega)⟩

theorem OfWidths.holds_iff (ha : a.OfWidths v w) {cells : BitVec v → BitVec w} :
    a.Holds cells ↔ ∀ i : BitVec v, (a.elements.item i.toNat).Has ⟨w, cells i⟩ := by
  apply forall_congr'
  intro i
  simp [ha.element_eq (toNat_le_last hv i)]

/-- An array that contains another one stands for the same concrete arrays, and maybe more. -/
theorem Holds.of_contains (ha : a.OfWidths v w) (hb : b.OfWidths v w) (h : a.contains b = .ok true)
    {cells : BitVec v → BitVec w} (hcells : b.Holds cells) : a.Holds cells := by
  rw [ha.holds_iff hv]
  rw [hb.holds_iff hv] at hcells
  intro i
  exact (hcells i).of_contains ((ha.contains_iff hb).1 h _ (toNat_le_last hv i))

end

theorem checkIndex_ok (ha : a.OfWidths v w) (hindex : index.OfWidth v) :
    a.checkIndex index = .ok () := if_pos (hindex.width_eq.trans ha.indexWidth_eq.symm)

theorem checkElement_ok (ha : a.OfWidths v w) (he : element.OfWidth w) :
    a.checkElement element = .ok () := if_pos (he.width_eq.trans ha.elementWidth_eq.symm)

/-! ## Reading -/

/-- What is read contains every element between the bounds of the index. -/
theorem read_contains (ha : a.OfWidths v w) (hindex : index.OfWidth v) :
    ∃ r, a.read index = .ok r ∧ r.OfWidth w ∧ ∀ i, index.lower ≤ i → i ≤ index.upper →
      r.contains (a.elements.item i) = .ok true := by
  have hrange := hindex.lower_le_upper
  have hlast := hindex.upper_le_last
  obtain ⟨pieces, hwithin, hpieces⟩ :=
    ha.canonical.canonical.within_ok hrange (hlast.trans_eq ha.last_eq.symm)
  have htiles := hpieces.tiles
  have hvalues (s : Segment Value) (hs : s ∈ pieces) : s.value.OfWidth w := by
    obtain ⟨hle, hvalue⟩ := htiles.value hs
    rw [← hvalue]
    exact ha.item (hle.trans hlast)
  cases pieces with
  | nil =>
    -- the bounds of a value that was built do not cross, so there is something to read
    obtain hempty : index.lower = index.upper + 1 := htiles
    omega
  | cons s rest =>
    rw [List.forall_mem_cons] at hvalues
    obtain ⟨r, hr, hrw, hrs, hrest⟩ := hvalues.1.foldlM_join hvalues.2
    refine ⟨r, ?_, hrw, fun i hlower hupper => ?_⟩
    · rw [read, checkIndex_ok ha hindex, ok_bind, Runs.reduce?, hwithin, ok_bind]
      show (rest.foldlM (fun acc t => Sized.join acc t.value) s.value >>= _) >>= _ = _
      rw [hr]
      rfl
    · obtain ⟨t, ht, hvalue⟩ := htiles.exists_mem hlower hupper
      rw [hvalue]
      rcases List.mem_cons.1 ht with rfl | ht
      · exact hrs
      · exact hrest t ht

/-! ## Writing -/

/-- A write at a number replaces the element there. -/
theorem write_number (ha : a.OfWidths v w) (hindex : index.OfWidth v) (he : element.OfWidth w)
    {n : Nat} (hn : index.number? = some n) :
    ∃ b, a.write index element = .ok b ∧ b.OfWidths v w ∧
      ∀ i ≤ Word.last v, b.elements.item i = if i = n then element else a.elements.item i := by
  obtain ⟨y, rfl, hy⟩ := hindex.number?_eq_some_iff.1 hn
  have hle : y.toNat ≤ a.elements.last := by
    rw [ha.last_eq]
    exact (hindex.bounds ((hy y).2 rfl)).2.trans hindex.upper_le_last
  obtain ⟨elements, hset, -, -, hitems⟩ := Runs.set_ok ha.ordered hle element
  have hwrite : a.write index element = .ok { a with elements } := by
    simp only [write, checkIndex_ok ha hindex, checkElement_ok ha he, ok_bind, hn, hset]
    rfl
  refine ⟨_, hwrite, ⟨ha.canonical.write he.built hwrite, ha.indexWidth_eq, ha.elementWidth_eq⟩,
    fun i hi => hitems i (ha.last_eq.symm ▸ hi)⟩

/-- A write at an index without a number joins the element into all those between the bounds. -/
theorem write_range (ha : a.OfWidths v w) (hindex : index.OfWidth v) (he : element.OfWidth w)
    (hn : index.number? = none) :
    ∃ b, a.write index element = .ok b ∧ b.OfWidths v w ∧ ∀ i ≤ Word.last v,
      if index.lower ≤ i ∧ i ≤ index.upper then
        (b.elements.item i).contains (a.elements.item i) = .ok true ∧
          (b.elements.item i).contains element = .ok true
      else b.elements.item i = a.elements.item i := by
  have hlast := hindex.upper_le_last
  -- the function is applied to whole runs, but a join is the same wherever its run starts
  have hjoin (i : Nat) (hi : i ≤ Word.last v) := (ha.item hi).join he
  obtain ⟨elements, hmap, -⟩ := ha.ordered.mapRangeM_reads (f := (·.join element))
    hindex.lower_le_upper (hlast.trans_eq ha.last_eq.symm) fun i _ hi => by
      obtain ⟨c, hc, -⟩ := hjoin i (hi.trans hlast)
      exact ⟨c, hc⟩
  obtain ⟨-, -, -, hitems⟩ := Runs.mapRangeM_spec hmap ha.ordered
  have hwrite : a.write index element = .ok { a with elements } := by
    simp only [write, checkIndex_ok ha hindex, checkElement_ok ha he, ok_bind, hn, hmap]
    rfl
  refine ⟨_, hwrite, ⟨ha.canonical.write he.built hwrite, ha.indexWidth_eq, ha.elementWidth_eq⟩,
    fun i hi => ?_⟩
  have hitem := hitems i (ha.last_eq.symm ▸ hi)
  split
  · rename_i hin
    rw [if_pos hin] at hitem
    obtain ⟨c, hc, -, hca, hce, -⟩ := hjoin i hi
    obtain rfl : c = elements.item i := Except.ok.inj (hc.symm.trans hitem)
    exact ⟨hca, hce⟩
  · rename_i hout
    rwa [if_neg hout] at hitem

/-- Elements that the index cannot select stay, and an element that it may select still stands for
    what it stood for, unless the index selects just that one. -/
theorem write_item (ha : a.OfWidths v w) (hindex : index.OfWidth v) (he : element.OfWidth w) :
    ∃ b, a.write index element = .ok b ∧ b.OfWidths v w ∧
      (∀ i ≤ Word.last v, i < index.lower ∨ index.upper < i →
        b.elements.item i = a.elements.item i) ∧
      ∀ i : BitVec v, index.Has ⟨v, i⟩ →
        (b.elements.item i.toNat).contains element = .ok true ∧
          ∀ j ≤ Word.last v, j ≠ i.toNat →
            (b.elements.item j).contains (a.elements.item j) = .ok true := by
  -- replacing an element may lose what it stood for, joining does not
  cases hn : index.number? with
  | some n =>
    obtain ⟨y, rfl, hy⟩ := hindex.number?_eq_some_iff.1 hn
    obtain ⟨hlower, hupper⟩ := hindex.bounds ((hy y).2 rfl)
    obtain ⟨b, hb, hbw, hitems⟩ := write_number ha hindex he hn
    refine ⟨b, hb, hbw, fun i hi hout => ?_, fun i hi => ⟨?_, fun j hj hne => ?_⟩⟩
    · rw [hitems i hi, if_neg (by omega)]
    · obtain rfl := (hy i).1 hi
      rw [hitems _ (hupper.trans hindex.upper_le_last), if_pos rfl]
      exact element.contains_self
    · obtain rfl := (hy i).1 hi
      rw [hitems j hj, if_neg hne]
      exact Value.contains_self _
  | none =>
    obtain ⟨b, hb, hbw, hitems⟩ := write_range ha hindex he hn
    refine ⟨b, hb, hbw, fun i hi hout => ?_, fun i hi => ⟨?_, fun j hj _ => ?_⟩⟩
    · have hitem := hitems i hi
      rwa [if_neg (by omega)] at hitem
    · have hbounds := hindex.bounds hi
      have hitem := hitems i.toNat (hbounds.2.trans hindex.upper_le_last)
      rw [if_pos hbounds] at hitem
      exact hitem.2
    · have hitem := hitems j hj
      split at hitem
      · exact hitem.1
      · rw [hitem]
        exact Value.contains_self _

/-! ## Joins and meets -/

theorem join_item (ha : a.OfWidths v w) (hb : b.OfWidths v w) :
    ∃ c, a.join b = .ok c ∧ c.OfWidths v w ∧
      ∀ i, Sized.join (a.elements.item i) (b.elements.item i) = .ok (c.elements.item i) := by
  have hlast : a.elements.last = b.elements.last := by rw [ha.last_eq, hb.last_eq]
  obtain ⟨elements, hzip, -, -, hitems⟩ := Runs.zipWithM_ok (f := Sized.join) ha.ordered hb.ordered
    hlast fun i hi => by
      rw [ha.last_eq] at hi
      obtain ⟨c, hc, -⟩ := (ha.item hi).join (hb.item hi)
      exact ⟨c, hc⟩
  have hjoin : a.join b = .ok { a with elements } := by
    rw [join, hzip]
    rfl
  exact ⟨_, hjoin, ⟨ha.canonical.join hb.canonical hjoin, ha.indexWidth_eq, ha.elementWidth_eq⟩, hitems⟩

/-- The join of two arrays is the least one that contains both. -/
theorem join_least (ha : a.OfWidths v w) (hb : b.OfWidths v w) :
    ∃ c, a.join b = .ok c ∧ c.OfWidths v w ∧ c.contains a = .ok true ∧ c.contains b = .ok true ∧
      ∀ d : Memory, d.OfWidths v w → d.contains a = .ok true → d.contains b = .ok true →
        d.contains c = .ok true := by
  obtain ⟨c, hc, hcw, hitems⟩ := join_item ha hb
  have hleast (i : Nat) (hi : i ≤ Word.last v) :
      (c.elements.item i).contains (a.elements.item i) = .ok true ∧
        (c.elements.item i).contains (b.elements.item i) = .ok true ∧
          ∀ d : Value, d.OfWidth w → d.contains (a.elements.item i) = .ok true →
            d.contains (b.elements.item i) = .ok true →
              d.contains (c.elements.item i) = .ok true := by
    obtain ⟨r, hr, -, hspec⟩ := (ha.item hi).join (hb.item hi)
    obtain rfl : r = c.elements.item i := Except.ok.inj (hr.symm.trans (hitems i))
    exact hspec
  refine ⟨c, hc, hcw, (hcw.contains_iff ha).2 fun i hi => (hleast i hi).1,
    (hcw.contains_iff hb).2 fun i hi => (hleast i hi).2.1, fun d hd hda hdb => ?_⟩
  refine (hd.contains_iff hcw).2 fun i hi => (hleast i hi).2.2 _ (hd.item hi) ?_ ?_
  · exact (hd.contains_iff ha).1 hda i hi
  · exact (hd.contains_iff hb).1 hdb i hi

/-- A meet succeeds if the elements at each index do, and has their meets as elements then. -/
theorem meet_item (ha : a.OfWidths v w) (hb : b.OfWidths v w) :
    ∃ ok c, a.meet b = .ok (ok, c) ∧ c.OfWidths v w ∧
      (ok = true ↔ ∀ i ≤ Word.last v, ∃ x : BitVec w,
        (a.elements.item i).Has ⟨w, x⟩ ∧ (b.elements.item i).Has ⟨w, x⟩) ∧
      (ok = true → ∀ i ≤ Word.last v, ∀ x : BitVec w, (c.elements.item i).Has ⟨w, x⟩ ↔
        (a.elements.item i).Has ⟨w, x⟩ ∧ (b.elements.item i).Has ⟨w, x⟩) := by
  have hlast : a.elements.last = b.elements.last := by rw [ha.last_eq, hb.last_eq]
  -- what is stored for a pair without a common member does not matter
  let meetElements (x y : Value) : Except Fault (Bool × Value) := do
    let common ← x.meet? y
    return (common.isSome, common.getD x)
  have hmeets (i : Nat) (hi : i ≤ Word.last v) := (ha.item hi).meet? (hb.item hi)
  obtain ⟨met, hzip, hord, hmlast, hitems⟩ := Runs.zipWithM_ok (f := meetElements) ha.ordered
    hb.ordered hlast fun i hi => by
      obtain ⟨o, ho, -⟩ := hmeets i (ha.last_eq ▸ hi)
      exact ⟨_, by simp only [meetElements, ho, ok_bind]; rfl⟩
  have hitem (i : Nat) (hi : i ≤ Word.last v) :
      ((met.item i).1 = true ↔ ∃ x : BitVec w,
        (a.elements.item i).Has ⟨w, x⟩ ∧ (b.elements.item i).Has ⟨w, x⟩) ∧
      ((met.item i).1 = true → ∀ x : BitVec w, (met.item i).2.Has ⟨w, x⟩ ↔
        (a.elements.item i).Has ⟨w, x⟩ ∧ (b.elements.item i).Has ⟨w, x⟩) := by
    obtain ⟨o, ho, hsome, hhas⟩ := hmeets i hi
    have hpair := hitems i
    simp only [meetElements, ho, ok_bind, pure_eq_ok] at hpair
    rw [← hpair]
    refine ⟨hsome, fun h => ?_⟩
    obtain ⟨c, rfl⟩ := Option.isSome_iff_exists.1 h
    exact hhas c rfl
  have hmeet : a.meet b = .ok (met.segments.all fun s => s.value.1,
      { a with elements := met.map Prod.snd }) := by
    rw [meet]
    show (a.elements.zipWithM meetElements b.elements >>= _) = _
    rw [hzip]
    rfl
  -- a pair is tested once for each run, which is once for each index
  have hok : (met.segments.all fun s => s.value.1) = true ↔
      ∀ i ≤ Word.last v, (met.item i).1 = true := by
    rw [hord.all_segments, hmlast, ha.last_eq]
  obtain ⟨-, -, hsnd⟩ := Runs.map_spec Prod.snd hord
  refine ⟨_, _, hmeet, ⟨ha.canonical.meet hb.canonical hmeet, ha.indexWidth_eq, ha.elementWidth_eq⟩,
    hok.trans (forall₂_congr fun i hi => (hitem i hi).1), fun h i hi => ?_⟩
  rw [hsnd i]
  exact (hitem i hi).2 (hok.1 h i hi)

/-! ## Soundness -/

/-- The operations on arrays of an index width and an element width return arrays and values of
    these widths, and follow those on concrete arrays. -/
structure Sound (v w : Nat) : Prop where
  read {a : Memory} {index : Value} : a.OfWidths v w → index.OfWidth v →
    ∃ r, a.read index = .ok r ∧ r.OfWidth w ∧ ∀ (cells : BitVec v → BitVec w) (i : BitVec v),
      a.Holds cells → index.Has ⟨v, i⟩ → r.Has ⟨w, cells i⟩
  write {a : Memory} {index element : Value} : a.OfWidths v w → index.OfWidth v →
    element.OfWidth w → ∃ b, a.write index element = .ok b ∧ b.OfWidths v w ∧
      (∀ (cells : BitVec v → BitVec w) (i : BitVec v) (x : BitVec w),
        a.Holds cells → index.Has ⟨v, i⟩ → element.Has ⟨w, x⟩ →
          b.Holds (Function.update cells i x)) ∧
      (∀ i : BitVec v, (∀ x : BitVec v, index.Has ⟨v, x⟩ ↔ x = i) → ∀ j : BitVec v,
        b.element j.toNat = if j = i then .ok element else a.element j.toNat) ∧
      ∀ j : BitVec v, j.toNat < index.lower ∨ index.upper < j.toNat →
        b.element j.toNat = a.element j.toNat
  contains {a b : Memory} : a.OfWidths v w → b.OfWidths v w → a.contains b = .ok true →
    ∀ cells : BitVec v → BitVec w, b.Holds cells → a.Holds cells
  join {a b : Memory} : a.OfWidths v w → b.OfWidths v w →
    ∃ c, a.join b = .ok c ∧ c.OfWidths v w ∧ c.contains a = .ok true ∧ c.contains b = .ok true ∧
      ∀ d : Memory, d.OfWidths v w → d.contains a = .ok true → d.contains b = .ok true →
        d.contains c = .ok true
  meet {a b : Memory} : a.OfWidths v w → b.OfWidths v w →
    ∃ ok c, a.meet b = .ok (ok, c) ∧ c.OfWidths v w ∧
      (ok = true ↔ ∃ cells : BitVec v → BitVec w, a.Holds cells ∧ b.Holds cells) ∧
      (ok = true → ∀ cells : BitVec v → BitVec w, c.Holds cells ↔ a.Holds cells ∧ b.Holds cells)

/-- Arrays are sound for every index width that values may have. -/
theorem operations_sound (hv : v ≤ Word.maxWidth) (w : Nat) : Sound v w where
  read ha hindex := by
    obtain ⟨r, hr, hrw, hcontains⟩ := read_contains ha hindex
    refine ⟨r, hr, hrw, fun cells i hcells hi => ?_⟩
    obtain ⟨hlower, hupper⟩ := hindex.bounds hi
    exact ((ha.holds_iff hv).1 hcells i).of_contains (hcontains _ hlower hupper)
  write ha hindex he := by
    obtain ⟨b, hb, hbw, houtside, hselected⟩ := write_item ha hindex he
    refine ⟨b, hb, hbw, fun cells i x hcells hi hx => (hbw.holds_iff hv).2 fun j => ?_,
      fun i hi j => ?_, fun j hj => ?_⟩
    · -- the written element is met at the index, and what was there before elsewhere
      obtain ⟨hnew, hold⟩ := hselected i hi
      by_cases hji : j = i
      · subst hji
        rw [Function.update_self]
        exact hx.of_contains hnew
      · rw [Function.update_of_ne hji]
        exact ((ha.holds_iff hv).1 hcells j).of_contains
          (hold _ (toNat_le_last hv j) (mt BitVec.eq_of_toNat_eq hji))
    · -- a known index replaces the element
      obtain ⟨b', hb', -, hitems⟩ :=
        write_number ha hindex he (hindex.number?_eq_some_iff.2 ⟨i, rfl, hi⟩)
      obtain rfl := Except.ok.inj (hb.symm.trans hb')
      have hj := toNat_le_last hv j
      rw [hbw.element_eq hj, ha.element_eq hj, hitems _ hj, apply_ite Except.ok]
      exact if_congr BitVec.toNat_inj rfl rfl
    · have hle := toNat_le_last hv j
      rw [hbw.element_eq hle, ha.element_eq hle, houtside _ hle hj]
  contains ha hb h _ hcells := Holds.of_contains hv ha hb h hcells
  join := join_least
  meet ha hb := by
    obtain ⟨ok, c, hmeet, hcw, hok, hitems⟩ := meet_item ha hb
    refine ⟨ok, c, hmeet, hcw, hok.trans ⟨fun h => ?_, fun ⟨cells, hcells⟩ i hi => ?_⟩,
      fun h cells => ?_⟩
    · -- a concrete array takes a common member at each index
      choose cells hcells using fun i : BitVec v => h _ (toNat_le_last hv i)
      exact ⟨cells, (ha.holds_iff hv).2 fun i => (hcells i).1,
        (hb.holds_iff hv).2 fun i => (hcells i).2⟩
    · obtain ⟨x, rfl⟩ := exists_toNat_eq hv hi
      exact ⟨cells x, (ha.holds_iff hv).1 hcells.1 x, (hb.holds_iff hv).1 hcells.2 x⟩
    · rw [hcw.holds_iff hv, ha.holds_iff hv, hb.holds_iff hv, ← forall_and]
      exact forall_congr' fun i => hitems h _ (toNat_le_last hv i) _

/-- The last index may be the largest word: a write there replaces the last element and no other
    one, and reading at an unknown index finds both. -/
theorem operations_sound_at_largest_index :
    64 ≤ Word.maxWidth ∧ ∃ b, (replicate 64 (.ofNat 4 0)).write (.ofNat 64 (2 ^ 64 - 1)) (.ofNat 4 5) =
        .ok b ∧ b.element (2 ^ 64 - 1) = .ok (.ofNat 4 5) ∧
      b.element (2 ^ 64 - 2) = .ok (.ofNat 4 0) ∧
      ∃ r, b.read ⟨64, .full 64⟩ = .ok r ∧ r.Has ⟨4, 5#4⟩ ∧ r.Has ⟨4, 0#4⟩ := by
  have hv : 64 ≤ Word.maxWidth := by decide
  have hmember {k n : Nat} (hk : k ≤ Word.maxWidth) (x : BitVec k) :
      (Value.ofNat k n).Has ⟨k, x⟩ ↔ x = BitVec.ofNat k n :=
    (Value.has_iff hk).trans Reduced.mem_ofWord
  have hzero := Value.ofWidth_ofNat (show 4 ≤ Word.maxWidth by decide) 0
  have hzeros : (replicate 64 (.ofNat 4 0)).OfWidths 64 4 := (Built.replicate 64 hzero.built).ofWidths
  obtain ⟨b, hb, hbw, hholds, hsingle, -⟩ := (operations_sound hv 4).write hzeros
    (Value.ofWidth_ofNat hv (2 ^ 64 - 1)) (Value.ofWidth_ofNat (by decide) 5)
  have helements := hsingle _ (hmember hv)
  -- zeros, apart from the element that was written
  have hcells := hholds (fun _ => 0#4) (BitVec.ofNat 64 (2 ^ 64 - 1)) 5#4
    (fun i => ⟨_, hzeros.element_eq (toNat_le_last hv i), (hmember (by decide) _).2 rfl⟩)
    ((hmember hv _).2 rfl) ((hmember (by decide) _).2 rfl)
  have hfull : Value.OfWidth ⟨64, .full 64⟩ 64 := ⟨⟨hv, .full 64⟩, rfl⟩
  obtain ⟨r, hr, -, hread⟩ := (operations_sound hv 4).read hbw hfull
  have hfinds (i : BitVec 64) := hread _ i hcells ((Value.has_iff hv).2 (Reduced.mem_full i))
  have hwritten := hfinds (BitVec.ofNat 64 (2 ^ 64 - 1))
  have hkept := hfinds 0
  rw [Function.update_self] at hwritten
  rw [Function.update_of_ne (by decide)] at hkept
  have hlast := (helements (BitVec.ofNat 64 (2 ^ 64 - 1))).trans (if_pos rfl)
  have hbefore := (helements (BitVec.ofNat 64 (2 ^ 64 - 2))).trans (if_neg (by decide))
  rw [hzeros.element_eq (toNat_le_last hv _)] at hbefore
  exact ⟨hv, b, hb, hlast, hbefore, r, hr, hwritten, hkept⟩

end Memory

end RefineCheck
