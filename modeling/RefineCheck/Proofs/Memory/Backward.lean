/-
  RefineCheck.Proofs.Memory.Backward

  Backward marks of array accesses ask for enough. While an index may select several elements it is
  marked itself, so some mark is left in any case. Once no mark of the index is left, the marks of
  the array and of the element are on all the bits that the marked bits of the result depend on.
-/

import Mathlib
import RefineCheck.Proofs.Mark.Backward
import RefineCheck.Proofs.Memory.Soundness

namespace RefineCheck

/-! ## Single values -/

namespace Value

variable {w n : Nat} {a a' : Value}

/-- Whether a value stands for one word. -/
def Single (a : Value) : Prop := ∃ x : BitVec a.width, ∀ y, a.Has ⟨a.width, y⟩ ↔ y = x

theorem number?_isSome_of_unknown (h : a.unknown = ∅) : a.number?.isSome = true := by
  have hbits : a.val.bits.word? = some a.val.bits.ones := if_pos (unknown_eq_empty_iff.1 h)
  rw [number?, Reduced.word?, hbits]
  rfl

namespace OfWidth

theorem number?_of_single (ha : a.OfWidth w) (h : a.Single) : ∃ n, a.number? = some n := by
  obtain rfl := ha.width_eq
  obtain ⟨x, hx⟩ := h
  exact ⟨x.toNat, ha.number?_eq_some_iff.2 ⟨x, rfl, hx⟩⟩

/-- The bounds are members. -/
theorem bounds_has (ha : a.OfWidth w) :
    ∃ x y : BitVec w, a.Has ⟨w, x⟩ ∧ a.Has ⟨w, y⟩ ∧ x.toNat = a.lower ∧ y.toNat = a.upper := by
  obtain ⟨w, a⟩ := a
  obtain ⟨⟨hw, hval⟩, rfl⟩ := ha
  have hbounds := hval.tight.bounded
  exact ⟨_, _, (has_iff hw).2 hbounds.umin_mem, (has_iff hw).2 hbounds.umax_mem, rfl, rfl⟩

theorem bounds_of_number? (ha : a.OfWidth w) (h : a.number? = some n) :
    a.lower = n ∧ a.upper = n := by
  obtain ⟨z, rfl, hz⟩ := ha.number?_eq_some_iff.1 h
  obtain ⟨x, y, hx, hy, hlower, hupper⟩ := ha.bounds_has
  rw [← hlower, ← hupper, (hz x).1 hx, (hz y).1 hy]
  exact ⟨rfl, rfl⟩

/-- The bounds of a contained value are not further apart. -/
theorem bounds_of_contains (ha : a.OfWidth w) (ha' : a'.OfWidth w) (h : a.contains a' = .ok true) :
    a.lower ≤ a'.lower ∧ a'.upper ≤ a.upper := by
  obtain ⟨x, y, hx, hy, hlower, hupper⟩ := ha'.bounds_has
  rw [← hlower, ← hupper]
  exact ⟨(ha.bounds (hx.of_contains h)).1, (ha.bounds (hy.of_contains h)).2⟩

/-- What is contained in a value with one member is that member. -/
theorem number?_of_contains (ha : a.OfWidth w) (ha' : a'.OfWidth w) (h : a.contains a' = .ok true)
    (hn : a.number? = some n) : a'.number? = some n := by
  obtain ⟨z, rfl, hz⟩ := ha.number?_eq_some_iff.1 hn
  obtain ⟨y, hy⟩ := ha'.exists_has
  obtain rfl := (hz y).1 (hy.of_contains h)
  refine ha'.number?_eq_some_iff.2 ⟨y, rfl, fun x => ⟨fun hx => (hz x).1 (hx.of_contains h), ?_⟩⟩
  rintro rfl
  exact hy

end OfWidth

end Value

/-! ## Elements of a range -/

namespace Runs

/-- A range of one index has one piece. -/
theorem Canonical.within_single {α : Type} {l : Runs α} (hl : l.Canonical) {i : Nat}
    (hi : i ≤ l.last) : l.within i i = .ok [⟨i, i, l.item i⟩] := by
  obtain ⟨pieces, hwithin, hpieces⟩ := hl.within_ok le_rfl hi
  have htiles := hpieces.tiles
  cases pieces with
  | nil =>
    obtain hempty : i = i + 1 := htiles
    omega
  | cons s rest =>
    obtain ⟨hfirst, hle, hlast, hitem, hrest⟩ := htiles
    have hvalue := hitem i le_rfl hle
    cases rest with
    | nil =>
      obtain ⟨first, last, value⟩ := s
      obtain rfl : first = i := hfirst
      obtain rfl : last = first := le_antisymm hlast hle
      rw [hwithin, hvalue]
    | cons t rest =>
      obtain ⟨-, hle', hlast', -⟩ := hrest
      omega

/-- A test of a range that fails does so at each index. -/
theorem any_ok {α : Type} {l : Runs α} (hl : l.Ordered) {first last : Nat} (hrange : first ≤ last)
    (hlast : last ≤ l.last) (p : α → Bool) :
    ∃ b, l.any first last p = .ok b ∧
      (b = false → ∀ i, first ≤ i → i ≤ last → p (l.item i) = false) := by
  obtain ⟨pieces, hwithin, htiles, -⟩ := hl.within_ok hrange hlast
  refine ⟨pieces.any fun s => p s.value, ?_, fun hb i hfirst hi => ?_⟩
  · rw [any, hwithin]
    rfl
  · obtain ⟨s, hs, hvalue⟩ := htiles.exists_mem hfirst hi
    rw [List.any_eq_false] at hb
    rw [hvalue, Bool.eq_false_iff]
    exact hb s hs

end Runs

namespace Memory

variable {v w n : Nat} {a a' : Memory} {index : Value}

/-- A read at a number is the element there. -/
theorem read_number (ha : a.OfWidths v w) (hindex : index.OfWidth v) (hn : index.number? = some n) :
    a.read index = .ok (a.elements.item n) := by
  obtain ⟨hlower, hupper⟩ := hindex.bounds_of_number? hn
  have hlast : n ≤ a.elements.last := by
    rw [ha.last_eq, ← hupper]
    exact hindex.upper_le_last
  rw [read, checkIndex_ok ha hindex, ok_bind, hlower, hupper, Runs.reduce?,
    ha.canonical.canonical.within_single hlast]
  rfl

/-- The unknown bits of an array by index and position. -/
def unknown (a : Memory) : Set (Nat × Nat) :=
  {x | x.1 ≤ a.elements.last ∧ x.2 ∈ (a.elements.item x.1).unknown}

theorem OfWidths.mem_unknown (ha : a.OfWidths v w) {i k : Nat} :
    (i, k) ∈ a.unknown ↔ i ≤ Word.last v ∧ k ∈ (a.elements.item i).unknown := by
  rw [← ha.last_eq]
  exact Iff.rfl

end Memory

/-! ## Marks of arrays -/

namespace MemoryMark

open Marking (Asks Answers)

variable {v w n i : Nat} {a a' : Memory} {m later : MemoryMark} {index element : Value}
  {mark : Marking}

theorem marked_eq_empty (hm : m.marks.Ordered) (h : m.isMarked = false) : m.marked = ∅ := by
  refine Set.eq_empty_iff_forall_notMem.2 fun ⟨i, k⟩ ⟨hi, hk⟩ => ?_
  obtain ⟨s, hs, hvalue⟩ := hm.tiles.exists_mem (Nat.zero_le i) hi
  rw [isMarked, List.any_eq_false] at h
  have hunmarked := Marking.marked_eq_empty_iff.2 (Bool.eq_false_iff.2 (h s hs))
  rw [hvalue, hunmarked] at hk
  exact hk

theorem isMarked_unmarked : Marking.isMarked ⟨w, .unmarked w⟩ = false := by
  simp [Marking.isMarked, Mark.isMarked, Mark.unmarked]

theorem unmarked_eq (hw : w ≤ Word.maxWidth) : Marking.unmarked w = .ok ⟨w, .unmarked w⟩ := by
  rw [Marking.unmarked, checkWidth, if_pos hw]
  rfl

/-- The mark of an array that marks nothing. -/
theorem unmarked_ok (hw : w ≤ Word.maxWidth) :
    ∃ m, unmarked v w = .ok m ∧ m.OfWidths v w ∧ m.isMarked = false ∧
      ∀ i, m.marks.item i = ⟨w, .unmarked w⟩ := by
  refine ⟨replicate v ⟨w, .unmarked w⟩, ?_, ⟨wellFormed_replicate hw, rfl, rfl⟩, ?_, fun _ => rfl⟩
  · rw [unmarked, unmarked_eq hw]
    rfl
  · show (Marking.isMarked ⟨w, .unmarked w⟩ || false) = false
    rw [isMarked_unmarked, Bool.or_false]

/-- A refinement of an array in which every marked bit is known. -/
structure Answered (a : Memory) (m : MemoryMark) (a' : Memory) : Prop where
  ofWidths : a'.OfWidths a.indexWidth a.elementWidth
  contained : a.contains a' = .ok true
  known : Disjoint m.marked a'.unknown

/-- An array answers a mark without bits itself. -/
theorem answered_self (ha : a.Canonical) (hm : m.marks.Ordered) (h : m.isMarked = false) :
    Answered a m a where
  ofWidths := ⟨ha, rfl, rfl⟩
  contained := Memory.contains_self ha.toWellFormed
  known := by
    rw [marked_eq_empty hm h]
    exact Set.empty_disjoint _

/-- A bit of an array that is marked if it was unknown is known. -/
theorem Answered.notMem_unknown (ha : a.OfWidths v w) (h : Answered a m a') {k : Nat}
    (hi : i ≤ Word.last v) (hk : k ∈ (a.elements.item i).unknown → (i, k) ∈ m.marked) :
    k ∉ (a'.elements.item i).unknown := by
  intro hu
  have ha' : a'.OfWidths v w := ha.indexWidth_eq ▸ ha.elementWidth_eq ▸ h.ofWidths
  have hcontained := (ha.contains_iff ha').1 h.contained i hi
  have hmarked := hk ((Marking.contains_eq_true hcontained).2 hu)
  exact Set.disjoint_left.1 h.known hmarked (ha'.mem_unknown.2 ⟨hi, hu⟩)

/-! ### Marks of an index -/

theorem asks_unmarked {a : Value} (ha : a.width = w) : Asks a ⟨w, .unmarked w⟩ := by
  refine ⟨ha.symm, ?_⟩
  rw [Marking.marked_eq_empty_iff.2 isMarked_unmarked]
  exact Set.empty_subset _

/-- An index without a number has an unknown bit to mark. -/
theorem limit_all_ok (hindex : index.OfWidth v) (hn : index.number? = none) (importance : Nat) :
    ∃ m, (Marking.all v importance >>= fun all => all.limit index) = .ok m ∧ Asks index m ∧
      m.isMarked = true := by
  have hwidth : (⟨v, .all v importance⟩ : Marking).width = index.width := hindex.width_eq.symm
  obtain ⟨m, hlimit, hasks, hmarked⟩ := Marking.limit_ok hwidth
  refine ⟨m, ?_, hasks, ?_⟩
  · have hv : v ≤ Word.maxWidth := hindex.width_eq ▸ hindex.built.width_le
    rw [Marking.all, checkWidth, if_pos hv]
    exact hlimit
  · by_contra hm
    have hempty := Marking.marked_eq_empty_iff.2 (Bool.eq_false_iff.2 hm)
    have hunknown : index.unknown = ∅ := by
      refine Set.eq_empty_iff_forall_notMem.2 fun k hk => ?_
      have hlt : k < index.width := BitVec.lt_of_getLsbD hk
      rw [hindex.width_eq] at hlt
      have hall : k ∈ Marking.marked ⟨v, .all v importance⟩ := by
        simp [Marking.marked, Mark.all, hlt]
      have hmem := hmarked k hall hk
      rw [hempty] at hmem
      exact hmem
    have hsome := Value.number?_isSome_of_unknown hunknown
    rw [hn] at hsome
    cases hsome

/-! ## Reading -/

/-- Marks of an array and an index that are sufficient for a mark of what is read. -/
structure SufficientRead (a : Memory) (index : Value) (later : Marking)
    (marks : MemoryMark × Marking) : Prop where
  ofWidths : marks.1.OfWidths a.indexWidth a.elementWidth
  arrayAsks : marks.1.marked ⊆ a.unknown
  indexAsks : Asks index marks.2
  settles {a' : Memory} {index' : Value} : index.Single ∨ marks.2.isMarked = false →
    Answered a marks.1 a' → Answers index marks.2 index' → later.Settles (a'.read index')
  culprit : ∃ r, a.read index = .ok r ∧ (¬ Disjoint later.marked r.unknown →
    marks.1.isMarked = true ∨ marks.2.isMarked = true)

theorem sufficientRead_of_settles {marks : MemoryMark × Marking} {later : Marking}
    (ha : a.OfWidths v w) (hindex : index.OfWidth v)
    (hmarks : marks.1.OfWidths v w) (arrayAsks : marks.1.marked ⊆ a.unknown)
    (indexAsks : Asks index marks.2) (hsingle : index.Single → marks.2.isMarked = false)
    (settles : ∀ a' index', marks.2.isMarked = false → a'.OfWidths v w → index'.OfWidth v →
      Answered a marks.1 a' → Answers index marks.2 index' → later.Settles (a'.read index')) :
    SufficientRead a index later marks where
  ofWidths := by rwa [ha.indexWidth_eq, ha.elementWidth_eq]
  arrayAsks
  indexAsks
  settles h harray hanswer := by
    have hwidths := harray.ofWidths
    rw [ha.indexWidth_eq, ha.elementWidth_eq] at hwidths
    exact settles _ _ (h.elim hsingle id) hwidths
      ⟨hanswer.built, hanswer.width.trans hindex.width_eq⟩ harray hanswer
  culprit := by
    obtain ⟨r, hr, -⟩ := Memory.read_contains ha hindex
    refine ⟨r, hr, fun hunknown => ?_⟩
    -- operands without marks settle the result as they are
    by_contra hm
    rw [not_or, Bool.not_eq_true, Bool.not_eq_true] at hm
    obtain ⟨r', hr', hknown⟩ := settles a index hm.2 ha hindex
      (answered_self ha.canonical hmarks.ordered hm.1) (Marking.answers_self hindex.built hm.2)
    rw [Except.ok.inj (hr.symm.trans hr')] at hunknown
    exact hunknown hknown

/-- A read at a number passes the marks to the element there. -/
theorem backRead_number {later : Marking} (ha : a.OfWidths v w) (hindex : index.OfWidth v)
    (hlater : later.width = w) (hm : later.isMarked = true) (hn : index.number? = some n) :
    ∃ marks, backRead a index later = .ok marks ∧ SufficientRead a index later marks := by
  have hv : v ≤ Word.maxWidth := hindex.width_eq ▸ hindex.built.width_le
  have hw : w ≤ Word.maxWidth := ha.elementWidth_eq ▸ ha.canonical.width_le
  have hlast : n ≤ Word.last v := (hindex.bounds_of_number? hn).2 ▸ hindex.upper_le_last
  have hitem := ha.item hlast
  obtain ⟨earlier, hearlier, hwidths, -, hitems⟩ := unmarked_ok (v := v) hw
  obtain ⟨limited, hlimit, hasks, hmarked⟩ :=
    Marking.limit_ok (a := a.elements.item n) (hlater.trans hitem.width_eq.symm)
  obtain ⟨marks, hset, hmarks, hmarksItem⟩ :=
    hwidths.set_ok hlast (hasks.width.trans hitem.width_eq)
  have hget : a.elements.get n = .ok (a.elements.item n) := ha.element_eq hlast
  refine ⟨({ earlier with marks }, ⟨v, .unmarked v⟩), ?_, sufficientRead_of_settles ha hindex hmarks
    ?_ (asks_unmarked hindex.width_eq) (fun _ => isMarked_unmarked) ?_⟩
  · simp only [backRead, ha.indexWidth_eq, ha.elementWidth_eq, hearlier, hm, hn, hget, hlimit, hset,
      unmarked_eq hv, ok_bind, Bool.not_true, Bool.false_eq_true, if_false]
    rfl
  · -- only unknown bits of the element at the number are asked for
    rintro ⟨i, k⟩ hik
    obtain ⟨hi, hk⟩ := hmarks.mem_marked.1 hik
    rw [hmarksItem i hi] at hk
    split at hk
    · rename_i hin
      subst hin
      exact ha.mem_unknown.2 ⟨hi, hasks.marked hk⟩
    · rw [hitems, Marking.marked_eq_empty_iff.2 isMarked_unmarked] at hk
      exact hk.elim
  · intro a' index' _ ha' hindex' harray hanswer
    refine ⟨_, Memory.read_number ha' hindex'
      (hindex.number?_of_contains hindex' hanswer.contained hn), Set.disjoint_left.2 fun k hk => ?_⟩
    refine harray.notMem_unknown ha hlast fun hu => hmarks.mem_marked.2 ⟨hlast, ?_⟩
    rw [hmarksItem n hlast, if_pos rfl]
    exact hmarked k hk hu

theorem backRead_sufficient {later : Marking} (ha : a.OfWidths v w) (hindex : index.OfWidth v)
    (hlater : later.width = w) :
    ∃ marks, backRead a index later = .ok marks ∧ SufficientRead a index later marks := by
  have hv : v ≤ Word.maxWidth := hindex.width_eq ▸ hindex.built.width_le
  have hw : w ≤ Word.maxWidth := ha.elementWidth_eq ▸ ha.canonical.width_le
  obtain ⟨earlier, hearlier, hwidths, hnone, -⟩ := unmarked_ok (v := v) hw
  have hasks : earlier.marked ⊆ a.unknown := by
    rw [marked_eq_empty hwidths.ordered hnone]
    exact Set.empty_subset _
  -- nothing is asked for an element that is not marked
  cases hm : later.isMarked with
  | false =>
    refine ⟨(earlier, ⟨v, .unmarked v⟩), ?_, sufficientRead_of_settles ha hindex hwidths hasks
      (asks_unmarked hindex.width_eq) (fun _ => isMarked_unmarked) ?_⟩
    · simp only [backRead, ha.indexWidth_eq, ha.elementWidth_eq, hearlier, hm, unmarked_eq hv, ok_bind,
        Bool.not_false, if_true]
      rfl
    · intro a' index' _ ha' hindex' _ _
      obtain ⟨r, hr, -⟩ := Memory.read_contains ha' hindex'
      refine ⟨r, hr, ?_⟩
      rw [Marking.marked_eq_empty_iff.2 hm]
      exact Set.empty_disjoint _
  | true =>
    cases hn : index.number? with
    | some n => exact backRead_number ha hindex hlater hm hn
    | none =>
      -- the index itself is asked for first, and no element before it is known
      obtain ⟨m, hlimit, hindexAsks, hmarked⟩ := limit_all_ok hindex hn later.importance
      refine ⟨(earlier, m), ?_, sufficientRead_of_settles ha hindex hwidths hasks hindexAsks
        (fun h => ?_) fun _ _ h => ?_⟩
      · obtain ⟨all, hall, hlimit⟩ := bind_eq_ok.1 hlimit
        simp only [backRead, ha.indexWidth_eq, ha.elementWidth_eq, hearlier, hm, hn, hall, hlimit,
          ok_bind, Bool.not_true, Bool.false_eq_true, if_false]
        rfl
      · obtain ⟨n, hsome⟩ := hindex.number?_of_single h
        rw [hn] at hsome
        cases hsome
      · rw [hmarked] at h
        cases h

/-! ## Writing -/

/-- Marks of an array, an index and an element that are sufficient for a mark of the written
    array. -/
structure SufficientWrite (a : Memory) (index element : Value) (later : MemoryMark)
    (marks : MemoryMark × Marking × Marking) : Prop where
  ofWidths : marks.1.OfWidths a.indexWidth a.elementWidth
  indexAsks : Asks index marks.2.1
  elementAsks : Asks element marks.2.2
  settles {a' : Memory} {index' element' : Value} : index.Single ∨ marks.2.1.isMarked = false →
    Answered a marks.1 a' → Answers index marks.2.1 index' → Answers element marks.2.2 element' →
      ∃ b, a'.write index' element' = .ok b ∧ Disjoint later.marked b.unknown
  culprit : ∃ b, a.write index element = .ok b ∧ (¬ Disjoint later.marked b.unknown →
    marks.1.isMarked = true ∨ marks.2.1.isMarked = true ∨ marks.2.2.isMarked = true)

theorem sufficientWrite_of_settles {marks : MemoryMark × Marking × Marking} (ha : a.OfWidths v w)
    (hindex : index.OfWidth v) (he : element.OfWidth w) (hmarks : marks.1.OfWidths v w)
    (indexAsks : Asks index marks.2.1) (elementAsks : Asks element marks.2.2)
    (hsingle : index.Single → marks.2.1.isMarked = false)
    (settles : ∀ a' index' element', marks.2.1.isMarked = false → a'.OfWidths v w →
      index'.OfWidth v → element'.OfWidth w → Answered a marks.1 a' →
        Answers index marks.2.1 index' → Answers element marks.2.2 element' →
          ∃ b, a'.write index' element' = .ok b ∧ Disjoint later.marked b.unknown) :
    SufficientWrite a index element later marks where
  ofWidths := by rwa [ha.indexWidth_eq, ha.elementWidth_eq]
  indexAsks
  elementAsks
  settles h harray hanswer helement := by
    have hwidths := harray.ofWidths
    rw [ha.indexWidth_eq, ha.elementWidth_eq] at hwidths
    exact settles _ _ _ (h.elim hsingle id) hwidths
      ⟨hanswer.built, hanswer.width.trans hindex.width_eq⟩
      ⟨helement.built, helement.width.trans he.width_eq⟩ harray hanswer helement
  culprit := by
    obtain ⟨b, hb, -⟩ := Memory.write_item ha hindex he
    refine ⟨b, hb, fun hunknown => ?_⟩
    by_contra hm
    rw [not_or, not_or, Bool.not_eq_true, Bool.not_eq_true, Bool.not_eq_true] at hm
    obtain ⟨harray, hi, hel⟩ := hm
    obtain ⟨b', hb', hknown⟩ := settles a index element hi ha hindex he
      (answered_self ha.canonical hmarks.ordered harray) (Marking.answers_self hindex.built hi)
      (Marking.answers_self he.built hel)
    rw [Except.ok.inj (hb.symm.trans hb')] at hunknown
    exact hunknown hknown

/-- A write at a number passes the mark of the element there to the element that is written. -/
theorem backWrite_number (ha : a.OfWidths v w) (hindex : index.OfWidth v) (he : element.OfWidth w)
    (hlater : later.OfWidths v w) (hn : index.number? = some n) :
    ∃ marks, backWrite a index element later = .ok marks ∧
      SufficientWrite a index element later marks := by
  have hv : v ≤ Word.maxWidth := hindex.width_eq ▸ hindex.built.width_le
  have hw : w ≤ Word.maxWidth := ha.elementWidth_eq ▸ ha.canonical.width_le
  have hlast : n ≤ Word.last v := (hindex.bounds_of_number? hn).2 ▸ hindex.upper_le_last
  have hget : later.marks.get n = .ok (later.marks.item n) :=
    Runs.get_ok (hlast.trans_eq hlater.last_eq.symm)
  obtain ⟨limited, hlimit, hasks, hmarked⟩ :=
    Marking.limit_ok (a := element) ((hlater.item_width hlast).trans he.width_eq.symm)
  have hunmarked : (⟨w, .unmarked w⟩ : Marking).width = w := rfl
  obtain ⟨marks, hset, hmarks, hmarksItem⟩ := hlater.set_ok hlast hunmarked
  refine ⟨({ later with marks }, ⟨v, .unmarked v⟩, limited), ?_, sufficientWrite_of_settles ha hindex
    he hmarks (asks_unmarked hindex.width_eq) hasks (fun _ => isMarked_unmarked) ?_⟩
  · simp only [backWrite, ha.indexWidth_eq, ha.elementWidth_eq, hn, hget, hlimit, hset,
      unmarked_eq hv, unmarked_eq hw, ok_bind]
    rfl
  · -- at the number the element is what was written, elsewhere it is that of the array
    intro a' index' element' _ ha' hindex' he' harray hanswer helement
    obtain ⟨b, hb, hbw, hitems⟩ := Memory.write_number ha' hindex' he'
      (hindex.number?_of_contains hindex' hanswer.contained hn)
    refine ⟨b, hb, Set.disjoint_left.2 fun ⟨i, k⟩ hik hu => ?_⟩
    obtain ⟨hi, hk⟩ := hlater.mem_marked.1 hik
    have hu := (hbw.mem_unknown.1 hu).2
    rw [hitems i hi] at hu
    split at hu
    · rename_i hin
      subst hin
      exact helement.notMem_unknown (hmarked k hk) hu
    · rename_i hin
      refine harray.notMem_unknown ha hi (fun _ => hmarks.mem_marked.2 ⟨hi, ?_⟩) hu
      rwa [hmarksItem i hi, if_neg hin]

/-- A write at an index without a number keeps the marks of an array in which no element that the
    index may select is marked. -/
theorem backWrite_range (ha : a.OfWidths v w) (hindex : index.OfWidth v) (he : element.OfWidth w)
    (hlater : later.OfWidths v w) (hn : index.number? = none) :
    ∃ marks, backWrite a index element later = .ok marks ∧
      SufficientWrite a index element later marks := by
  have hv : v ≤ Word.maxWidth := hindex.width_eq ▸ hindex.built.width_le
  have hw : w ≤ Word.maxWidth := ha.elementWidth_eq ▸ ha.canonical.width_le
  have hsingle : ¬ index.Single := by
    intro h
    obtain ⟨n, hsome⟩ := hindex.number?_of_single h
    rw [hn] at hsome
    cases hsome
  obtain ⟨selected, hany, hnone⟩ := Runs.any_ok hlater.ordered hindex.lower_le_upper
    (hindex.upper_le_last.trans_eq hlater.last_eq.symm) Marking.isMarked
  cases selected with
  | true =>
    obtain ⟨earlier, hearlier, hwidths, -, -⟩ := unmarked_ok (v := v) hw
    obtain ⟨m, hlimit, hindexAsks, hmarked⟩ := limit_all_ok hindex hn later.importance
    refine ⟨(earlier, m, ⟨w, .unmarked w⟩), ?_, sufficientWrite_of_settles ha hindex he hwidths
      hindexAsks (asks_unmarked he.width_eq) (fun h => absurd h hsingle) fun _ _ _ h => ?_⟩
    · obtain ⟨all, hall, hlimit⟩ := bind_eq_ok.1 hlimit
      simp only [backWrite, ha.indexWidth_eq, ha.elementWidth_eq, hn, hany, hearlier, hall, hlimit,
        unmarked_eq hv, unmarked_eq hw, ok_bind, if_true]
      rfl
    · rw [hmarked] at h
      cases h
  | false =>
    refine ⟨(later, ⟨v, .unmarked v⟩, ⟨w, .unmarked w⟩), ?_, sufficientWrite_of_settles ha hindex he
      hlater (asks_unmarked hindex.width_eq) (asks_unmarked he.width_eq)
      (fun h => absurd h hsingle) ?_⟩
    · simp only [backWrite, ha.indexWidth_eq, ha.elementWidth_eq, hn, hany, unmarked_eq hv,
        unmarked_eq hw, ok_bind, Bool.false_eq_true, if_false]
      rfl
    · intro a' index' element' _ ha' hindex' he' harray hanswer _
      obtain ⟨b, hb, hbw, houtside, -⟩ := Memory.write_item ha' hindex' he'
      refine ⟨b, hb, Set.disjoint_left.2 fun ⟨i, k⟩ hik hu => ?_⟩
      obtain ⟨hi, hk⟩ := hlater.mem_marked.1 hik
      -- a marked element is out of reach of the index, so the write leaves it
      obtain ⟨hlower, hupper⟩ := hindex.bounds_of_contains hindex' hanswer.contained
      have hout : i < index'.lower ∨ index'.upper < i := by
        by_contra hin
        have hunmarked := hnone rfl i (by omega) (by omega)
        rw [Marking.marked_eq_empty_iff.2 hunmarked] at hk
        exact hk
      have hu := (hbw.mem_unknown.1 hu).2
      rw [houtside i hi hout] at hu
      exact harray.notMem_unknown ha hi (fun _ => hik) hu

/-! ## Accesses -/

/-- Backward marks of reads and writes are sufficient, whatever the index and the marks are. -/
theorem access_sufficient (ha : a.OfWidths v w) (hindex : index.OfWidth v)
    (he : element.OfWidth w) :
    (∀ later : Marking, later.width = w → ∃ marks, backRead a index later = .ok marks ∧
      SufficientRead a index later marks) ∧
    ∀ later : MemoryMark, later.OfWidths v w →
      ∃ marks, backWrite a index element later = .ok marks ∧
        SufficientWrite a index element later marks := by
  refine ⟨fun later hlater => backRead_sufficient ha hindex hlater, fun later hlater => ?_⟩
  cases hn : index.number? with
  | some n => exact backWrite_number ha hindex he hlater hn
  | none => exact backWrite_range ha hindex he hlater hn

/-- The lowest bit of what is read from unknown elements at an unknown index is unknown, and a mark
    of it asks for a bit of the index or of the array. -/
theorem access_sufficient_of_unknown :
    (Memory.replicate 2 ⟨4, .full 4⟩).OfWidths 2 4 ∧ Value.OfWidth ⟨2, .full 2⟩ 2 ∧
      (Value.ofNat 4 5).OfWidth 4 ∧
      (Memory.replicate 2 ⟨4, .full 4⟩).read ⟨2, .full 2⟩ = .ok ⟨4, .full 4⟩ ∧
      ∃ marks, backRead (Memory.replicate 2 ⟨4, .full 4⟩) ⟨2, .full 2⟩ ⟨4, .of 1 1⟩ = .ok marks ∧
        (marks.1.isMarked = true ∨ marks.2.isMarked = true) := by
  have hfull : Value.OfWidth ⟨4, .full 4⟩ 4 := ⟨⟨by decide, .full 4⟩, rfl⟩
  have ha : (Memory.replicate 2 ⟨4, .full 4⟩).OfWidths 2 4 :=
    (Memory.Built.replicate 2 hfull.built).ofWidths
  have hindex : Value.OfWidth ⟨2, .full 2⟩ 2 := ⟨⟨by decide, .full 2⟩, rfl⟩
  have he : (Value.ofNat 4 5).OfWidth 4 := Value.ofWidth_ofNat (by decide) 5
  obtain ⟨hread, -⟩ := access_sufficient ha hindex he
  obtain ⟨marks, hmarks, hsufficient⟩ := hread ⟨4, .of 1 1⟩ rfl
  have hr : (Memory.replicate 2 ⟨4, .full 4⟩).read ⟨2, .full 2⟩ = .ok ⟨4, .full 4⟩ := by decide
  have hmarked : (0 : Nat) ∈ Marking.marked ⟨4, .of 1 1⟩ :=
    show (Mark.of (1 : BitVec 4) 1).bits.getLsbD 0 = true by decide
  have hunknown : (0 : Nat) ∈ Value.unknown ⟨4, .full 4⟩ :=
    show (Reduced.full 4).bits.unknown.getLsbD 0 = true by decide
  obtain ⟨r, hr', hculprit⟩ := hsufficient.culprit
  obtain rfl := Except.ok.inj (hr.symm.trans hr')
  exact ⟨ha, hindex, he, hr, marks, hmarks,
    hculprit (Set.not_disjoint_iff.2 ⟨0, hmarked, hunknown⟩)⟩

end MemoryMark

end RefineCheck
