/-
  RefineCheck.Proofs.Mark.Operations

  Joining, refining and decaying with marks. On marks and values of one shape the operations
  succeed and keep the shape. A join marks what either mark does, a refinement marks more, and
  decay loses no member.
-/

import Mathlib
import RefineCheck.Proofs.Shape

namespace RefineCheck

/-! ## Marked bits -/

/-- The positions of the marked bits of a value. -/
def Marking.marked (m : Marking) : Set Nat := {i | m.val.bits.getLsbD i = true}

/-- The marked bits of an array by index and position. -/
def MemoryMark.marked (m : MemoryMark) : Set (Nat × Nat) :=
  {x | x.1 ≤ m.marks.last ∧ x.2 ∈ (m.marks.item x.1).marked}

namespace FieldMark

/-- The marked bits by index and position; a single value is the element at index zero. -/
def marked : FieldMark → Set (Nat × Nat)
  | .scalar m => {x | x.1 = 0 ∧ x.2 ∈ m.marked}
  | .array m => m.marked

/-- Whether a bit of the field with some number is marked. -/
def MarkedIn : List FieldMark → Nat → Nat × Nat → Prop
  | [], _, _ => False
  | m :: _, 0, x => x ∈ m.marked
  | _ :: ms, k + 1, x => MarkedIn ms k x

/-- The marked bits by field, index and position. -/
def allMarked (ms : List FieldMark) : Set (Nat × Nat × Nat) := {x | MarkedIn ms x.1 x.2}

theorem mem_allMarked_zero {m : FieldMark} {ms : List FieldMark} {x : Nat × Nat} :
    (0, x) ∈ allMarked (m :: ms) ↔ x ∈ m.marked := Iff.rfl

theorem mem_allMarked_succ {m : FieldMark} {ms : List FieldMark} {k : Nat} {x : Nat × Nat} :
    (k + 1, x) ∈ allMarked (m :: ms) ↔ (k, x) ∈ allMarked ms := Iff.rfl

theorem allMarked_union {m n r : FieldMark} {ms ns rs : List FieldMark}
    (h : r.marked = m.marked ∪ n.marked) (hs : allMarked rs = allMarked ms ∪ allMarked ns) :
    allMarked (r :: rs) = allMarked (m :: ms) ∪ allMarked (n :: ns) := by
  ext ⟨k, x⟩
  cases k with
  | zero => exact Set.ext_iff.1 h x
  | succ k => exact Set.ext_iff.1 hs (k, x)

theorem allMarked_ssubset_head {m r : FieldMark} (ms : List FieldMark) (h : m.marked ⊂ r.marked) :
    allMarked (m :: ms) ⊂ allMarked (r :: ms) := by
  refine ⟨fun ⟨k, x⟩ hx => ?_, fun hsub => h.2 fun x hx => ?_⟩
  · cases k with
    | zero => exact h.1 hx
    | succ k => exact hx
  · exact hsub (mem_allMarked_zero.2 hx)

theorem allMarked_ssubset_tail (m : FieldMark) {ms rs : List FieldMark}
    (h : allMarked ms ⊂ allMarked rs) : allMarked (m :: ms) ⊂ allMarked (m :: rs) := by
  refine ⟨fun ⟨k, x⟩ hx => ?_, fun hsub => h.2 fun ⟨k, x⟩ hx => ?_⟩
  · cases k with
    | zero => exact hx
    | succ k => exact h.1 (mem_allMarked_succ.1 hx)
  · exact hsub (mem_allMarked_succ.2 hx)

end FieldMark

/-- The marked bits, by field, element and position. -/
def RecordMark.marked (m : RecordMark) : Set (Nat × Nat × Nat) := FieldMark.allMarked m.fields

/-- The marked bits, where the panic code comes before the fields. -/
def StateMark.marked (m : StateMark) : Set (Nat × Nat × Nat) :=
  FieldMark.allMarked (.scalar m.panic :: m.result.fields)

/-! ## Single values -/

namespace Mark

variable {w : Nat}

@[simp]
theorem bits_of (bits : BitVec w) (importance : Nat) : (of bits importance).bits = bits := by
  rw [of]
  split
  · rename_i h
    exact h.symm
  · rfl

theorem bits_join (m n : Mark w) : (m.join n).bits = m.bits ||| n.bits := bits_of _ _

/-- A refinement keeps all marked bits and marks another one. -/
theorem refine?_eq_some {m offer r : Mark w} (h : m.refine? offer = some r) :
    (∀ i, m.bits.getLsbD i = true → r.bits.getLsbD i = true) ∧
      ∃ i, r.bits.getLsbD i = true ∧ m.bits.getLsbD i = false := by
  rw [refine?] at h
  simp only at h
  split at h
  · cases h
  · rename_i hne
    obtain rfl := Option.some.inj h
    have hbit := Word.getLsbD_highestBit hne
    rw [BitVec.getLsbD_and, Bool.and_eq_true, BitVec.getLsbD_not, Bool.and_eq_true] at hbit
    simp only [bits_of, BitVec.getLsbD_or, Bool.or_eq_true]
    refine ⟨fun i hi => .inl hi, _, .inr ?_, by simpa using hbit.2.2⟩
    rw [BitVec.getLsbD_twoPow]
    simpa using Word.highestBit_lt hne

theorem mem_decay (m : Mark w) {a : Reduced w} {x : BitVec w} (h : x ∈ a) : x ∈ m.decay a := by
  rw [decay]
  split
  · exact h
  · rw [(Reduced.ofTernary_spec _).2]
    refine Ternary.mem_of_getLsbD (fun k hk hx => ?_) fun k hk hx => ?_
    · rw [Ternary.forget, BitVec.getLsbD_or, Ternary.ones_of_mem h.1 hk hx, Bool.true_or]
    · rw [Ternary.forget, BitVec.getLsbD_or, Ternary.zeros_of_mem h.1 hk hx, Bool.true_or]

end Mark

namespace Marking

variable {m n offer r : Marking}

theorem join_ok (h : n.width = m.width) :
    ∃ r, m.join n = .ok r ∧ r.width = m.width ∧ r.marked = m.marked ∪ n.marked := by
  obtain ⟨w, m⟩ := m
  obtain ⟨v, n⟩ := n
  obtain rfl : v = w := h
  refine ⟨⟨v, m.join n⟩, dif_pos rfl, rfl, ?_⟩
  ext i
  simp [marked, Mark.bits_join]

theorem refine?_ok (h : offer.width = m.width) : ∃ o, m.refine? offer = .ok o :=
  ⟨_, dif_pos h⟩

theorem refine?_eq_some (h : m.refine? offer = .ok (some r)) :
    r.width = m.width ∧ m.marked ⊂ r.marked := by
  rw [refine?, Sized.zipWith] at h
  split at h
  · obtain ⟨r, hr, rfl⟩ := Option.map_eq_some_iff.1 (Except.ok.inj h)
    obtain ⟨hkeeps, i, hi, hnew⟩ := Mark.refine?_eq_some hr
    refine ⟨rfl, hkeeps, fun hsub => ?_⟩
    have : m.val.bits.getLsbD i = true := hsub hi
    rw [hnew] at this
    cases this
  · cases h

/-- Decay loses no member. -/
theorem has_of_decay {v v' : Value} {x : Sized BitVec} (h : m.decay v = .ok v') (hx : v.Has x) :
    v'.Has x := by
  obtain ⟨w, m⟩ := m
  obtain ⟨u, v⟩ := v
  rw [decay, Sized.zipWith] at h
  split at h
  · rename_i hwidth
    obtain rfl : u = w := hwidth
    obtain rfl := Except.ok.inj h
    obtain ⟨hle, y, hy, rfl⟩ := hx
    exact ⟨hle, y, m.mem_decay hy, rfl⟩
  · cases h

end Marking

/-! ## Arrays -/

namespace MemoryMark

variable {m n offer r : MemoryMark}

/-- A well-formed mark of the arrays of an index width and an element width. -/
structure OfWidths (m : MemoryMark) (v w : Nat) : Prop where
  wellFormed : m.WellFormed
  indexWidth_eq : m.indexWidth = v
  elementWidth_eq : m.elementWidth = w

namespace OfWidths

variable {v w i k : Nat} {mark : Marking}

theorem ordered (hm : m.OfWidths v w) : m.marks.Ordered := hm.wellFormed.ordered

theorem last_eq (hm : m.OfWidths v w) : m.marks.last = Word.last v := by
  rw [hm.wellFormed.last_eq, hm.indexWidth_eq]

theorem item_width (hm : m.OfWidths v w) (hi : i ≤ Word.last v) : (m.marks.item i).width = w :=
  (hm.wellFormed.item_width (hm.last_eq.symm ▸ hi)).trans hm.elementWidth_eq

theorem mem_marked (hm : m.OfWidths v w) :
    (i, k) ∈ m.marked ↔ i ≤ Word.last v ∧ k ∈ (m.marks.item i).marked := by
  rw [← hm.last_eq]
  exact Iff.rfl

/-- The mark of an element can be replaced. -/
theorem set_ok (hm : m.OfWidths v w) (hi : i ≤ Word.last v) (hmark : mark.width = w) :
    ∃ marks, m.marks.set i mark = .ok marks ∧ OfWidths { m with marks } v w ∧
      ∀ j ≤ Word.last v, marks.item j = if j = i then mark else m.marks.item j := by
  have hlast := hm.last_eq
  obtain ⟨marks, hset, hord, hlast', hitems⟩ := Runs.set_ok hm.ordered (hlast.symm ▸ hi) mark
  rw [hlast] at hlast' hitems
  refine ⟨marks, hset, ⟨⟨hm.wellFormed.width_le, hord, ?_, fun {j} hj => ?_⟩, hm.indexWidth_eq,
    hm.elementWidth_eq⟩, hitems⟩
  · rw [hlast', hm.indexWidth_eq]
  · have hj : j ≤ Word.last v := hlast' ▸ hj
    rw [hitems j hj]
    split
    · exact hmark.trans hm.elementWidth_eq.symm
    · exact (hm.item_width hj).trans hm.elementWidth_eq.symm

end OfWidths

theorem join_ok (hm : m.WellFormed) (hn : n.WellFormed) (hindex : n.indexWidth = m.indexWidth)
    (helement : n.elementWidth = m.elementWidth) :
    ∃ r, m.join n = .ok r ∧ r.indexWidth = m.indexWidth ∧ r.elementWidth = m.elementWidth ∧
      r.WellFormed ∧ r.marked = m.marked ∪ n.marked := by
  -- marks of the same widths have an element each at every index
  have hlast : m.marks.last = n.marks.last := by rw [hm.last_eq, hn.last_eq, hindex]
  have hwidth (i : Nat) (hi : i ≤ m.marks.last) :
      (n.marks.item i).width = (m.marks.item i).width := by
    rw [hn.item_width (hlast ▸ hi), hm.item_width hi, helement]
  obtain ⟨marks, hmarks, hord, hlast', hitems⟩ := Runs.zipWithM_ok (f := Marking.join)
    hm.ordered hn.ordered hlast fun i hi => (Marking.join_ok (hwidth i hi)).imp fun _ h => h.1
  have hitem (i : Nat) (hi : i ≤ m.marks.last) : (marks.item i).width = (m.marks.item i).width ∧
      (marks.item i).marked = (m.marks.item i).marked ∪ (n.marks.item i).marked := by
    obtain ⟨r, hr, hspec⟩ := Marking.join_ok (hwidth i hi)
    rw [hitems i] at hr
    rwa [Except.ok.inj hr]
  refine ⟨{ m with marks }, ?_, rfl, rfl, ⟨hm.width_le, hord, hlast'.trans hm.last_eq, ?_⟩, ?_⟩
  · rw [join, hmarks]
    rfl
  · intro i hi
    have hi : i ≤ m.marks.last := hlast' ▸ hi
    exact (hitem i hi).1.trans (hm.item_width hi)
  · ext ⟨i, b⟩
    show i ≤ marks.last ∧ b ∈ (marks.item i).marked ↔
      i ≤ m.marks.last ∧ b ∈ _ ∨ i ≤ n.marks.last ∧ b ∈ _
    rw [hlast', ← hlast, ← and_or_left]
    refine and_congr_right fun hi => ?_
    rw [(hitem i hi).2]
    exact Iff.rfl

theorem findRefinement_eq_some {segments : List (Segment (Marking × Marking))} {i : Nat}
    {refined : Marking} (h : findRefinement segments = .ok (some (i, refined))) :
    ∃ s ∈ segments, s.first = i ∧ s.value.1.refine? s.value.2 = .ok (some refined) := by
  induction segments with
  | nil => cases h
  | cons s rest ih =>
    rw [findRefinement] at h
    simp only [bind_eq_ok] at h
    obtain ⟨o, ho, h⟩ := h
    cases o with
    | some x =>
      obtain ⟨rfl, rfl⟩ := Prod.mk.inj (Option.some.inj (Except.ok.inj h))
      exact ⟨s, List.mem_cons_self, rfl, ho⟩
    | none =>
      obtain ⟨t, ht, hspec⟩ := ih h
      exact ⟨t, List.mem_cons_of_mem _ ht, hspec⟩

theorem findRefinement_ok {segments : List (Segment (Marking × Marking))}
    (h : ∀ s ∈ segments, s.value.2.width = s.value.1.width) : ∃ o, findRefinement segments = .ok o := by
  induction segments with
  | nil => exact ⟨none, rfl⟩
  | cons s rest ih =>
    obtain ⟨o, ho⟩ := Marking.refine?_ok (h s List.mem_cons_self)
    rw [findRefinement, ho, ok_bind]
    cases o with
    | some x => exact ⟨_, rfl⟩
    | none => exact ih fun t ht => h t (List.mem_cons_of_mem _ ht)

/-- A memory mark grows when one of its elements does. -/
theorem marked_ssubset {marks : Runs Marking} {i : Nat} {refined : Marking} (hi : i ≤ m.marks.last)
    (hlast : marks.last = m.marks.last)
    (hitem : ∀ j ≤ m.marks.last, marks.item j = if j = i then refined else m.marks.item j)
    (hgrows : (m.marks.item i).marked ⊂ refined.marked) : m.marked ⊂ { m with marks }.marked := by
  constructor
  · rintro ⟨j, b⟩ ⟨hj, hb⟩
    refine ⟨hlast.symm ▸ hj, ?_⟩
    show b ∈ (marks.item j).marked
    rw [hitem j hj]
    split
    · rename_i hji
      exact hgrows.1 (hji ▸ hb)
    · exact hb
  · -- the element that is refined has a bit that it did not have
    refine fun hsub => hgrows.2 fun b hb => ?_
    have hmem : (i, b) ∈ m.marked := by
      refine hsub ⟨hlast.symm ▸ hi, ?_⟩
      show b ∈ (marks.item i).marked
      rwa [hitem _ hi, if_pos rfl]
    exact hmem.2

theorem refine?_ok (hm : m.WellFormed) (ho : offer.WellFormed)
    (hindex : offer.indexWidth = m.indexWidth) (helement : offer.elementWidth = m.elementWidth) :
    ∃ o, m.refine? offer = .ok o ∧ ∀ r, o = some r → m.marked ⊂ r.marked := by
  have hlast : m.marks.last = offer.marks.last := by rw [hm.last_eq, ho.last_eq, hindex]
  obtain ⟨pairs, hpairs, hord, hplast, hitems⟩ := Runs.zip_ok hm.ordered ho.ordered hlast
  have htiles := hord.tiles
  -- the marks of both memories have one width in every segment
  have hwidths (s : Segment (Marking × Marking)) (hs : s ∈ pairs.segments) :
      s.value.2.width = s.value.1.width := by
    obtain ⟨hle, hvalue⟩ := htiles.value hs
    rw [hplast] at hle
    rw [← hvalue, hitems]
    exact (ho.item_width (hlast ▸ hle)).trans (helement.trans (hm.item_width hle).symm)
  obtain ⟨o, hfind⟩ := findRefinement_ok hwidths
  rw [refine?, hpairs, ok_bind, hfind, ok_bind]
  cases o with
  | none => exact ⟨none, rfl, fun _ h => by cases h⟩
  | some x =>
    obtain ⟨i, refined⟩ := x
    obtain ⟨s, hs, rfl, hrefined⟩ := findRefinement_eq_some hfind
    obtain ⟨hle, hvalue⟩ := htiles.value hs
    rw [hplast] at hle
    rw [← hvalue, hitems] at hrefined
    obtain ⟨-, hgrows⟩ := Marking.refine?_eq_some hrefined
    obtain ⟨marks, hset, -, hlast', hitem⟩ := Runs.set_ok hm.ordered hle refined
    refine ⟨some { m with marks }, ?_, ?_⟩
    · show (m.marks.set s.first refined >>= _) = _
      rw [hset]
      rfl
    · intro r hr
      obtain rfl := Option.some.inj hr
      exact marked_ssubset hle hlast' hitem hgrows

/-- A refinement has the shape of the mark, whatever is offered. -/
theorem refine?_eq_some (hm : m.WellFormed) (h : m.refine? offer = .ok (some r)) :
    r.indexWidth = m.indexWidth ∧ r.elementWidth = m.elementWidth ∧ r.WellFormed := by
  simp only [refine?, bind_eq_ok] at h
  obtain ⟨pairs, hpairs, o, hfind, h⟩ := h
  cases o with
  | none => cases h
  | some x =>
    obtain ⟨i, refined⟩ := x
    simp only [bind_eq_ok, pure_eq_ok, Option.some.injEq] at h
    obtain ⟨marks, hset, rfl⟩ := h
    obtain ⟨s, hs, -, hrefined⟩ := findRefinement_eq_some hfind
    obtain ⟨j, hj, hitem⟩ := Runs.fst_mem_zip hm.ordered hpairs hs
    obtain ⟨-, hord, hlast, hitems⟩ := Runs.set_spec hset hm.ordered
    refine ⟨rfl, rfl, hm.width_le, hord, hlast.trans hm.last_eq, fun {k} hk => ?_⟩
    have hk : k ≤ m.marks.last := hlast ▸ hk
    show (marks.item k).width = m.elementWidth
    rw [hitems k hk]
    split
    · rw [(Marking.refine?_eq_some hrefined).1, ← hitem, hm.item_width hj]
    · exact hm.item_width hk

theorem has_of_decay {a a' : Memory} (hm : m.marks.Ordered) (h : m.decay a = .ok a')
    {width : Nat} {d : Concrete.Datum} (hd : (Content.array width a).Has d) :
    (Content.array width a').Has d := by
  simp only [decay, bind_eq_ok, pure_eq_ok] at h
  obtain ⟨elements, helements, rfl⟩ := h
  cases d with
  | word x => exact hd.elim
  | array indexWidth elementWidth element =>
    obtain ⟨hindex, helement, hord, hlast, hitems⟩ := hd
    obtain ⟨hsize, hord', hlast', hdecayed⟩ := Runs.zipWithM_spec helements hm hord
    exact ⟨hindex, helement, hord', hlast'.trans (hsize.trans hlast),
      fun i => Marking.has_of_decay (hdecayed i.1) (hitems i)⟩

end MemoryMark

/-! ## Fields -/

namespace FieldMark

variable {m n offer r : FieldMark}

theorem join_ok (hm : m.WellFormed) (hn : n.WellFormed) (h : n.kind = m.kind) :
    ∃ r, m.join n = .ok r ∧ r.kind = m.kind ∧ r.WellFormed ∧ r.marked = m.marked ∪ n.marked := by
  cases m with
  | scalar m =>
    cases n with
    | scalar n =>
      obtain ⟨r, hr, hwidth, hmarked⟩ := Marking.join_ok (Kind.scalar.inj h)
      refine ⟨.scalar r, ?_, congrArg Kind.scalar hwidth, hwidth.le.trans hm, ?_⟩
      · show (m.join n >>= _) = _
        rw [hr]
        rfl
      · ext ⟨i, b⟩
        show i = 0 ∧ b ∈ r.marked ↔ i = 0 ∧ b ∈ m.marked ∨ i = 0 ∧ b ∈ n.marked
        rw [hmarked, ← and_or_left]
        exact Iff.rfl
    | array n => cases h
  | array m =>
    cases n with
    | scalar n => cases h
    | array n =>
      obtain ⟨hindex, helement⟩ := Kind.array.inj h
      obtain ⟨r, hr, hindex', helement', hwf, hmarked⟩ := MemoryMark.join_ok hm hn hindex helement
      refine ⟨.array r, ?_, ?_, hwf, hmarked⟩
      · show (m.join n >>= _) = _
        rw [hr]
        rfl
      · rw [kind, kind, hindex', helement']

/-- A refinement has the shape of the mark, whatever is offered. -/
theorem refine?_eq_some (hm : m.WellFormed) (h : m.refine? offer = .ok (some r)) :
    r.kind = m.kind ∧ r.WellFormed := by
  have hscalar {a b : Marking} {r : FieldMark} (ha : a.width ≤ Word.maxWidth)
      (h : (do return (← a.refine? b).map .scalar : Except Fault (Option FieldMark)) = .ok (some r)) :
      r.kind = .scalar a.width ∧ r.WellFormed ∧ a.width ≠ 0 := by
    simp only [bind_eq_ok, pure_eq_ok] at h
    obtain ⟨o, ho, h⟩ := h
    obtain ⟨r, rfl, rfl⟩ := Option.map_eq_some_iff.1 h
    obtain ⟨hwidth, hgrows⟩ := Marking.refine?_eq_some ho
    refine ⟨congrArg Kind.scalar hwidth, hwidth.le.trans ha, fun hzero => ?_⟩
    obtain ⟨i, hi, -⟩ := Set.exists_of_ssubset hgrows
    have := BitVec.lt_of_getLsbD hi
    omega
  cases m with
  | scalar m => exact ⟨(hscalar hm h).1, (hscalar hm h).2.1⟩
  | array m =>
    cases offer with
    | scalar offer => exact absurd rfl (hscalar (Nat.zero_le _) h).2.2
    | array offer =>
      change (m.refine? offer >>= fun o => pure (o.map FieldMark.array)) = _ at h
      simp only [bind_eq_ok, pure_eq_ok] at h
      obtain ⟨o, ho, h⟩ := h
      obtain ⟨r, rfl, rfl⟩ := Option.map_eq_some_iff.1 h
      obtain ⟨hindex, helement, hwf⟩ := MemoryMark.refine?_eq_some hm ho
      exact ⟨by rw [kind, kind, hindex, helement], hwf⟩

theorem refine?_ok (hm : m.WellFormed) (ho : offer.WellFormed) (h : offer.kind = m.kind) :
    ∃ o, m.refine? offer = .ok o ∧ ∀ r, o = some r → m.marked ⊂ r.marked := by
  cases m with
  | scalar m =>
    cases offer with
    | scalar offer =>
      obtain ⟨o, ho⟩ := Marking.refine?_ok (Kind.scalar.inj h)
      refine ⟨o.map .scalar, ?_, fun r hr => ?_⟩
      · show (m.refine? offer >>= _) = _
        rw [ho]
        rfl
      · obtain ⟨r, rfl, rfl⟩ := Option.map_eq_some_iff.1 hr
        obtain ⟨-, hgrows⟩ := Marking.refine?_eq_some ho
        exact ⟨fun x hx => ⟨hx.1, hgrows.1 hx.2⟩,
          fun hsub => hgrows.2 fun b hb => (hsub (a := (0, b)) ⟨rfl, hb⟩).2⟩
    | array offer => cases h
  | array m =>
    cases offer with
    | scalar offer => cases h
    | array offer =>
      obtain ⟨hindex, helement⟩ := Kind.array.inj h
      obtain ⟨o, ho, hgrows⟩ := MemoryMark.refine?_ok hm ho hindex helement
      refine ⟨o.map .array, ?_, fun r hr => ?_⟩
      · show (m.refine? offer >>= _) = _
        rw [ho]
        rfl
      · obtain ⟨r, rfl, rfl⟩ := Option.map_eq_some_iff.1 hr
        exact hgrows r rfl

theorem has_of_decay {f g : Field} (hm : m.WellFormed) (h : m.decay f = .ok g) {c : Concrete.Field}
    (hc : f.Has c) : g.Has c := by
  obtain ⟨name, signedness, content⟩ := f
  obtain ⟨hname, hsign, hdatum⟩ := hc
  cases content with
  | scalar v =>
    -- a mark of an array is taken for one of a single value here
    have hbits : (m.bits.decay v >>= Field.withBits ⟨name, signedness, .scalar v⟩) = .ok g := by
      cases m <;> exact h
    obtain ⟨v', hv', hg⟩ := bind_eq_ok.1 hbits
    rw [Field.withBits] at hg
    split at hg
    · obtain rfl := Except.ok.inj hg
      refine ⟨hname, hsign, ?_⟩
      obtain ⟨_, _, _ | _⟩ := c
      · exact Marking.has_of_decay hv' hdatum
      · exact hdatum.elim
    · cases hg
  | array width a =>
    cases m with
    | scalar m => cases h
    | array m =>
      obtain ⟨a', ha', hg⟩ := bind_eq_ok.1 h
      obtain rfl := Except.ok.inj hg
      exact ⟨hname, hsign, MemoryMark.has_of_decay hm.ordered ha' hdatum⟩

/-! ### Lists of fields -/

theorem fit_nil : Fit [] [] := ⟨rfl, fun _ h => absurd h List.not_mem_nil⟩

theorem fit_cons {kind : Kind} {kinds : List Kind} {fields : List FieldMark} :
    Fit (kind :: kinds) fields ↔
      ∃ m ms, fields = m :: ms ∧ m.kind = kind ∧ m.WellFormed ∧ Fit kinds ms := by
  constructor
  · rintro ⟨hkinds, hwf⟩
    obtain ⟨m, ms, rfl, hm, hms⟩ := List.map_eq_cons_iff.1 hkinds
    rw [List.forall_mem_cons] at hwf
    exact ⟨m, ms, rfl, hm, hwf.1, hms, hwf.2⟩
  · rintro ⟨m, ms, rfl, hm, hwf, hms⟩
    exact ⟨by rw [List.map_cons, hm, hms.kinds_eq], List.forall_mem_cons.2 ⟨hwf, hms.wellFormed⟩⟩

theorem joinAll_ok {kinds : List Kind} {ms ns : List FieldMark} (hm : Fit kinds ms)
    (hn : Fit kinds ns) :
    ∃ rs, (ms.zip ns).mapM (fun p => p.1.join p.2) = .ok rs ∧ Fit kinds rs ∧
      allMarked rs = allMarked ms ∪ allMarked ns := by
  induction kinds generalizing ms ns with
  | nil =>
    obtain rfl : ms = [] := List.map_eq_nil_iff.1 hm.kinds_eq
    exact ⟨[], rfl, fit_nil, by
      obtain rfl : ns = [] := List.map_eq_nil_iff.1 hn.kinds_eq
      exact (Set.union_self _).symm⟩
  | cons k kinds ih =>
    obtain ⟨m, ms, rfl, hmk, hmwf, hms⟩ := fit_cons.1 hm
    obtain ⟨n, ns, rfl, hnk, hnwf, hns⟩ := fit_cons.1 hn
    obtain ⟨r, hr, hrk, hrwf, hmarked⟩ := join_ok hmwf hnwf (hnk.trans hmk.symm)
    obtain ⟨rs, hrs, hfit, hall⟩ := ih hms hns
    refine ⟨r :: rs, ?_, fit_cons.2 ⟨r, rs, rfl, hrk.trans hmk, hrwf, hfit⟩,
      allMarked_union hmarked hall⟩
    rw [List.zip_cons_cons, List.mapM_cons, hr, ok_bind, hrs]
    rfl

theorem refineFields_eq_some {kinds : List Kind} {ms os rs : List FieldMark} (hm : Fit kinds ms)
    (h : RecordMark.refineFields ms os = .ok (some rs)) : Fit kinds rs := by
  induction kinds generalizing ms os rs with
  | nil =>
    obtain rfl : ms = [] := List.map_eq_nil_iff.1 hm.kinds_eq
    cases os <;> cases h
  | cons k kinds ih =>
    obtain ⟨m, ms, rfl, hmk, hmwf, hms⟩ := fit_cons.1 hm
    cases os with
    | nil => cases h
    | cons o os =>
      simp only [RecordMark.refineFields, bind_eq_ok] at h
      obtain ⟨x, hx, h⟩ := h
      cases x with
      | some r =>
        obtain rfl := Option.some.inj (Except.ok.inj h)
        obtain ⟨hrk, hrwf⟩ := refine?_eq_some hmwf hx
        exact fit_cons.2 ⟨r, ms, rfl, hrk.trans hmk, hrwf, hms⟩
      | none =>
        simp only [bind_eq_ok, pure_eq_ok] at h
        obtain ⟨y, hy, h⟩ := h
        obtain ⟨rs, rfl, rfl⟩ := Option.map_eq_some_iff.1 h
        exact fit_cons.2 ⟨m, rs, rfl, hmk, hmwf, ih hms hy⟩

theorem refineFields_ok {kinds : List Kind} {ms os : List FieldMark} (hm : Fit kinds ms)
    (ho : Fit kinds os) :
    ∃ o, RecordMark.refineFields ms os = .ok o ∧ ∀ rs, o = some rs → allMarked ms ⊂ allMarked rs := by
  induction kinds generalizing ms os with
  | nil =>
    obtain rfl : ms = [] := List.map_eq_nil_iff.1 hm.kinds_eq
    exact ⟨none, by cases os <;> rfl, fun _ h => by cases h⟩
  | cons k kinds ih =>
    obtain ⟨m, ms, rfl, hmk, hmwf, hms⟩ := fit_cons.1 hm
    obtain ⟨o, os, rfl, hok, howf, hos⟩ := fit_cons.1 ho
    obtain ⟨x, hx, hgrows⟩ := refine?_ok hmwf howf (hok.trans hmk.symm)
    rw [RecordMark.refineFields, hx, ok_bind]
    cases x with
    | some r =>
      refine ⟨some (r :: ms), rfl, fun rs hrs => ?_⟩
      obtain rfl := Option.some.inj hrs
      exact allMarked_ssubset_head ms (hgrows r rfl)
    | none =>
      obtain ⟨y, hy, hrest⟩ := ih hms hos
      refine ⟨y.map (m :: ·), ?_, fun rs hrs => ?_⟩
      · show (RecordMark.refineFields ms os >>= _) = _
        rw [hy]
        rfl
      · obtain ⟨rs, rfl, rfl⟩ := Option.map_eq_some_iff.1 hrs
        exact allMarked_ssubset_tail m (hrest rs rfl)

theorem hasAll_of_decay {ms : List FieldMark} {fs gs : List Field} (hm : ∀ m ∈ ms, m.WellFormed)
    (hlength : fs.length ≤ ms.length)
    (h : (ms.zip fs).mapM (fun p => p.1.decay p.2) = .ok gs) {cs : List Concrete.Field}
    (hcs : List.Forall₂ Field.Has fs cs) : List.Forall₂ Field.Has gs cs := by
  induction hcs generalizing ms gs with
  | nil =>
    rw [List.zip_nil_right] at h
    obtain rfl := Except.ok.inj h
    exact .nil
  | cons hhead htail ih =>
    cases ms with
    | nil => cases hlength
    | cons m ms =>
      rw [List.forall_mem_cons] at hm
      simp only [List.zip_cons_cons, List.mapM_cons, bind_eq_ok, pure_eq_ok] at h
      obtain ⟨g, hg, gs, hgs, rfl⟩ := h
      exact .cons (has_of_decay hm.1 hg hhead) (ih hm.2 (Nat.le_of_succ_le_succ hlength) hgs)

theorem fit_mapM {f : Field → Except Fault FieldMark} {fs : List Field} {ms : List FieldMark}
    (hf : ∀ {field m}, f field = .ok m → m.kind = field.content.kind ∧ m.WellFormed)
    (h : fs.mapM f = .ok ms) : Fit ((fs.map Field.shape).map FieldShape.kind) ms := by
  induction fs generalizing ms with
  | nil =>
    obtain rfl := Except.ok.inj h
    exact fit_nil
  | cons field fs ih =>
    simp only [List.mapM_cons, bind_eq_ok, pure_eq_ok] at h
    obtain ⟨m, hm, ms, hms, rfl⟩ := h
    exact fit_cons.2 ⟨m, ms, rfl, (hf hm).1, (hf hm).2, ih hms⟩

end FieldMark

/-! ## Records and states -/

theorem checkWidth_eq_ok {w : Nat} {u : Unit} (h : checkWidth w = .ok u) : w ≤ Word.maxWidth := by
  rw [checkWidth] at h
  split at h
  · assumption
  · cases h

theorem MemoryMark.wellFormed_replicate {indexWidth : Nat} {fill : Marking}
    (h : fill.width ≤ Word.maxWidth) : (replicate indexWidth fill).WellFormed :=
  ⟨h, Runs.ordered_replicate _ _, rfl, fun _ => rfl⟩

theorem FieldMark.unmarkedOf_spec {f : Field} {m : FieldMark} (h : unmarkedOf f = .ok m) :
    m.kind = f.content.kind ∧ m.WellFormed := by
  rw [unmarkedOf] at h
  cases hc : f.content with
  | scalar value =>
    simp only [hc, Marking.unmarked, bind_eq_ok, pure_eq_ok] at h
    obtain ⟨mark, ⟨u, hwidth, rfl⟩, rfl⟩ := h
    exact ⟨rfl, checkWidth_eq_ok hwidth⟩
  | array _ memory =>
    simp only [hc, MemoryMark.unmarked, Marking.unmarked, bind_eq_ok, pure_eq_ok] at h
    obtain ⟨mark, ⟨fill, ⟨u, hwidth, rfl⟩, rfl⟩, rfl⟩ := h
    exact ⟨rfl, MemoryMark.wellFormed_replicate (checkWidth_eq_ok hwidth)⟩

theorem FieldMark.allOf_spec {importance : Nat} {f : Field} {m : FieldMark}
    (h : allOf importance f = .ok m) : m.kind = f.content.kind ∧ m.WellFormed := by
  rw [allOf] at h
  cases hc : f.content with
  | scalar value =>
    simp only [hc, Marking.all, bind_eq_ok, pure_eq_ok] at h
    obtain ⟨mark, ⟨u, hwidth, rfl⟩, rfl⟩ := h
    exact ⟨rfl, checkWidth_eq_ok hwidth⟩
  | array _ memory =>
    simp only [hc, MemoryMark.all, Marking.all, bind_eq_ok, pure_eq_ok] at h
    obtain ⟨mark, ⟨fill, ⟨u, hwidth, rfl⟩, rfl⟩, rfl⟩ := h
    exact ⟨rfl, MemoryMark.wellFormed_replicate (checkWidth_eq_ok hwidth)⟩

namespace RecordMark

variable {t : Shape} {template : Record} {m n offer r : RecordMark}

theorem fits_unmarked (h : unmarked template = .ok m) : m.Fits template.shape := by
  simp only [unmarked, bind_eq_ok, pure_eq_ok] at h
  obtain ⟨fields, hfields, rfl⟩ := h
  exact ⟨rfl, FieldMark.fit_mapM FieldMark.unmarkedOf_spec hfields⟩

theorem fits_all {importance : Nat} (h : all template importance = .ok m) :
    m.Fits template.shape := by
  simp only [all, bind_eq_ok, pure_eq_ok] at h
  obtain ⟨fields, hfields, rfl⟩ := h
  exact ⟨rfl, FieldMark.fit_mapM FieldMark.allOf_spec hfields⟩

theorem Fits.checkShape_ok (hm : m.Fits t) (hn : n.Fits t) : m.checkShape n = .ok () := by
  have hlength : m.fields.length = n.fields.length := by
    rw [← List.length_map FieldMark.kind, hm.fields.kinds_eq, ← hn.fields.kinds_eq, List.length_map]
  exact if_pos hlength

theorem join_ok (hm : m.Fits t) (hn : n.Fits t) :
    ∃ r, m.join n = .ok r ∧ r.Fits t ∧ r.marked = m.marked ∪ n.marked := by
  obtain ⟨fields, hfields, hfit, hmarked⟩ := FieldMark.joinAll_ok hm.fields hn.fields
  refine ⟨{ m with fields }, ?_, ⟨hm.template_eq, hfit⟩, hmarked⟩
  rw [join, hm.checkShape_ok hn, ok_bind, hfields]
  rfl

theorem refine?_eq_some (hm : m.Fits t) (h : m.refine? offer = .ok (some r)) : r.Fits t := by
  simp only [refine?, bind_eq_ok, pure_eq_ok] at h
  obtain ⟨-, -, o, ho, h⟩ := h
  obtain ⟨fields, rfl, rfl⟩ := Option.map_eq_some_iff.1 h
  exact ⟨hm.template_eq, FieldMark.refineFields_eq_some hm.fields ho⟩

theorem refine?_ok (hm : m.Fits t) (ho : offer.Fits t) :
    ∃ o, m.refine? offer = .ok o ∧ ∀ r, o = some r → m.marked ⊂ r.marked := by
  obtain ⟨o, ho', hgrows⟩ := FieldMark.refineFields_ok hm.fields ho.fields
  refine ⟨o.map fun fields => { m with fields }, ?_, fun r hr => ?_⟩
  · rw [refine?, hm.checkShape_ok ho, ok_bind, ho']
    rfl
  · obtain ⟨fields, rfl, rfl⟩ := Option.map_eq_some_iff.1 hr
    exact hgrows fields rfl

theorem has_of_decay {s s' : Record} (hm : m.Fits t) (h : m.decay s = .ok s')
    {c : Concrete.Record} (hc : s.Has c) : s'.Has c := by
  simp only [decay, bind_eq_ok, pure_eq_ok] at h
  obtain ⟨u, hcheck, fields, hfields, rfl⟩ := h
  rw [Record.checkShape] at hcheck
  split at hcheck
  · rename_i hlength
    have hmarks : m.fields.length = m.template.fields.length := by
      rw [← List.length_map FieldMark.kind, hm.fields.kinds_eq, ← hm.template_eq, Record.shape,
        List.length_map, List.length_map]
    exact FieldMark.hasAll_of_decay hm.fields.wellFormed (hmarks.trans hlength).ge hfields hc
  · cases hcheck

end RecordMark

namespace StateMark

variable {t : Shape} {template : Record} {m n offer r : StateMark}

theorem fits_unmarked (h : unmarked template = .ok m) : m.Fits template.shape := by
  simp only [unmarked, bind_eq_ok, pure_eq_ok] at h
  obtain ⟨result, hresult, rfl⟩ := h
  exact ⟨rfl, RecordMark.fits_unmarked hresult⟩

theorem fits_all {importance : Nat} (h : all template importance = .ok m) :
    m.Fits template.shape := by
  simp only [all, bind_eq_ok, pure_eq_ok] at h
  obtain ⟨result, hresult, rfl⟩ := h
  exact ⟨rfl, RecordMark.fits_all hresult⟩

theorem join_ok (hm : m.Fits t) (hn : n.Fits t) :
    ∃ r, m.join n = .ok r ∧ r.Fits t ∧ r.marked = m.marked ∪ n.marked := by
  obtain ⟨panic, hpanic, hwidth, hmarked⟩ :=
    Marking.join_ok (hn.panic_width.trans hm.panic_width.symm)
  obtain ⟨result, hresult, hfits, hrest⟩ := RecordMark.join_ok hm.result hn.result
  refine ⟨⟨panic, result⟩, ?_, ⟨hwidth.trans hm.panic_width, hfits⟩, ?_⟩
  · rw [join, hpanic, ok_bind, hresult]
    rfl
  · refine FieldMark.allMarked_union ?_ hrest
    ext ⟨i, b⟩
    show i = 0 ∧ b ∈ panic.marked ↔ i = 0 ∧ b ∈ m.panic.marked ∨ i = 0 ∧ b ∈ n.panic.marked
    rw [hmarked, ← and_or_left]
    exact Iff.rfl

theorem refine?_eq_some (hm : m.Fits t) (h : m.refine? offer = .ok (some r)) : r.Fits t := by
  simp only [refine?, bind_eq_ok] at h
  obtain ⟨o, ho, h⟩ := h
  cases o with
  | some panic =>
    obtain rfl := Option.some.inj (Except.ok.inj h)
    exact ⟨(Marking.refine?_eq_some ho).1.trans hm.panic_width, hm.result⟩
  | none =>
    simp only [bind_eq_ok, pure_eq_ok] at h
    obtain ⟨o, ho, h⟩ := h
    obtain ⟨result, rfl, rfl⟩ := Option.map_eq_some_iff.1 h
    exact ⟨hm.panic_width, RecordMark.refine?_eq_some hm.result ho⟩

theorem refine?_ok (hm : m.Fits t) (ho : offer.Fits t) :
    ∃ o, m.refine? offer = .ok o ∧ ∀ r, o = some r → m.marked ⊂ r.marked := by
  obtain ⟨x, hx⟩ := Marking.refine?_ok (ho.panic_width.trans hm.panic_width.symm)
  rw [refine?, hx, ok_bind]
  cases x with
  | some panic =>
    refine ⟨some { m with panic }, rfl, fun r hr => ?_⟩
    obtain rfl := Option.some.inj hr
    obtain ⟨-, hgrows⟩ := Marking.refine?_eq_some hx
    refine FieldMark.allMarked_ssubset_head _ ⟨fun x hx => ⟨hx.1, hgrows.1 hx.2⟩, fun hsub => ?_⟩
    exact hgrows.2 fun b hb => (hsub (a := (0, b)) ⟨rfl, hb⟩).2
  | none =>
    obtain ⟨o, ho', hgrows⟩ := RecordMark.refine?_ok hm.result ho.result
    refine ⟨o.map fun result => { m with result }, ?_, fun r hr => ?_⟩
    · show (m.result.refine? offer.result >>= _) = _
      rw [ho']
      rfl
    · obtain ⟨result, rfl, rfl⟩ := Option.map_eq_some_iff.1 hr
      exact FieldMark.allMarked_ssubset_tail _ (hgrows result rfl)

/-- Decay loses no member of a state, whatever shape it has. -/
theorem has_of_decay {s s' : State} (hm : m.Fits t) (h : m.decay s = .ok s') {c : Concrete.State}
    (hc : s.Has c) : s'.Has c := by
  simp only [decay, bind_eq_ok, pure_eq_ok] at h
  obtain ⟨panic, hpanic, result, hresult, rfl⟩ := h
  exact ⟨Marking.has_of_decay hpanic hc.1, RecordMark.has_of_decay hm.result hresult hc.2⟩

end StateMark

end RefineCheck
