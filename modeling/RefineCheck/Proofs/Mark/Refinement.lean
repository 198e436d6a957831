/-
  RefineCheck.Proofs.Mark.Refinement

  A refinement marks one more bit. It picks a bit that is offered and not marked yet, in one value
  or element, and changes no other one; it fails only if there is no such bit. So an offer can be
  taken as many times as it has bits that are missing.
-/

import Mathlib
import RefineCheck.Proofs.Mark.Bounds
import RefineCheck.Proofs.Mark.Importance

namespace RefineCheck

/-! ## Places

A mark of any kind has the mark of a value at each of its places. -/

section

variable {M P : Type}

/-- The marked bits by place. -/
def bitsAt (place : M → P → Option Marking) (m : M) : Set (P × Nat) :=
  {x | ∃ mark ∈ place m x.1, x.2 ∈ mark.marked}

/-- A mark of a value that has one bit more than another one, which is offered. -/
structure Marking.Adds (m offer r : Marking) (k : Nat) : Prop where
  offered : k ∈ offer.marked
  missing : k ∉ m.marked
  marked : r.marked = insert k m.marked
  importance : m.importance ≤ r.importance

/-- A mark that has one bit more at one place and is the same at the others. -/
structure AddsAt (place : M → P → Option Marking) (m offer r : M) (p : P) (k : Nat) : Prop where
  adds : ∃ old offered new, place m p = some old ∧ place offer p = some offered ∧
    place r p = some new ∧ old.Adds offered new k
  elsewhere : ∀ q ≠ p, place r q = place m q

/-- What the outcome of a refinement says. -/
def Refines (place : M → P → Option Marking) (m offer : M) : Option M → Prop
  | none => bitsAt place offer ⊆ bitsAt place m
  | some r => ∃ p k, AddsAt place m offer r p k

end

/-! ## Single values -/

theorem Mark.refine?_adds {w : Nat} (m offer : Mark w) :
    (m.refine? offer = none ∧ ∀ k, offer.bits.getLsbD k = true → m.bits.getLsbD k = true) ∨
      ∃ r k, m.refine? offer = some r ∧ offer.bits.getLsbD k = true ∧ m.bits.getLsbD k = false ∧
        ∀ j, r.bits.getLsbD j = true ↔ j = k ∨ m.bits.getLsbD j = true := by
  rw [refine?]
  simp only
  split
  · rename_i h
    refine .inl ⟨rfl, fun k hk => ?_⟩
    have hbit := congrArg (BitVec.getLsbD · k) h
    simpa [hk, BitVec.lt_of_getLsbD hk] using hbit
  · rename_i hne
    have hbit := Word.getLsbD_highestBit hne
    rw [BitVec.getLsbD_and, Bool.and_eq_true, BitVec.getLsbD_not, Bool.and_eq_true] at hbit
    refine .inr ⟨_, _, rfl, hbit.1, by simpa using hbit.2.2, fun j => ?_⟩
    have hlt := Word.highestBit_lt hne
    rw [bits_of, BitVec.getLsbD_or, Bool.or_eq_true, or_comm, BitVec.getLsbD_twoPow]
    simp only [Bool.and_eq_true, decide_eq_true_eq]
    exact or_congr_left ⟨fun h => h.2.symm, fun h => ⟨h ▸ hlt, h.symm⟩⟩

namespace Marking

variable {m offer : Marking}

/-- A value is its own and only place. -/
def place (m : Marking) (_ : Unit) : Option Marking := some m

theorem refine?_adds (h : offer.width = m.width) :
    ∃ o, m.refine? offer = .ok o ∧ (o = none → offer.marked ⊆ m.marked) ∧
      ∀ r ∈ o, r.width = m.width ∧ ∃ k, m.Adds offer r k := by
  obtain ⟨w, m⟩ := m
  obtain ⟨v, offer⟩ := offer
  obtain rfl : v = w := h
  refine ⟨(m.refine? offer).map (⟨v, ·⟩), dif_pos rfl, ?_⟩
  rcases m.refine?_adds offer with ⟨hnone, hsub⟩ | ⟨r, k, hr, hoffered, hmissing, hmarked⟩
  · rw [hnone]
    exact ⟨fun _ k hk => hsub k hk, fun r hr => absurd hr (Option.not_mem_none r)⟩
  · rw [hr]
    refine ⟨fun h => absurd h (Option.some_ne_none _), fun r' hr' => ?_⟩
    obtain rfl := Option.some.inj hr'
    refine ⟨rfl, k, hoffered, ?_, Set.ext fun j => hmarked j, Mark.importance_refine? hr⟩
    show ¬ m.bits.getLsbD k = true
    rw [hmissing]
    exact Bool.false_ne_true

end Marking

/-! ## Arrays -/

namespace MemoryMark

variable {m offer r : MemoryMark} {i : Nat}

/-- The places of an array are its indices. -/
def place (m : MemoryMark) (i : Nat) : Option Marking :=
  if i ≤ m.marks.last then some (m.marks.item i) else none

theorem place_eq (hi : i ≤ m.marks.last) : m.place i = some (m.marks.item i) := if_pos hi

theorem findRefinement_eq_none {segments : List (Segment (Marking × Marking))}
    (h : findRefinement segments = .ok none) :
    ∀ s ∈ segments, s.value.1.refine? s.value.2 = .ok none := by
  induction segments with
  | nil => exact fun s hs => absurd hs List.not_mem_nil
  | cons s rest ih =>
    rw [findRefinement] at h
    obtain ⟨o, ho, h⟩ := bind_eq_ok.1 h
    cases o with
    | some x => cases h
    | none => exact List.forall_mem_cons.2 ⟨ho, ih h⟩

theorem refine?_adds (hm : m.WellFormed) (ho : offer.WellFormed)
    (hindex : offer.indexWidth = m.indexWidth) (helement : offer.elementWidth = m.elementWidth) :
    ∃ o, m.refine? offer = .ok o ∧ Refines place m offer o := by
  have hlast : offer.marks.last = m.marks.last := by rw [hm.last_eq, ho.last_eq, hindex]
  have hwidth {i : Nat} (hi : i ≤ m.marks.last) :
      (offer.marks.item i).width = (m.marks.item i).width := by
    rw [ho.item_width (hlast.symm ▸ hi), hm.item_width hi, helement]
  obtain ⟨o, hrefine, -⟩ := refine?_ok hm ho hindex helement
  refine ⟨o, hrefine, ?_⟩
  cases o with
  | some r =>
    obtain ⟨i, value, hi, hvalue, hrlast, hitems⟩ := refines_item hm ho hrefine
    obtain ⟨o, ho', -, hadds⟩ := Marking.refine?_adds (hwidth hi)
    obtain rfl := Except.ok.inj (ho'.symm.trans hvalue)
    obtain ⟨-, k, hadds⟩ := hadds value rfl
    refine ⟨i, k, ⟨_, _, _, place_eq hi, place_eq (hlast.symm ▸ hi), place_eq (hrlast.symm ▸ hi), ?_⟩,
      fun j hj => ?_⟩
    · rwa [hitems i hi, if_pos rfl]
    · rw [place, place, hrlast]
      split
      · rename_i hle
        rw [hitems j hle, if_neg hj]
      · rfl
  | none =>
    -- no run is refined, and each element is that of a run
    simp only [refine?, bind_eq_ok] at hrefine
    obtain ⟨pairs, hpairs, o, hfind, h⟩ := hrefine
    cases o with
    | some x =>
      obtain ⟨_, -, h⟩ := bind_eq_ok.1 h
      cases h
    | none =>
      obtain ⟨-, hord, hplast, hitems⟩ := Runs.zip_spec hpairs hm.ordered ho.ordered
      rintro ⟨i, k⟩ ⟨mark, hmark, hk⟩
      rw [place] at hmark
      split at hmark
      · rename_i hi
        obtain rfl := Option.some.inj hmark
        rw [hlast] at hi
        obtain ⟨s, hs, hvalue⟩ := hord.tiles.exists_mem (Nat.zero_le i) (hplast.symm ▸ hi)
        have hnone := findRefinement_eq_none hfind s hs
        rw [← hvalue, hitems] at hnone
        obtain ⟨o, ho', hsub, -⟩ := Marking.refine?_adds (hwidth hi)
        obtain rfl := Except.ok.inj (ho'.symm.trans hnone)
        exact ⟨_, place_eq hi, hsub rfl hk⟩
      · cases hmark

end MemoryMark

/-! ## Fields -/

namespace FieldMark

variable {m offer r : FieldMark} {ms os : List FieldMark}

/-- A single value is the element at index zero. -/
def place : FieldMark → Nat → Option Marking
  | .scalar m, i => if i = 0 then some m else none
  | .array m, i => m.place i

/-- The places of a list of fields, by field and index. -/
def placeIn (ms : List FieldMark) (x : Nat × Nat) : Option Marking := ms[x.1]?.bind (·.place x.2)

theorem refine?_scalar {m offer : Marking} (h : offer.width = m.width) :
    ∃ o, m.refine? offer = .ok o ∧ Refines place (.scalar m) (.scalar offer) (o.map .scalar) := by
  obtain ⟨o, hrefine, hnone, hsome⟩ := Marking.refine?_adds h
  refine ⟨o, hrefine, ?_⟩
  cases o with
  | none =>
    rintro ⟨i, k⟩ ⟨mark, hmark, hk⟩
    obtain ⟨hi, hmark⟩ := Option.ite_none_right_eq_some.1 hmark
    obtain rfl := Option.some.inj hmark
    exact ⟨m, if_pos hi, hnone rfl hk⟩
  | some r =>
    obtain ⟨-, k, hadds⟩ := hsome r rfl
    refine ⟨0, k, ⟨m, offer, r, rfl, rfl, rfl, hadds⟩, fun i hi => ?_⟩
    exact (if_neg hi).trans (if_neg hi).symm

theorem refine?_adds (hm : m.WellFormed) (ho : offer.WellFormed) (hkind : offer.kind = m.kind) :
    ∃ o, m.refine? offer = .ok o ∧ Refines place m offer o := by
  cases m with
  | scalar m =>
    cases offer with
    | array offer => cases hkind
    | scalar offer =>
      obtain ⟨o, hrefine, hrefines⟩ := refine?_scalar (Kind.scalar.inj hkind)
      refine ⟨o.map .scalar, ?_, hrefines⟩
      show (m.refine? offer >>= _) = _
      rw [hrefine]
      rfl
  | array m =>
    cases offer with
    | scalar offer => cases hkind
    | array offer =>
      obtain ⟨hindex, helement⟩ := Kind.array.inj hkind
      obtain ⟨o, hrefine, hrefines⟩ := MemoryMark.refine?_adds hm ho hindex helement
      refine ⟨o.map .array, ?_, ?_⟩
      · show (m.refine? offer >>= _) = _
        rw [hrefine]
        rfl
      · cases o with
        | none => exact hrefines
        | some r =>
          obtain ⟨i, k, hadds, helse⟩ := hrefines
          exact ⟨i, k, hadds, helse⟩

/-- A refinement of the first field is one of all fields. -/
theorem AddsAt.head {i k : Nat} (h : AddsAt place m offer r i k) (ms os : List FieldMark) :
    AddsAt placeIn (m :: ms) (offer :: os) (r :: ms) (0, i) k where
  adds := h.adds
  elsewhere := by
    rintro ⟨f, j⟩ hne
    cases f with
    | zero => exact h.elsewhere j fun hj => hne (hj ▸ rfl)
    | succ f => rfl

/-- And so is one of the other fields. -/
theorem AddsAt.tail {rs : List FieldMark} {x : Nat × Nat} {k : Nat}
    (h : AddsAt placeIn ms os rs x k) (m offer : FieldMark) :
    AddsAt placeIn (m :: ms) (offer :: os) (m :: rs) (x.1 + 1, x.2) k where
  adds := h.adds
  elsewhere := by
    rintro ⟨f, j⟩ hne
    cases f with
    | zero => rfl
    | succ f => exact h.elsewhere (f, j) fun hj => hne (hj ▸ rfl)

theorem bitsAt_cons (h : bitsAt place offer ⊆ bitsAt place m)
    (hs : bitsAt placeIn os ⊆ bitsAt placeIn ms) :
    bitsAt placeIn (offer :: os) ⊆ bitsAt placeIn (m :: ms) := by
  rintro ⟨⟨f, i⟩, k⟩ hx
  cases f with
  | zero => exact h (a := (i, k)) hx
  | succ f => exact hs (a := ((f, i), k)) hx

theorem refineFields_adds {kinds : List Kind} (hm : Fit kinds ms) (ho : Fit kinds os) :
    ∃ o, RecordMark.refineFields ms os = .ok o ∧ Refines placeIn ms os o := by
  induction kinds generalizing ms os with
  | nil =>
    obtain rfl : ms = [] := List.map_eq_nil_iff.1 hm.kinds_eq
    obtain rfl : os = [] := List.map_eq_nil_iff.1 ho.kinds_eq
    exact ⟨none, rfl, subset_rfl⟩
  | cons kind kinds ih =>
    obtain ⟨m, ms, rfl, hmk, hmwf, hms⟩ := fit_cons.1 hm
    obtain ⟨offer, os, rfl, hok, howf, hos⟩ := fit_cons.1 ho
    obtain ⟨o, hrefine, hrefines⟩ := refine?_adds hmwf howf (hok.trans hmk.symm)
    rw [RecordMark.refineFields, hrefine, ok_bind]
    cases o with
    | some r =>
      obtain ⟨i, k, hadds⟩ := hrefines
      exact ⟨some (r :: ms), rfl, (0, i), k, AddsAt.head hadds ms os⟩
    | none =>
      obtain ⟨o, hrest, hrefines'⟩ := ih hms hos
      refine ⟨o.map (m :: ·), ?_, ?_⟩
      · show (RecordMark.refineFields ms os >>= _) = _
        rw [hrest]
        rfl
      · cases o with
        | none => exact bitsAt_cons hrefines hrefines'
        | some rs =>
          obtain ⟨x, k, hadds⟩ := hrefines'
          exact ⟨_, k, AddsAt.tail hadds m offer⟩

end FieldMark

/-! ## Records and states -/

namespace RecordMark

variable {t : Shape} {m offer : RecordMark}

/-- The places of a record, by field and index. -/
def place (m : RecordMark) : Nat × Nat → Option Marking := FieldMark.placeIn m.fields

theorem refine?_adds (hm : m.Fits t) (ho : offer.Fits t) :
    ∃ o, m.refine? offer = .ok o ∧ Refines place m offer o := by
  obtain ⟨o, hrefine, hrefines⟩ := FieldMark.refineFields_adds hm.fields ho.fields
  refine ⟨o.map fun fields => { m with fields }, ?_, ?_⟩
  · rw [refine?, hm.checkShape_ok ho, ok_bind, hrefine]
    rfl
  · cases o with
    | none => exact hrefines
    | some fields =>
      obtain ⟨x, k, hadds, helse⟩ := hrefines
      exact ⟨x, k, hadds, helse⟩

end RecordMark

namespace StateMark

variable {t : Shape} {m offer : StateMark}

/-- The places of a state, where the panic code comes before the fields. -/
def place (m : StateMark) : Nat × Nat → Option Marking := FieldMark.placeIn m.parts

theorem refine?_adds (hm : m.Fits t) (ho : offer.Fits t) :
    ∃ o, m.refine? offer = .ok o ∧ Refines place m offer o := by
  obtain ⟨o, hpanic, hrefines⟩ :=
    FieldMark.refine?_scalar (ho.panic_width.trans hm.panic_width.symm)
  rw [refine?, hpanic, ok_bind]
  cases o with
  | some panic =>
    obtain ⟨i, k, hadds⟩ := hrefines
    obtain ⟨hadds, helse⟩ := FieldMark.AddsAt.head hadds m.result.fields offer.result.fields
    exact ⟨some { m with panic }, rfl, (0, i), k, hadds, helse⟩
  | none =>
    obtain ⟨o, hresult, hrefines'⟩ := RecordMark.refine?_adds hm.result ho.result
    refine ⟨o.map fun result => { m with result }, ?_, ?_⟩
    · show (m.result.refine? offer.result >>= _) = _
      rw [hresult]
      rfl
    · cases o with
      | none => exact FieldMark.bitsAt_cons hrefines hrefines'
      | some result =>
        obtain ⟨x, k, hadds, helse⟩ := hrefines'
        have htail : AddsAt FieldMark.placeIn m.result.fields offer.result.fields
            result.fields x k := ⟨hadds, helse⟩
        obtain ⟨hadds, helse⟩ :=
          FieldMark.AddsAt.tail htail (.scalar m.panic) (.scalar offer.panic)
        exact ⟨_, k, hadds, helse⟩

end StateMark

/-! ## Numbers of bits -/

theorem Marking.finite_bits (m : Marking) : (bitsAt place m).Finite := by
  refine (Set.finite_univ.prod (Set.finite_Iio m.width)).subset ?_
  rintro ⟨_, k⟩ ⟨mark, hmark, hk⟩
  obtain rfl := Option.some.inj hmark
  exact ⟨trivial, lt_of_marked hk⟩

namespace FieldMark

variable {m : FieldMark} {ms : List FieldMark}

theorem mem_marked_iff {x : Nat × Nat} : x ∈ bitsAt place m ↔ x ∈ m.marked := by
  obtain ⟨i, k⟩ := x
  cases m with
  | scalar m =>
    show (∃ mark ∈ (if i = 0 then some m else none), k ∈ mark.marked) ↔ i = 0 ∧ k ∈ m.marked
    split <;> simp [*]
  | array m =>
    show (∃ mark ∈ (if i ≤ m.marks.last then some (m.marks.item i) else none), k ∈ mark.marked) ↔
      i ≤ m.marks.last ∧ k ∈ (m.marks.item i).marked
    split <;> simp [*]

theorem finite_bitsIn (hms : ∀ m ∈ ms, m.WellFormed) : (bitsAt placeIn ms).Finite := by
  refine (((Set.finite_Iio ms.length).prod (Set.finite_Iic (Word.last Word.maxWidth))).prod
    (Set.finite_Iio Word.maxWidth)).subset ?_
  rintro ⟨⟨f, i⟩, k⟩ ⟨mark, hmark, hk⟩
  obtain ⟨m, hm, hplace⟩ := Option.bind_eq_some_iff.1 hmark
  obtain ⟨hf, rfl⟩ := List.getElem?_eq_some_iff.1 hm
  obtain ⟨hi, hk⟩ := marked_bounded (hms _ (List.getElem_mem hf))
    (mem_marked_iff (x := (i, k)).1 ⟨mark, hplace, hk⟩)
  exact ⟨⟨hf, hi⟩, hk⟩

end FieldMark

theorem MemoryMark.finite_bits {m : MemoryMark} (hm : m.WellFormed) : (bitsAt place m).Finite := by
  refine ((Set.finite_Iic m.marks.last).prod (Set.finite_Iio m.elementWidth)).subset ?_
  rintro ⟨i, k⟩ hx
  obtain ⟨hi, hk⟩ := FieldMark.mem_marked_iff (m := .array m).1 hx
  exact ⟨hi, hm.item_width hi ▸ Marking.lt_of_marked hk⟩

/-! ## Importance -/

namespace FieldMark

variable {m : FieldMark} {ms : List FieldMark} {b : Nat}

theorem importance_le_iff_place (hm : m.WellFormed) :
    m.importance ≤ b ↔ ∀ i, ∀ mark ∈ m.place i, mark.importance ≤ b := by
  rw [importance_le_iff hm]
  refine forall_congr' fun i => ?_
  cases m with
  | scalar m =>
    simp only [importanceAt, place]
    split <;> simp
  | array m =>
    simp only [importanceAt, place, MemoryMark.place]
    split <;> simp

theorem importance_le_iff_placeIn (hms : ∀ m ∈ ms, m.WellFormed) :
    (∀ m ∈ ms, m.importance ≤ b) ↔ ∀ x, ∀ mark ∈ placeIn ms x, mark.importance ≤ b := by
  constructor
  · rintro h ⟨f, i⟩ mark hmark
    obtain ⟨m, hm, hplace⟩ := Option.bind_eq_some_iff.1 hmark
    have hmem := List.mem_of_getElem? hm
    exact (importance_le_iff_place (hms m hmem)).1 (h m hmem) i mark hplace
  · intro h m hm
    obtain ⟨f, hf⟩ := List.getElem?_of_mem hm
    refine (importance_le_iff_place (hms m hm)).2 fun i mark hmark => h (f, i) mark ?_
    exact Option.bind_eq_some_iff.2 ⟨m, hf, hmark⟩

end FieldMark

theorem RecordMark.importance_le_iff {t : Shape} {m : RecordMark} (hm : m.Fits t) {b : Nat} :
    m.importance ≤ b ↔ ∀ x, ∀ mark ∈ m.place x, mark.importance ≤ b := by
  rw [importance, foldl_max_le_iff, and_iff_right (Nat.zero_le b)]
  exact FieldMark.importance_le_iff_placeIn hm.fields.wellFormed

theorem StateMark.importance_le_iff {t : Shape} {m : StateMark} (hm : m.Fits t) {b : Nat} :
    m.importance ≤ b ↔ ∀ x, ∀ mark ∈ m.place x, mark.importance ≤ b := by
  rw [place, ← FieldMark.importance_le_iff_placeIn hm.wellFormed_parts, parts, List.forall_mem_cons,
    importance, max_le_iff, RecordMark.importance, foldl_max_le_iff, and_iff_right (Nat.zero_le b)]
  rfl

/-! ## Refinement -/

section

variable {M P : Type}

/-- Takes an offer a number of times, and says each time whether the mark was refined. -/
def attempts (refine? : M → M → Except Fault (Option M)) (offer : M) :
    (count : Nat) → M → Except Fault (List Bool × M)
  | 0, m => return ([], m)
  | count + 1, m => do
    let refined ← refine? m offer
    let (outcomes, last) ← attempts refine? offer count (refined.getD m)
    return (refined.isSome :: outcomes, last)

/-- Refinement of marks that have places: it fails if nothing is offered that is missing, otherwise
    it adds a single bit, and an offer can be taken once for each bit that is missing. -/
structure Refinement (IsMark : M → Prop) (place : M → P → Option Marking) (importance : M → Nat)
    (refine? : M → M → Except Fault (Option M)) : Prop where
  fails_iff {m offer : M} : IsMark m → IsMark offer →
    (refine? m offer = .ok none ↔ bitsAt place offer ⊆ bitsAt place m)
  adds {m offer : M} : IsMark m → IsMark offer → ¬ bitsAt place offer ⊆ bitsAt place m →
    ∃ r p k, refine? m offer = .ok (some r) ∧ IsMark r ∧ AddsAt place m offer r p k ∧
      importance m ≤ importance r
  finite {m : M} : IsMark m → (bitsAt place m).Finite
  counts {m offer : M} (count : Nat) : IsMark m → IsMark offer →
    let missing := (bitsAt place offer \ bitsAt place m).ncard
    ∃ last, attempts refine? offer count m =
      .ok (List.replicate (min count missing) true ++ List.replicate (count - missing) false, last)

variable {IsMark : M → Prop} {place : M → P → Option Marking} {importance : M → Nat}
  {refine? : M → M → Except Fault (Option M)} {m offer r : M} {p : P} {k : Nat}

theorem AddsAt.offered (h : AddsAt place m offer r p k) :
    (p, k) ∈ bitsAt place offer \ bitsAt place m := by
  obtain ⟨⟨old, offered, new, hold, hoffered, -, hadds⟩, -⟩ := h
  refine ⟨⟨offered, hoffered, hadds.offered⟩, fun ⟨mark, hmark, hk⟩ => hadds.missing ?_⟩
  obtain rfl := Option.some.inj (hold.symm.trans hmark)
  exact hk

theorem AddsAt.bitsAt_eq (h : AddsAt place m offer r p k) :
    bitsAt place r = insert (p, k) (bitsAt place m) := by
  obtain ⟨⟨old, offered, new, hold, -, hnew, hadds⟩, helse⟩ := h
  ext ⟨q, j⟩
  by_cases hq : q = p
  · subst hq
    simp [bitsAt, hold, hnew, hadds.marked]
  · simp [bitsAt, helse q hq, hq]

theorem AddsAt.importance_le (h : AddsAt place m offer r p k) {b : Nat}
    (hr : ∀ q, ∀ mark ∈ place r q, mark.importance ≤ b) :
    ∀ q, ∀ mark ∈ place m q, mark.importance ≤ b := by
  obtain ⟨⟨old, offered, new, hold, -, hnew, hadds⟩, helse⟩ := h
  intro q mark hmark
  by_cases hq : q = p
  · subst hq
    obtain rfl := Option.some.inj (hold.symm.trans hmark)
    exact hadds.importance.trans (hr q new hnew)
  · exact hr q mark ((helse q hq).trans hmark)

/-- Each success takes one of the missing bits, until none is left. -/
theorem attempts_ok (hadds : ∀ {m offer}, IsMark m → IsMark offer →
      ∃ o, refine? m offer = .ok o ∧ Refines place m offer o ∧ ∀ r ∈ o, IsMark r)
    (hfinite : ∀ {m}, IsMark m → (bitsAt place m).Finite) (ho : IsMark offer) (count : Nat)
    (hm : IsMark m) :
    let missing := (bitsAt place offer \ bitsAt place m).ncard
    ∃ last, attempts refine? offer count m =
      .ok (List.replicate (min count missing) true ++ List.replicate (count - missing) false, last) := by
  induction count generalizing m with
  | zero => exact ⟨m, by rw [Nat.zero_min, Nat.zero_sub]; rfl⟩
  | succ count ih =>
    obtain ⟨o, hrefine, hrefines, hmark⟩ := hadds hm ho
    rw [attempts, hrefine, ok_bind]
    cases o with
    | none =>
      -- nothing is missing, and so it stays
      obtain ⟨last, hlast⟩ := ih hm
      have hnone : (bitsAt place offer \ bitsAt place m).ncard = 0 := by
        rw [Set.sdiff_eq_empty.2 hrefines, Set.ncard_empty]
      simp only [hnone, Nat.min_zero, Nat.sub_zero] at hlast ⊢
      exact ⟨last, by rw [Option.getD_none, hlast]; rfl⟩
    | some r =>
      obtain ⟨p, k, hadds⟩ := hrefines
      obtain ⟨last, hlast⟩ := ih (hmark r rfl)
      -- the bit that was added was missing
      have hsucc : (bitsAt place offer \ bitsAt place m).ncard =
          (bitsAt place offer \ bitsAt place r).ncard + 1 := by
        have hdiff := Set.ncard_sdiff_singleton_add_one hadds.offered ((hfinite ho).sdiff)
        rw [← hdiff, hadds.bitsAt_eq, Set.sdiff_sdiff, Set.union_singleton]
      simp only [hsucc, Nat.add_min_add_right, Nat.add_sub_add_right] at hlast ⊢
      exact ⟨last, by rw [Option.getD_some, hlast]; rfl⟩

theorem refinement_of_adds (hadds : ∀ {m offer}, IsMark m → IsMark offer →
      ∃ o, refine? m offer = .ok o ∧ Refines place m offer o ∧ ∀ r ∈ o, IsMark r)
    (hfinite : ∀ {m}, IsMark m → (bitsAt place m).Finite)
    (himportance : ∀ {m b}, IsMark m →
      (importance m ≤ b ↔ ∀ p, ∀ mark ∈ place m p, mark.importance ≤ b)) :
    Refinement IsMark place importance refine? where
  fails_iff hm ho := by
    obtain ⟨o, hrefine, hrefines, -⟩ := hadds hm ho
    rw [hrefine, Except.ok.injEq]
    cases o with
    | none => exact iff_of_true rfl hrefines
    | some r =>
      obtain ⟨p, k, hadds⟩ := hrefines
      exact iff_of_false (Option.some_ne_none r) fun hsub =>
        hadds.offered.2 (hsub hadds.offered.1)
  adds hm ho hmissing := by
    obtain ⟨o, hrefine, hrefines, hmark⟩ := hadds hm ho
    cases o with
    | none => exact absurd hrefines hmissing
    | some r =>
      obtain ⟨p, k, hadds⟩ := hrefines
      have hr := hmark r rfl
      exact ⟨r, p, k, hrefine, hr, hadds,
        (himportance hm).2 (hadds.importance_le ((himportance hr).1 le_rfl))⟩
  finite := hfinite
  counts count hm ho := attempts_ok hadds hfinite ho count hm

end

/-- Refinement adds one bit to marks of values, arrays, records and states of each shape. -/
theorem refine?_adds_one :
    (∀ w, Refinement (fun m : Marking => m.width = w) Marking.place Marking.importance
      Marking.refine?) ∧
    (∀ v w, Refinement (MemoryMark.OfWidths · v w) MemoryMark.place MemoryMark.importance
      MemoryMark.refine?) ∧
    (∀ t : Shape, Refinement (RecordMark.Fits t) RecordMark.place RecordMark.importance
      RecordMark.refine?) ∧
    ∀ t : Shape, Refinement (StateMark.Fits t) StateMark.place StateMark.importance
      StateMark.refine? := by
  refine ⟨fun w => ?_, fun v w => ?_, fun t => ?_, fun t => ?_⟩
  · refine refinement_of_adds (fun hm ho => ?_) (fun {m} _ => m.finite_bits) fun _ => ?_
    · obtain ⟨o, hrefine, hnone, hsome⟩ := Marking.refine?_adds (ho.trans hm.symm)
      -- a mark of one value has a single place
      refine ⟨o, hrefine, ?_, fun r hr => (hsome r hr).1.trans hm⟩
      cases o with
      | none =>
        rintro ⟨p, k⟩ ⟨mark, hmark, hk⟩
        obtain rfl := Option.some.inj hmark
        exact ⟨_, rfl, hnone rfl hk⟩
      | some r =>
        obtain ⟨-, k, hadds⟩ := hsome r rfl
        exact ⟨(), k, ⟨_, _, _, rfl, rfl, rfl, hadds⟩, fun q hq => absurd rfl hq⟩
    · exact ⟨fun h _ mark hmark => Option.some.inj hmark ▸ h, fun h => h () _ rfl⟩
  · refine refinement_of_adds (fun hm ho => ?_) (fun hm => MemoryMark.finite_bits hm.wellFormed)
      fun hm => FieldMark.importance_le_iff_place (m := .array _) hm.wellFormed
    obtain ⟨o, hrefine, hrefines⟩ := MemoryMark.refine?_adds hm.wellFormed ho.wellFormed
      (ho.indexWidth_eq.trans hm.indexWidth_eq.symm)
      (ho.elementWidth_eq.trans hm.elementWidth_eq.symm)
    refine ⟨o, hrefine, hrefines, fun r hr => ?_⟩
    obtain rfl := hr
    obtain ⟨hindex, helement, hr⟩ := MemoryMark.refine?_eq_some hm.wellFormed hrefine
    exact ⟨hr, hindex.trans hm.indexWidth_eq, helement.trans hm.elementWidth_eq⟩
  · refine refinement_of_adds (fun hm ho => ?_)
      (fun hm => FieldMark.finite_bitsIn hm.fields.wellFormed) fun hm => RecordMark.importance_le_iff hm
    obtain ⟨o, hrefine, hrefines⟩ := RecordMark.refine?_adds hm ho
    refine ⟨o, hrefine, hrefines, fun r hr => ?_⟩
    obtain rfl := hr
    exact RecordMark.refine?_eq_some hm hrefine
  · refine refinement_of_adds (fun hm ho => ?_)
      (fun hm => FieldMark.finite_bitsIn hm.wellFormed_parts) fun hm => StateMark.importance_le_iff hm
    obtain ⟨o, hrefine, hrefines⟩ := StateMark.refine?_adds hm ho
    refine ⟨o, hrefine, hrefines, fun r hr => ?_⟩
    obtain rfl := hr
    exact StateMark.refine?_eq_some hm hrefine

/-- Two bits of each of two elements are missing, and are taken one after the other until none is
    left. -/
theorem refine?_adds_one_in_turn :
    let offer : MemoryMark := .replicate 1 ⟨4, .of 6 1⟩
    let unmarked : MemoryMark := .replicate 1 ⟨4, .unmarked 4⟩
    (bitsAt MemoryMark.place offer \ bitsAt MemoryMark.place unmarked).ncard = 4 ∧
      attempts MemoryMark.refine? offer 5 unmarked =
        .ok ([true, true, true, true, false], offer) := by
  intro offer unmarked
  have hwidth : 4 ≤ Word.maxWidth := by decide
  have hunmarked : unmarked.OfWidths 1 4 := ⟨MemoryMark.wellFormed_replicate hwidth, rfl, rfl⟩
  have hoffer : offer.OfWidths 1 4 := ⟨MemoryMark.wellFormed_replicate hwidth, rfl, rfl⟩
  obtain ⟨last, hlast⟩ := (refine?_adds_one.2.1 1 4).counts 5 hunmarked hoffer
  have hrun : attempts MemoryMark.refine? offer 5 unmarked =
      .ok ([true, true, true, true, false], offer) := by decide +kernel
  -- as many bits are missing as were taken
  have hoffers := congrArg (List.count true) (Prod.mk.inj (Except.ok.inj (hlast.symm.trans hrun))).1
  have hmin : min 5 (bitsAt MemoryMark.place offer \ bitsAt MemoryMark.place unmarked).ncard = 4 := by
    simpa [List.count_replicate] using hoffers
  exact ⟨by omega, hrun⟩

end RefineCheck
