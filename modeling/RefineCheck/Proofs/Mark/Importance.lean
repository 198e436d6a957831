/-
  RefineCheck.Proofs.Mark.Importance

  The importance of the parts of a mark: of each field, and of each element of an array. A join takes
  the larger importance of each part, a refinement lowers none, and a field is as important as its most
  important element.
-/

import Mathlib
import RefineCheck.Proofs.Mark.Operations

namespace RefineCheck

/-! ## Single values -/

namespace Mark

variable {w : Nat}

theorem importance_of (bits : BitVec w) (k : Nat) :
    (of bits k).importance = if bits = 0 then 0 else max k 1 := by
  rw [of]
  split <;> rfl

/-- A mark of no bit has no importance. -/
theorem importance_le_of {m : Mark w} {bits : BitVec w} {k : Nat} (hbits : bits = 0 → m.bits = 0)
    (hk : m.importance ≤ k) : m.importance ≤ (of bits k).importance := by
  rw [importance_of]
  split
  · rename_i hzero
    exact (m.normal.1 (hbits hzero)).le
  · exact hk.trans (le_max_left _ _)

theorem importance_join (m n : Mark w) :
    (m.join n).importance = max m.importance n.importance := by
  refine le_antisymm ?_ (max_le ?_ ?_)
  · rw [join, importance_of]
    split
    · exact Nat.zero_le _
    · -- a join that marks a bit is important already, so it is not raised to one
      rename_i hne
      have hpos : 1 ≤ max m.importance n.importance := by
        by_contra hlt
        rw [Nat.not_le, Nat.lt_one_iff, Nat.max_eq_zero_iff] at hlt
        exact hne (BitVec.or_eq_zero_iff.2 ⟨m.normal.2 hlt.1, n.normal.2 hlt.2⟩)
      exact max_le le_rfl hpos
  · exact importance_le_of (fun h => (BitVec.or_eq_zero_iff.1 h).1) (le_max_left _ _)
  · exact importance_le_of (fun h => (BitVec.or_eq_zero_iff.1 h).2) (le_max_right _ _)

theorem importance_refine? {m offer r : Mark w} (h : m.refine? offer = some r) :
    m.importance ≤ r.importance := by
  rw [refine?] at h
  simp only at h
  split at h
  · cases h
  · obtain rfl := Option.some.inj h
    exact importance_le_of (fun h => (BitVec.or_eq_zero_iff.1 h).1) (le_max_left _ _)

end Mark

namespace Marking

variable {m n offer r : Marking}

theorem importance_join (h : m.join n = .ok r) : r.importance = max m.importance n.importance := by
  obtain ⟨w, m⟩ := m
  obtain ⟨v, n⟩ := n
  rw [join, Sized.zipWith] at h
  split at h
  · rename_i hwidth
    obtain rfl : v = w := hwidth
    obtain rfl := Except.ok.inj h
    exact m.importance_join n
  · cases h

theorem importance_refine? (h : m.refine? offer = .ok (some r)) : m.importance ≤ r.importance := by
  rw [refine?, Sized.zipWith] at h
  split at h
  · obtain ⟨r, hr, rfl⟩ := Option.map_eq_some_iff.1 (Except.ok.inj h)
    exact Mark.importance_refine? hr
  · cases h

end Marking

theorem foldl_max_le_iff {α : Type} {f : α → Nat} (xs : List α) (least : Nat) {k : Nat} :
    xs.foldl (fun n x => max n (f x)) least ≤ k ↔ least ≤ k ∧ ∀ x ∈ xs, f x ≤ k := by
  induction xs generalizing least with
  | nil => simp
  | cons x rest ih => rw [List.foldl_cons, ih, max_le_iff, List.forall_mem_cons, and_assoc]

/-! ## Fields -/

/-- The run that a refinement picks is refined at its first index. -/
theorem MemoryMark.refines_item {m offer r : MemoryMark} (hm : m.WellFormed)
    (ho : offer.WellFormed) (h : m.refine? offer = .ok (some r)) :
    ∃ i value, i ≤ m.marks.last ∧
      (m.marks.item i).refine? (offer.marks.item i) = .ok (some value) ∧
      r.marks.last = m.marks.last ∧
      ∀ j ≤ m.marks.last, r.marks.item j = if j = i then value else m.marks.item j := by
  simp only [MemoryMark.refine?, bind_eq_ok] at h
  obtain ⟨pairs, hpairs, o, hfind, h⟩ := h
  cases o with
  | none => cases h
  | some x =>
    simp only [bind_eq_ok, pure_eq_ok, Option.some.injEq] at h
    obtain ⟨marks, hset, rfl⟩ := h
    obtain ⟨s, hs, hfirst, hvalue⟩ := MemoryMark.findRefinement_eq_some hfind
    obtain ⟨-, hord, hpairsLast, hitems⟩ := Runs.zip_spec hpairs hm.ordered ho.ordered
    obtain ⟨hle, hpair⟩ := hord.tiles.value hs
    rw [hitems, hfirst] at hpair
    rw [← hpair] at hvalue
    rw [hpairsLast, hfirst] at hle
    obtain ⟨-, -, hlast, hmarks⟩ := Runs.set_spec hset hm.ordered
    exact ⟨x.1, x.2, hle, hvalue, hlast, hmarks⟩

namespace FieldMark

variable {m n offer r : FieldMark}

/-- The importance of the element at an index; a single value is the element at index zero. -/
def importanceAt : FieldMark → Nat → Nat
  | .scalar m, i => if i = 0 then m.importance else 0
  | .array m, i => if i ≤ m.marks.last then (m.marks.item i).importance else 0

theorem importanceAt_scalar_join {m n r : Marking} (h : m.join n = .ok r) (i : Nat) :
    (scalar r).importanceAt i = max ((scalar m).importanceAt i) ((scalar n).importanceAt i) := by
  simp only [importanceAt]
  split
  · exact Marking.importance_join h
  · rfl

theorem importanceAt_scalar_refine? {m offer r : Marking} (h : m.refine? offer = .ok (some r))
    (i : Nat) : (scalar m).importanceAt i ≤ (scalar r).importanceAt i := by
  simp only [importanceAt]
  split
  · exact Marking.importance_refine? h
  · exact le_rfl

theorem importanceAt_join (hm : m.WellFormed) (hn : n.WellFormed) (hkind : n.kind = m.kind)
    (h : m.join n = .ok r) (i : Nat) :
    r.importanceAt i = max (m.importanceAt i) (n.importanceAt i) := by
  cases m with
  | scalar m =>
    cases n with
    | array n => cases hkind
    | scalar n =>
      obtain ⟨r, hr, hjoined⟩ := bind_eq_ok.1 h
      obtain rfl := Except.ok.inj hjoined
      exact importanceAt_scalar_join hr i
  | array m =>
    cases n with
    | scalar n => cases hkind
    | array n =>
      obtain ⟨r, hr, hjoined⟩ := bind_eq_ok.1 h
      obtain rfl := Except.ok.inj hjoined
      obtain ⟨marks, hmarks, hr⟩ := bind_eq_ok.1 hr
      obtain rfl := Except.ok.inj hr
      obtain ⟨hlast, -, hlast', hitems⟩ := Runs.zipWithM_spec hmarks hm.ordered hn.ordered
      simp only [importanceAt, hlast', ← hlast]
      split
      · exact Marking.importance_join (hitems i)
      · rfl

theorem importanceAt_refine? (hm : m.WellFormed) (ho : offer.WellFormed)
    (hkind : offer.kind = m.kind) (h : m.refine? offer = .ok (some r)) (i : Nat) :
    m.importanceAt i ≤ r.importanceAt i := by
  cases m with
  | scalar m =>
    cases offer with
    | array offer => cases hkind
    | scalar offer =>
      obtain ⟨o, ho, hrefined⟩ := bind_eq_ok.1 h
      obtain ⟨r, rfl, rfl⟩ := Option.map_eq_some_iff.1 (Except.ok.inj hrefined)
      exact importanceAt_scalar_refine? ho i
  | array m =>
    cases offer with
    | scalar offer => cases hkind
    | array offer =>
      obtain ⟨o, hrefines, hrefined⟩ := bind_eq_ok.1 h
      obtain ⟨r, rfl, rfl⟩ := Option.map_eq_some_iff.1 (Except.ok.inj hrefined)
      obtain ⟨k, value, -, hvalue, hlast, hitems⟩ := MemoryMark.refines_item hm ho hrefines
      simp only [importanceAt, hlast]
      split
      · rename_i hi
        rw [hitems i hi]
        split
        · rename_i hk
          exact hk ▸ Marking.importance_refine? hvalue
        · exact le_rfl
      · exact le_rfl

/-- A field is as important as its most important element. -/
theorem importance_le_iff (hm : m.WellFormed) {k : Nat} :
    m.importance ≤ k ↔ ∀ i, m.importanceAt i ≤ k := by
  cases m with
  | scalar m =>
    refine ⟨fun h i => ?_, fun h => h 0⟩
    simp only [importanceAt]
    split
    · exact h
    · exact Nat.zero_le k
  | array m =>
    -- the importance is that of the runs, and each run stands for all its elements
    refine (foldl_max_le_iff m.marks.segments 0).trans ⟨fun h i => ?_, fun h => ⟨Nat.zero_le k, fun s hs => ?_⟩⟩
    · simp only [importanceAt]
      split
      · rename_i hi
        obtain ⟨s, hs, hvalue⟩ := hm.ordered.tiles.exists_mem (Nat.zero_le i) hi
        exact hvalue ▸ h.2 s hs
      · exact Nat.zero_le k
    · obtain ⟨hfirst, hvalue⟩ := hm.ordered.tiles.value hs
      have hle := h s.first
      simp only [importanceAt, if_pos hfirst] at hle
      exact hvalue ▸ hle

/-! ### Lists of fields -/

/-- What is measured of the field with some number; of a missing field nothing is. -/
def measure (f : FieldMark → Nat) (ms : List FieldMark) (k : Nat) : Nat := ((ms[k]?).map f).getD 0

variable {kinds : List Kind} {ms ns os rs : List FieldMark}

theorem measure_joinAll (hm : Fit kinds ms) (hn : Fit kinds ns)
    (h : (ms.zip ns).mapM (fun p => p.1.join p.2) = .ok rs) (k i : Nat) :
    measure (·.importanceAt i) rs k =
      max (measure (·.importanceAt i) ms k) (measure (·.importanceAt i) ns k) := by
  induction kinds generalizing ms ns rs k with
  | nil =>
    obtain rfl : ms = [] := List.map_eq_nil_iff.1 hm.kinds_eq
    obtain rfl : ns = [] := List.map_eq_nil_iff.1 hn.kinds_eq
    obtain rfl := Except.ok.inj h
    exact (max_self _).symm
  | cons kind kinds ih =>
    obtain ⟨m, ms, rfl, hmk, hmwf, hms⟩ := fit_cons.1 hm
    obtain ⟨n, ns, rfl, hnk, hnwf, hns⟩ := fit_cons.1 hn
    simp only [List.zip_cons_cons, List.mapM_cons, bind_eq_ok, pure_eq_ok] at h
    obtain ⟨r, hr, rs, hrs, rfl⟩ := h
    cases k with
    | zero => exact importanceAt_join hmwf hnwf (hnk.trans hmk.symm) hr i
    | succ k => exact ih hms hns hrs k

theorem measure_refineFields (hm : Fit kinds ms) (ho : Fit kinds os)
    (h : RecordMark.refineFields ms os = .ok (some rs)) (k i : Nat) :
    measure (·.importanceAt i) ms k ≤ measure (·.importanceAt i) rs k := by
  induction kinds generalizing ms os rs k with
  | nil =>
    obtain rfl : ms = [] := List.map_eq_nil_iff.1 hm.kinds_eq
    exact Nat.zero_le _
  | cons kind kinds ih =>
    obtain ⟨m, ms, rfl, hmk, hmwf, hms⟩ := fit_cons.1 hm
    obtain ⟨o, os, rfl, hok, howf, hos⟩ := fit_cons.1 ho
    simp only [RecordMark.refineFields, bind_eq_ok] at h
    obtain ⟨x, hx, h⟩ := h
    cases x with
    | some r =>
      -- the first field that grows is the only one that changes
      obtain rfl := Option.some.inj (Except.ok.inj h)
      cases k with
      | zero => exact importanceAt_refine? hmwf howf (hok.trans hmk.symm) hx i
      | succ k => exact le_rfl
    | none =>
      simp only [bind_eq_ok, pure_eq_ok] at h
      obtain ⟨y, hy, h⟩ := h
      obtain ⟨rs, rfl, rfl⟩ := Option.map_eq_some_iff.1 h
      cases k with
      | zero => exact le_rfl
      | succ k => exact ih hms hos hy k

theorem measure_le_iff (hm : ∀ m ∈ ms, m.WellFormed) {k b : Nat} :
    measure importance ms k ≤ b ↔ ∀ i, measure (·.importanceAt i) ms k ≤ b := by
  rw [measure]
  simp only [measure]
  cases hk : ms[k]? with
  | none => simp
  | some m => exact importance_le_iff (hm m (List.mem_of_getElem? hk))

end FieldMark

/-! ## Records and states -/

namespace RecordMark

variable {t : Shape} {m n offer r : RecordMark}

/-- The importance of a part, given by field and index. -/
def importanceAt (m : RecordMark) (x : Nat × Nat) : Nat :=
  FieldMark.measure (·.importanceAt x.2) m.fields x.1

theorem importanceAt_join (hm : m.Fits t) (hn : n.Fits t) (h : m.join n = .ok r) (x : Nat × Nat) :
    r.importanceAt x = max (m.importanceAt x) (n.importanceAt x) := by
  simp only [join, bind_eq_ok, pure_eq_ok] at h
  obtain ⟨-, -, fields, hfields, rfl⟩ := h
  exact FieldMark.measure_joinAll hm.fields hn.fields hfields x.1 x.2

theorem importanceAt_refine? (hm : m.Fits t) (ho : offer.Fits t)
    (h : m.refine? offer = .ok (some r)) (x : Nat × Nat) : m.importanceAt x ≤ r.importanceAt x := by
  simp only [refine?, bind_eq_ok, pure_eq_ok] at h
  obtain ⟨-, -, o, hfields, h⟩ := h
  obtain ⟨fields, rfl, rfl⟩ := Option.map_eq_some_iff.1 h
  exact FieldMark.measure_refineFields hm.fields ho.fields hfields x.1 x.2

end RecordMark

namespace StateMark

variable {t : Shape} {m n offer r : StateMark}

/-- The marks of the panic code and of the fields. -/
def parts (m : StateMark) : List FieldMark := .scalar m.panic :: m.result.fields

/-- The importance of a part, where the panic code comes before the fields. -/
def importanceAt (m : StateMark) (x : Nat × Nat) : Nat :=
  FieldMark.measure (·.importanceAt x.2) m.parts x.1

theorem importanceAt_join (hm : m.Fits t) (hn : n.Fits t) (h : m.join n = .ok r) (x : Nat × Nat) :
    r.importanceAt x = max (m.importanceAt x) (n.importanceAt x) := by
  obtain ⟨k, i⟩ := x
  simp only [join, bind_eq_ok, pure_eq_ok] at h
  obtain ⟨panic, hpanic, result, hresult, rfl⟩ := h
  cases k with
  | zero => exact FieldMark.importanceAt_scalar_join hpanic i
  | succ k => exact RecordMark.importanceAt_join hm.result hn.result hresult (k, i)

theorem importanceAt_refine? (hm : m.Fits t) (ho : offer.Fits t)
    (h : m.refine? offer = .ok (some r)) (x : Nat × Nat) : m.importanceAt x ≤ r.importanceAt x := by
  obtain ⟨k, i⟩ := x
  simp only [refine?, bind_eq_ok] at h
  obtain ⟨o, hpanic, h⟩ := h
  cases o with
  | some panic =>
    obtain rfl := Option.some.inj (Except.ok.inj h)
    cases k with
    | zero => exact FieldMark.importanceAt_scalar_refine? hpanic i
    | succ k => exact le_rfl
  | none =>
    simp only [bind_eq_ok, pure_eq_ok] at h
    obtain ⟨o, hresult, h⟩ := h
    obtain ⟨result, rfl, rfl⟩ := Option.map_eq_some_iff.1 h
    cases k with
    | zero => exact le_rfl
    | succ k => exact RecordMark.importanceAt_refine? hm.result ho.result hresult (k, i)

theorem Fits.wellFormed_parts (hm : m.Fits t) : ∀ p ∈ m.parts, p.WellFormed := by
  refine List.forall_mem_cons.2 ⟨?_, hm.result.fields.wellFormed⟩
  show m.panic.width ≤ Word.maxWidth
  rw [hm.panic_width]
  decide

end StateMark

end RefineCheck
