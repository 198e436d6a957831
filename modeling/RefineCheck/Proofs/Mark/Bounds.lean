/-
  RefineCheck.Proofs.Mark.Bounds

  What the shape of a mark bounds: the positions of its bits, and the number of values that it
  tells apart.
-/

import Mathlib
import RefineCheck.Proofs.Mark.Enumeration

namespace RefineCheck

/-! ## Positions -/

/-- The positions of bits in a number of fields, by field, index and bit. -/
def positions (fields : Nat) : Set (Nat × Nat × Nat) :=
  {x | x.1 < fields ∧ x.2.1 ≤ Word.last Word.maxWidth ∧ x.2.2 < Word.maxWidth}

theorem finite_positions (fields : Nat) : (positions fields).Finite :=
  ((Set.finite_Iio fields).prod ((Set.finite_Iic (Word.last Word.maxWidth)).prod
    (Set.finite_Iio Word.maxWidth))).subset fun _ hx => hx

theorem Word.last_le (w : Nat) : Word.last w ≤ Word.last Word.maxWidth := by
  have hpow : 2 ^ min w Word.maxWidth ≤ 2 ^ min Word.maxWidth Word.maxWidth :=
    Nat.pow_le_pow_right Nat.two_pos (by omega)
  exact Nat.sub_le_sub_right hpow 1

theorem Marking.lt_of_marked {m : Marking} {b : Nat} (h : b ∈ m.marked) : b < m.width :=
  BitVec.lt_of_getLsbD h

theorem FieldMark.marked_bounded {m : FieldMark} (hm : m.WellFormed) {x : Nat × Nat}
    (hx : x ∈ m.marked) : x.1 ≤ Word.last Word.maxWidth ∧ x.2 < Word.maxWidth := by
  cases m with
  | scalar m =>
    obtain ⟨hi, hb⟩ := hx
    exact ⟨hi ▸ Nat.zero_le _, (Marking.lt_of_marked hb).trans_le hm⟩
  | array m =>
    obtain ⟨hi, hb⟩ := hx
    have hlast : x.1 ≤ Word.last m.indexWidth := hm.last_eq ▸ hi
    have hwidth : (m.marks.item x.1).width = m.elementWidth := hm.item_width hi
    exact ⟨hlast.trans (Word.last_le _),
      (Marking.lt_of_marked hb).trans_le (hwidth.le.trans hm.width_le)⟩

theorem FieldMark.allMarked_subset {ms : List FieldMark} (hms : ∀ m ∈ ms, m.WellFormed) :
    allMarked ms ⊆ positions ms.length := by
  induction ms with
  | nil => exact fun _ hx => hx.elim
  | cons m ms ih =>
    rw [List.forall_mem_cons] at hms
    rintro ⟨k, x⟩ hx
    cases k with
    | zero => exact ⟨Nat.succ_pos _, marked_bounded hms.1 hx⟩
    | succ k =>
      obtain ⟨hk, hrest⟩ := ih hms.2 (mem_allMarked_succ.1 hx)
      exact ⟨Nat.succ_lt_succ hk, hrest⟩

theorem RecordMark.marked_subset {t : Shape} {m : RecordMark} (hm : m.Fits t) :
    m.marked ⊆ positions t.length := by
  have hlength : m.fields.length = t.length := by
    simpa using congrArg List.length hm.fields.kinds_eq
  exact hlength ▸ FieldMark.allMarked_subset hm.fields.wellFormed

theorem StateMark.marked_subset {t : Shape} {m : StateMark} (hm : m.Fits t) :
    m.marked ⊆ positions (t.length + 1) := by
  have hlength : m.result.fields.length = t.length := by
    simpa using congrArg List.length hm.result.fields.kinds_eq
  have hpanic : (FieldMark.scalar m.panic).WellFormed := by
    show m.panic.width ≤ Word.maxWidth
    rw [hm.panic_width]
    decide
  have hsub : m.marked ⊆ positions (m.result.fields.length + 1) :=
    FieldMark.allMarked_subset (List.forall_mem_cons.2 ⟨hpanic, hm.result.fields.wellFormed⟩)
  rwa [hlength] at hsub

/-! ## Numbers of values -/

/-- The number of values of a kind. -/
def Kind.capacity : Kind → Nat
  | .scalar width => 2 ^ width
  | .array indexWidth elementWidth => (2 ^ elementWidth) ^ (Word.last indexWidth + 1)

/-- The number of records of a shape. -/
def Shape.capacity (t : Shape) : Nat := (t.map fun f => f.kind.capacity).prod

theorem Word.gather_lt (w m x : Nat) : gather w m x < 2 ^ w := by
  induction w generalizing m x with
  | zero => exact Nat.one_pos
  | succ w ih =>
    have := ih (m / 2) (x / 2)
    rw [gather, Nat.pow_succ]
    split <;> omega

theorem Marking.left_lt (m : Marking) (n : Nat) : m.left n < 2 ^ m.width := Word.gather_lt _ _ _

theorem Counter.capacity_le {size : Nat → Nat} {bound count first : Nat}
    (h : ∀ j, first ≤ j → j < first + count → size j ≤ bound) :
    capacity size count first ≤ bound ^ count := by
  induction count generalizing first with
  | zero => exact le_rfl
  | succ count ih =>
    have hrest : capacity size count (first + 1) ≤ bound ^ count :=
      ih fun j hj hlt => h j (by omega) (by omega)
    rw [capacity, Nat.pow_succ, Nat.mul_comm]
    exact Nat.mul_le_mul hrest (h first le_rfl (by omega))

theorem FieldMark.size_le {m : FieldMark} (hm : m.WellFormed) : m.size ≤ m.kind.capacity := by
  cases m with
  | scalar m => exact m.left_lt 0
  | array m =>
    have hsize (j : Nat) (hj : j ≤ m.marks.last) : m.sizes j ≤ 2 ^ m.elementWidth := by
      have hlt := (m.marks.item j).left_lt 0
      rwa [hm.item_width hj] at hlt
    rw [size, kind, Kind.capacity, ← hm.last_eq]
    exact Counter.capacity_le fun j _ hlt => hsize j (by omega)

theorem FieldMark.sizeAll_le {kinds : List Kind} {ms : List FieldMark} (hm : Fit kinds ms) :
    sizeAll ms ≤ (kinds.map Kind.capacity).prod := by
  induction ms generalizing kinds with
  | nil =>
    obtain rfl := hm.kinds_eq
    exact le_rfl
  | cons m ms ih =>
    obtain rfl := hm.kinds_eq
    obtain ⟨hhead, htail⟩ := List.forall_mem_cons.1 hm.wellFormed
    rw [sizeAll, List.map_cons, List.prod_cons, List.map_cons, List.map_cons, List.prod_cons]
    exact Nat.mul_le_mul (size_le hhead) (ih ⟨rfl, htail⟩)

/-- A mark tells apart at most as many records as there are. -/
theorem RecordMark.size_le {t : Shape} {m : RecordMark} (hm : m.Fits t) : m.size ≤ t.capacity := by
  have hle := FieldMark.sizeAll_le hm.fields
  rwa [List.map_map] at hle

end RefineCheck
