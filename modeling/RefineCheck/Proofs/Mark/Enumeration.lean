/-
  RefineCheck.Proofs.Mark.Enumeration

  The enumeration of records. A record is a counter whose digits are the marked bits of its single
  values and of the elements of its arrays. Advancing takes one off the number of records that are
  left, so every record of single words is a member of exactly one that is enumerated.
-/

import Mathlib
import RefineCheck.Proofs.Mark.Counter
import RefineCheck.Proofs.Mark.Operations
import RefineCheck.Verifier.Generation

namespace RefineCheck

/-! ## Counters -/

namespace Counter

variable {size d d' d₁ d₂ : Nat → Nat} {first count a c : Nat} {advanced : Bool}

/-- The number of values of some digits. -/
def capacity (size : Nat → Nat) : (count first : Nat) → Nat
  | 0, _ => 1
  | count + 1, first => size first * capacity size count (first + 1)

/-- The number that some digits form, the first one being the least significant. -/
def weigh (size d : Nat → Nat) : (count first : Nat) → Nat
  | 0, _ => 0
  | count + 1, first => d first + size first * weigh size d count (first + 1)

theorem weigh_congr (h : ∀ j, first ≤ j → j < first + count → d j = d' j) :
    weigh size d count first = weigh size d' count first := by
  induction count generalizing first with
  | zero => rfl
  | succ count ih =>
    rw [weigh, weigh, h first le_rfl (by omega), ih fun j hj hlt => h j (by omega) (by omega)]

theorem capacity_add : capacity size (a + c) first =
    capacity size a first * capacity size c (first + a) := by
  induction a generalizing first with
  | zero => rw [Nat.zero_add, capacity, Nat.one_mul, Nat.add_zero]
  | succ a ih =>
    have hfirst : first + 1 + a = first + (a + 1) := by omega
    rw [Nat.succ_add, capacity, capacity, ih, hfirst, Nat.mul_assoc]

theorem weigh_add : weigh size d (a + c) first =
    weigh size d a first + capacity size a first * weigh size d c (first + a) := by
  induction a generalizing first with
  | zero => rw [Nat.zero_add, weigh, capacity, Nat.zero_add, Nat.one_mul, Nat.add_zero]
  | succ a ih =>
    have hfirst : first + 1 + a = first + (a + 1) := by omega
    rw [Nat.succ_add, weigh, weigh, capacity, ih, hfirst]
    ring

theorem weigh_lt (h : ∀ j, first ≤ j → j < first + count → d j < size j) :
    weigh size d count first < capacity size count first := by
  induction count generalizing first with
  | zero => exact Nat.one_pos
  | succ count ih =>
    have hd := h first le_rfl (by omega)
    have hrest : weigh size d count (first + 1) < capacity size count (first + 1) :=
      ih fun j hj hlt => h j (by omega) (by omega)
    rw [weigh, capacity]
    calc d first + size first * weigh size d count (first + 1)
        < size first + size first * weigh size d count (first + 1) := Nat.add_lt_add_right hd _
      _ = size first * (weigh size d count (first + 1) + 1) := by ring
      _ ≤ size first * capacity size count (first + 1) := Nat.mul_le_mul_left _ hrest

theorem digits_eq_of_add_mul {n x y k j : Nat} (hx : x < n) (hy : y < n)
    (h : x + n * k = y + n * j) : x = y ∧ k = j := by
  have hmod := congrArg (· % n) h
  simp only [Nat.add_mul_mod_self_left, Nat.mod_eq_of_lt hx, Nat.mod_eq_of_lt hy] at hmod
  subst hmod
  exact ⟨rfl, Nat.eq_of_mul_eq_mul_left (by omega) (Nat.add_left_cancel h)⟩

/-- Digits are determined by the number they form. -/
theorem weigh_injective (h : ∀ j, first ≤ j → j < first + count → d j < size j)
    (h' : ∀ j, first ≤ j → j < first + count → d' j < size j)
    (heq : weigh size d count first = weigh size d' count first) :
    ∀ j, first ≤ j → j < first + count → d j = d' j := by
  induction count generalizing first with
  | zero =>
    intro j hj hlt
    omega
  | succ count ih =>
    rw [weigh, weigh] at heq
    obtain ⟨hfirst, hrest⟩ := digits_eq_of_add_mul (h first le_rfl (by omega))
      (h' first le_rfl (by omega)) heq
    intro j hj hlt
    rcases Nat.eq_or_lt_of_le hj with rfl | hgt
    · exact hfirst
    · exact ih (fun j hj hlt => h j (by omega) (by omega))
        (fun j hj hlt => h' j (by omega) (by omega)) hrest j hgt (by omega)

/-- A turn of a counter that leaves all other digits: the number gets one less, or it was zero and
    becomes the largest one. -/
structure Turns (size d d' : Nat → Nat) (first count : Nat) (advanced : Bool) : Prop where
  outside {j : Nat} : j < first ∨ first + count ≤ j → d' j = d j
  down : advanced = true → weigh size d' count first + 1 = weigh size d count first
  wraps : advanced = false → weigh size d count first = 0 ∧
    weigh size d' count first + 1 = capacity size count first

/-- Digits with a single value do not move. -/
theorem turns_idle (h : ∀ j, first ≤ j → j < first + count → d j = 0 ∧ size j = 1) :
    Turns size d d first count false := by
  have hspec : weigh size d count first = 0 ∧ capacity size count first = 1 := by
    induction count generalizing first with
    | zero => exact ⟨rfl, rfl⟩
    | succ count ih =>
      obtain ⟨hd, hsize⟩ := h first le_rfl (by omega)
      obtain ⟨hweigh, hcap⟩ : weigh size d count (first + 1) = 0 ∧
          capacity size count (first + 1) = 1 := ih fun j hj hlt => h j (by omega) (by omega)
      rw [weigh, capacity, hd, hsize, hweigh, hcap]
      exact ⟨rfl, rfl⟩
  refine ⟨fun _ => rfl, fun h => absurd h Bool.false_ne_true, fun _ => ⟨hspec.1, ?_⟩⟩
  rw [hspec.1, hspec.2]

/-- Digits that are all as large as possible form the largest number. -/
theorem weigh_largest (h : ∀ j, first ≤ j → j < first + count → d j + 1 = size j) :
    weigh size d count first + 1 = capacity size count first := by
  induction count generalizing first with
  | zero => rfl
  | succ count ih =>
    have hrest : weigh size d count (first + 1) + 1 = capacity size count (first + 1) :=
      ih fun j hj hlt => h j (by omega) (by omega)
    rw [weigh, capacity, ← hrest, ← h first le_rfl (by omega)]
    ring

/-- A digit that overflows carries into those after it. -/
theorem Turns.carry (h : Turns size d d₁ first a false)
    (h' : Turns size d₁ d₂ (first + a) c advanced) : Turns size d d₂ first (a + c) advanced := by
  obtain ⟨hzero, hmax⟩ := h.wraps rfl
  have hhead : weigh size d₂ a first = weigh size d₁ a first :=
    weigh_congr fun j _ hlt => h'.outside (.inl hlt)
  have htail : weigh size d₁ c (first + a) = weigh size d c (first + a) :=
    weigh_congr fun j hj _ => h.outside (.inr hj)
  refine ⟨fun {j} hj => ?_, fun hadv => ?_, fun hadv => ?_⟩
  · rw [h'.outside (by omega), h.outside (by omega)]
  · have hdown := h'.down hadv
    rw [htail] at hdown
    rw [weigh_add, weigh_add, hhead, hzero, ← hdown, Nat.mul_add, ← hmax]
    ring
  · obtain ⟨hzero', hmax'⟩ := h'.wraps hadv
    rw [htail] at hzero'
    rw [weigh_add, weigh_add, capacity_add, hhead, hzero, hzero', ← hmax', Nat.mul_add, ← hmax]
    exact ⟨rfl, by ring⟩

/-- A turn that is over leaves the digits after it. -/
theorem Turns.extend (h : Turns size d d₁ first a true) (c : Nat) :
    Turns size d d₁ first (a + c) true := by
  have htail : weigh size d₁ c (first + a) = weigh size d c (first + a) :=
    weigh_congr fun j hj _ => h.outside (.inr hj)
  refine ⟨fun {j} hj => h.outside (by omega), fun _ => ?_, fun h => by cases h⟩
  rw [weigh_add, weigh_add, ← h.down rfl, htail]
  ring

end Counter

/-! ## Arrays -/

/-- The numbers of the words of an array. -/
def Concrete.numbers {n w : Nat} (element : Fin n → BitVec w) (i : Nat) : Nat :=
  if h : i < n then (element ⟨i, h⟩).toNat else 0

namespace MemoryMark

open Counter (weigh capacity Turns)

variable (m : MemoryMark)

/-- The number of values of each element. -/
def sizes (i : Nat) : Nat := (m.marks.item i).left 0 + 1

/-- How many values each element has left. -/
def digits (e : Nat → Nat) (i : Nat) : Nat := (m.marks.item i).left (e i)

theorem digits_lt (e : Nat → Nat) (i : Nat) : m.digits e i < m.sizes i :=
  Nat.lt_succ_of_le ((m.marks.item i).left_le (e i))

/-- Elements that are enumerated for some numbers. -/
structure Shows (elements : Runs Value) (e : Nat → Nat) : Prop where
  ordered : elements.Ordered
  last_eq : elements.last = m.marks.last
  item_eq {i : Nat} : i ≤ m.marks.last → elements.item i = (m.marks.item i).valueOf (e i)

variable {m} {elements : Runs Value} {e : Nat → Nat}

/-- Advancing one element is a turn of its digit. -/
theorem advance_element (h : m.Shows elements e) {i : Nat} (hi : i ≤ m.marks.last) :
    ∃ elements' e', elements.get i = .ok (elements.item i) ∧
      elements.set i ((m.marks.item i).advance (elements.item i)).2 = .ok elements' ∧
      m.Shows elements' e' ∧ Turns m.sizes (m.digits e) (m.digits e') i 1
        ((m.marks.item i).advance (elements.item i)).1 := by
  obtain ⟨x, hvalue, hleft⟩ := (m.marks.item i).advance_valueOf (e i)
  rw [← h.item_eq hi] at hvalue hleft
  have hle : i ≤ elements.last := h.last_eq.symm ▸ hi
  obtain ⟨elements', hset, hord, hlast, hitems⟩ :=
    Runs.set_ok h.ordered hle ((m.marks.item i).advance (elements.item i)).2
  refine ⟨elements', Function.update e i x, Runs.get_ok hle, hset,
    ⟨hord, hlast.trans h.last_eq, fun {j} hj => ?_⟩, ⟨fun {j} hj => ?_, fun hadv => ?_, fun hadv => ?_⟩⟩
  · rw [hitems j (h.last_eq.symm ▸ hj)]
    split
    · rename_i hji
      rw [hji, Function.update_self, hvalue]
    · rename_i hji
      rw [Function.update_of_ne hji, h.item_eq hj]
  · rw [digits, digits, Function.update_of_ne (by omega)]
  · rw [if_pos hadv] at hleft
    simpa [Counter.weigh, digits] using hleft
  · rw [if_neg (Bool.eq_false_iff.1 hadv)] at hleft
    simpa [Counter.weigh, Counter.capacity, digits, sizes] using hleft

theorem advanceRun_spec {mark : Marking} {count i : Nat}
    (hmark : ∀ j, i ≤ j → j < i + count → m.marks.item j = mark) (hi : i + count ≤ m.marks.last + 1)
    (h : m.Shows elements e) :
    ∃ advanced elements' e', advanceRun mark count i elements = .ok (advanced, elements') ∧
      m.Shows elements' e' ∧ Turns m.sizes (m.digits e) (m.digits e') i count advanced := by
  induction count generalizing i elements e with
  | zero =>
    exact ⟨false, elements, e, rfl, h, Counter.turns_idle fun j hj hlt => by omega⟩
  | succ count ih =>
    obtain ⟨elements₁, e₁, hget, hset, hshows, hturn⟩ := advance_element h (i := i) (by omega)
    rw [hmark i le_rfl (by omega)] at hset hturn
    rw [advanceRun, hget, ok_bind]
    simp only
    rw [hset, ok_bind]
    cases hadv : (mark.advance (elements.item i)).1 with
    | true =>
      rw [hadv] at hturn
      refine ⟨true, elements₁, e₁, rfl, hshows, ?_⟩
      rw [Nat.add_comm count 1]
      exact hturn.extend count
    | false =>
      rw [hadv] at hturn
      obtain ⟨advanced, elements₂, e₂, hrun, hshows₂, hturn₂⟩ :=
        ih (i := i + 1) (fun j hj hlt => hmark j (by omega) (by omega)) (by omega) hshows
      refine ⟨advanced, elements₂, e₂, hrun, hshows₂, ?_⟩
      rw [Nat.add_comm count 1]
      exact hturn.carry hturn₂

theorem advanceSegments_spec {segments : List (Segment Marking)} {first : Nat}
    (htiles : Runs.Tiles m.marks.item m.marks.last first segments) (hfirst : first ≤ m.marks.last + 1)
    (h : m.Shows elements e) :
    ∃ advanced elements' e', advanceSegments segments elements = .ok (advanced, elements') ∧
      m.Shows elements' e' ∧
      Turns m.sizes (m.digits e) (m.digits e') first (m.marks.last + 1 - first) advanced := by
  induction segments generalizing first elements e with
  | nil =>
    obtain rfl : first = m.marks.last + 1 := htiles
    exact ⟨false, elements, e, rfl, h, Counter.turns_idle fun j hj hlt => by omega⟩
  | cons s rest ih =>
    obtain ⟨rfl, hle, hlast, hitem, htiles⟩ := htiles
    have hmark (j : Nat) (hj : s.first ≤ j) (hlt : j < s.first + (s.last + 1 - s.first)) :
        m.marks.item j = s.value := hitem j hj (by omega)
    have hsplit : m.marks.last + 1 - s.first =
        (s.last + 1 - s.first) + (m.marks.last + 1 - (s.last + 1)) := by omega
    have hnext : s.first + (s.last + 1 - s.first) = s.last + 1 := by omega
    rw [hsplit, advanceSegments]
    cases hmarked : s.value.isMarked with
    | false =>
      -- digits that are not marked have a single value, and carry as they stand
      have hidle : Turns m.sizes (m.digits e) (m.digits e) s.first (s.last + 1 - s.first) false := by
        refine Counter.turns_idle fun j hj hlt => ?_
        rw [digits, sizes, hmark j hj hlt, Marking.left_of_not_marked hmarked, Marking.left_of_not_marked hmarked]
        exact ⟨rfl, rfl⟩
      obtain ⟨advanced, elements', e', hrest, hshows, hturn⟩ := ih htiles (by omega) h
      exact ⟨advanced, elements', e', hrest, hshows, hidle.carry (hnext.symm ▸ hturn)⟩
    | true =>
      -- the elements of the segment turn first, and carry into the rest if none of them advances
      obtain ⟨advanced, elements₁, e₁, hrun, hshows, hturn⟩ :=
        advanceRun_spec hmark (by omega) h
      rw [if_pos rfl, hrun, ok_bind]
      cases advanced with
      | true => exact ⟨true, elements₁, e₁, rfl, hshows, hturn.extend _⟩
      | false =>
        obtain ⟨advanced, elements', e', hrest, hshows', hturn'⟩ := ih htiles (by omega) hshows
        exact ⟨advanced, elements', e', hrest, hshows', hturn.carry (hnext.symm ▸ hturn')⟩

theorem shows_first (hm : m.WellFormed) : m.Shows m.first.elements fun _ => 0 := by
  obtain ⟨hord, hlast, hitems⟩ := Runs.map_spec Marking.first hm.ordered
  refine ⟨hord, hlast, fun {i} _ => (hitems i).trans ?_⟩
  rfl

/-- The elements that are shown for some numbers have the words with the same digits. -/
theorem Shows.has {a : Memory} {width : Nat} (hm : m.WellFormed)
    (h : m.Shows a.elements e) (hindex : a.indexWidth = m.indexWidth)
    (helement : a.elementWidth = m.elementWidth)
    {element : Fin (Word.last m.indexWidth + 1) → BitVec m.elementWidth}
    (hdigits : ∀ j ≤ m.marks.last, m.digits (Concrete.numbers element) j = m.digits e j) :
    (Content.array width a).Has (.array m.indexWidth m.elementWidth element) := by
  refine ⟨hindex, helement, h.ordered, h.last_eq.trans hm.last_eq, fun i => ?_⟩
  have hi : i.1 ≤ m.marks.last := (Nat.le_of_lt_succ i.2).trans_eq hm.last_eq.symm
  have hdigit := hdigits i.1 hi
  have hnumber : Concrete.numbers element i.1 = (element i).toNat := dif_pos i.2
  rw [digits, digits, hnumber] at hdigit
  rw [h.item_eq hi]
  have hwidth := hm.item_width hi
  generalize m.marks.item i.1 = mark at hdigit hwidth ⊢
  exact (mark.has_valueOf (hwidth.le.trans hm.width_le) hwidth.symm _).2 hdigit

end MemoryMark

/-! ## Fields -/

theorem Marking.left_ofNat {m : Marking} (n : Nat) :
    m.left (BitVec.ofNat m.width n).toNat = m.left n := by
  rw [left, left, BitVec.ofNat_toNat, BitVec.setWidth_eq]

namespace FieldMark

open Counter (weigh capacity)

/-- The number of values that are enumerated. -/
def size : FieldMark → Nat
  | .scalar m => m.left 0 + 1
  | .array m => capacity m.sizes (m.marks.last + 1) 0

/-- Whether a content is enumerated and a number of others come after it. -/
def Shows : FieldMark → Content → Nat → Prop
  | .scalar m, .scalar value, n => ∃ x, value = m.valueOf x ∧ m.left x = n
  | .array m, .array _ a, n => a.indexWidth = m.indexWidth ∧ a.elementWidth = m.elementWidth ∧
    ∃ e, m.Shows a.elements e ∧ weigh m.sizes (m.digits e) (m.marks.last + 1) 0 = n
  | _, _, _ => False

/-- How many contents come after the one that has some words. -/
def position : FieldMark → Concrete.Datum → Nat
  | .scalar m, .word x => m.left x.val.toNat
  | .array m, .array _ _ element =>
    weigh m.sizes (m.digits (Concrete.numbers element)) (m.marks.last + 1) 0
  | _, _ => 0

variable {m : FieldMark} {c : Content} {d : Concrete.Datum} {n : Nat}

theorem Shows.kind_eq (h : m.Shows c n) : c.kind = m.kind := by
  cases m with
  | scalar m =>
    cases c with
    | scalar v =>
      obtain ⟨x, rfl, -⟩ := h
      rfl
    | array _ _ => exact h.elim
  | array m =>
    cases c with
    | scalar v => exact h.elim
    | array _ a =>
      obtain ⟨hindex, helement, -⟩ := h
      rw [Content.kind, kind, hindex, helement]

theorem Shows.lt (h : m.Shows c n) : n < m.size := by
  cases m with
  | scalar m =>
    cases c with
    | scalar v =>
      obtain ⟨x, -, rfl⟩ := h
      exact Nat.lt_succ_of_le (m.left_le x)
    | array _ _ => exact h.elim
  | array m =>
    cases c with
    | scalar v => exact h.elim
    | array _ a =>
      obtain ⟨-, -, e, -, rfl⟩ := h
      exact Counter.weigh_lt fun j _ _ => m.digits_lt e j

theorem position_lt (m : FieldMark) (d : Concrete.Datum) : m.position d < m.size := by
  cases m with
  | scalar m =>
    cases d with
    | word x => exact Nat.lt_succ_of_le (m.left_le _)
    | array _ _ _ => exact Nat.succ_pos _
  | array m =>
    have hlt (e : Nat → Nat) : weigh m.sizes (m.digits e) (m.marks.last + 1) 0 <
        capacity m.sizes (m.marks.last + 1) 0 :=
      Counter.weigh_lt fun j _ _ => m.digits_lt e j
    cases d with
    | word x => exact lt_of_le_of_lt (Nat.zero_le _) (hlt fun _ => 0)
    | array _ _ element => exact hlt _

/-- A content that is shown at the position of some words has them. -/
theorem Shows.has (hm : m.WellFormed) (h : m.Shows c n) (hd : d.kind = m.kind)
    (hpos : m.position d = n) : c.Has d := by
  cases m with
  | scalar m =>
    cases c with
    | scalar v =>
      cases d with
      | word x =>
        obtain ⟨y, rfl, rfl⟩ := h
        exact (m.has_valueOf hm (Kind.scalar.inj hd) y).2 hpos
      | array _ _ _ => cases hd
    | array _ _ => exact h.elim
  | array m =>
    cases c with
    | scalar v => exact h.elim
    | array width a =>
      cases d with
      | word x => cases hd
      | array indexWidth elementWidth element =>
        obtain ⟨rfl, rfl⟩ := Kind.array.inj hd
        obtain ⟨hindex, helement, e, hshows, rfl⟩ := h
        refine hshows.has hm hindex helement fun j hj => ?_
        exact Counter.weigh_injective (fun j _ _ => m.digits_lt _ j) (fun j _ _ => m.digits_lt _ j)
          hpos j (Nat.zero_le j) (by omega)

/-- A content that is shown has some words. -/
theorem Shows.exists_has (hm : m.WellFormed) (h : m.Shows c n) :
    ∃ d : Concrete.Datum, d.kind = m.kind ∧ c.Has d := by
  cases m with
  | scalar m =>
    cases c with
    | scalar v =>
      obtain ⟨x, rfl, -⟩ := h
      refine ⟨.word ⟨m.width, BitVec.ofNat m.width x⟩, rfl, ?_⟩
      exact (m.has_valueOf hm rfl x).2 (Marking.left_ofNat x)
    | array _ _ => exact h.elim
  | array m =>
    cases c with
    | scalar v => exact h.elim
    | array width a =>
      obtain ⟨hindex, helement, e, hshows, -⟩ := h
      refine ⟨.array m.indexWidth m.elementWidth fun i => BitVec.ofNat _ (e i.1), rfl,
        hshows.has hm hindex helement fun j hj => ?_⟩
      have hlt : j < Word.last m.indexWidth + 1 := Nat.lt_succ_of_le (hm.last_eq ▸ hj)
      rw [MemoryMark.digits, MemoryMark.digits, Concrete.numbers, dif_pos hlt, ← hm.item_width hj]
      exact Marking.left_ofNat (e j)

theorem first_spec {f : Field} (hm : m.WellFormed) (hf : f.content.kind = m.kind) :
    ∃ g n, m.first f = .ok g ∧ g.shape = f.shape ∧ m.Shows g.content n ∧ n + 1 = m.size := by
  obtain ⟨name, signedness, content⟩ := f
  cases m with
  | scalar m =>
    cases content with
    | scalar v =>
      have hwidth : m.width = v.width := (Kind.scalar.inj hf).symm
      refine ⟨⟨name, signedness, .scalar m.first⟩, _, if_pos hwidth, ?_, ⟨0, rfl, rfl⟩, rfl⟩
      show FieldShape.mk _ _ (.scalar m.width) = ⟨_, _, .scalar v.width⟩
      rw [hwidth]
    | array _ _ => cases hf
  | array m =>
    cases content with
    | scalar v => cases hf
    | array width a =>
      obtain ⟨hindex, helement⟩ := Kind.array.inj hf
      refine ⟨⟨name, signedness, .array width m.first⟩, _, rfl, ?_,
        ⟨rfl, rfl, _, MemoryMark.shows_first hm, rfl⟩, Counter.weigh_largest fun j _ _ => rfl⟩
      show FieldShape.mk _ _ (.array m.indexWidth m.elementWidth) =
        ⟨_, _, .array a.indexWidth a.elementWidth⟩
      rw [hindex, helement]

/-- Advancing a field takes one off what is left, or starts again when nothing is left. -/
theorem advance_spec {f : Field} (hm : m.WellFormed) (h : m.Shows f.content n) :
    ∃ advanced g n', m.advance f = .ok (advanced, g) ∧ g.shape = f.shape ∧ m.Shows g.content n' ∧
      (advanced = true → n' + 1 = n) ∧ (advanced = false → n = 0 ∧ n' + 1 = m.size) := by
  obtain ⟨name, signedness, content⟩ := f
  cases m with
  | scalar m =>
    cases content with
    | scalar v =>
      obtain ⟨x, rfl, rfl⟩ := h
      obtain ⟨y, hvalue, hleft⟩ := m.advance_valueOf x
      refine ⟨(m.advance (m.valueOf x)).1, ⟨name, signedness, .scalar (m.valueOf y)⟩, m.left y,
        ?_, rfl, ⟨y, rfl, rfl⟩, fun hadv => ?_, fun hadv => ?_⟩
      · -- the bits keep their width, so that they may be put back
        have hwith : Field.withBits ⟨name, signedness, .scalar (m.valueOf x)⟩ (m.valueOf y) =
            .ok ⟨name, signedness, .scalar (m.valueOf y)⟩ := if_pos rfl
        show (Field.withBits _ (m.advance (m.valueOf x)).2 >>= _) = _
        rw [hvalue, hwith]
        rfl
      · rwa [if_pos hadv] at hleft
      · rw [if_neg (Bool.eq_false_iff.1 hadv)] at hleft
        exact ⟨hleft.1, congrArg (· + 1) hleft.2⟩
    | array _ _ => exact h.elim
  | array m =>
    cases content with
    | scalar v => exact h.elim
    | array width a =>
      obtain ⟨hindex, helement, e, hshows, rfl⟩ := h
      obtain ⟨advanced, elements, e', hadvance, hshows', hturn⟩ :=
        MemoryMark.advanceSegments_spec hm.ordered.tiles (Nat.zero_le _) hshows
      rw [Nat.sub_zero] at hturn
      cases advanced with
      | true =>
        refine ⟨true, ⟨name, signedness, .array width { a with elements }⟩, _, ?_, rfl,
          ⟨hindex, helement, e', hshows', rfl⟩, fun _ => hturn.down rfl, fun h => by cases h⟩
        show (m.advance a >>= _) = _
        rw [MemoryMark.advance, hadvance]
        rfl
      | false =>
        -- nothing is left: the array starts again from its first elements
        refine ⟨false, ⟨name, signedness, .array width m.first⟩, _, ?_, ?_,
          ⟨rfl, rfl, _, MemoryMark.shows_first hm, rfl⟩, fun h => absurd h Bool.false_ne_true,
          fun _ => ⟨(hturn.wraps rfl).1, ?_⟩⟩
        · show (m.advance a >>= _) = _
          rw [MemoryMark.advance, hadvance]
          rfl
        · show FieldShape.mk _ _ (.array m.indexWidth m.elementWidth) =
            ⟨_, _, .array a.indexWidth a.elementWidth⟩
          rw [hindex, helement]
        · exact Counter.weigh_largest fun j _ _ => rfl

/-! ### Lists of fields -/

/-- The number of lists of values that are enumerated. -/
def sizeAll (ms : List FieldMark) : Nat := (ms.map size).prod

/-- Whether fields are enumerated and a number of others come after them. The first field is the
    least significant. -/
def ShowsAll : List FieldMark → List Field → Nat → Prop
  | [], [], n => n = 0
  | m :: ms, f :: fs, n => ∃ k j, m.Shows f.content k ∧ ShowsAll ms fs j ∧ n = k + m.size * j
  | _, _, _ => False

/-- How many lists of fields come after the one that has some words. -/
def positionAll : List FieldMark → List Concrete.Field → Nat
  | m :: ms, c :: cs => m.position c.datum + m.size * positionAll ms cs
  | _, _ => 0

theorem add_mul_lt {k j size rest : Nat} (hk : k < size) (hj : j < rest) :
    k + size * j < size * rest :=
  calc k + size * j < size + size * j := Nat.add_lt_add_right hk _
    _ = size * (j + 1) := by ring
    _ ≤ size * rest := Nat.mul_le_mul_left _ hj

theorem positionAll_lt (ms : List FieldMark) (cs : List Concrete.Field) :
    positionAll ms cs < sizeAll ms := by
  induction ms generalizing cs with
  | nil => exact Nat.one_pos
  | cons m ms ih =>
    cases cs with
    | nil =>
      have hm : 0 < m.size := (Nat.zero_le _).trans_lt (m.position_lt (.word ⟨0, 0⟩))
      exact Nat.mul_pos hm ((Nat.zero_le _).trans_lt (ih []))
    | cons c cs => exact add_mul_lt (m.position_lt _) (ih cs)

variable {t : Shape} {ms : List FieldMark} {fs : List Field}

theorem ShowsAll.has {cs : List Concrete.Field} (hm : Fit (t.map FieldShape.kind) ms)
    (hf : fs.map Field.shape = t) (hc : cs.map Concrete.Field.shape = t) (h : ShowsAll ms fs n)
    (hpos : positionAll ms cs = n) : List.Forall₂ Field.Has fs cs := by
  induction t generalizing ms fs cs n with
  | nil =>
    obtain rfl : fs = [] := List.map_eq_nil_iff.1 hf
    obtain rfl : cs = [] := List.map_eq_nil_iff.1 hc
    exact .nil
  | cons shape t ih =>
    obtain ⟨m, ms, rfl, hmk, hmwf, hms⟩ := fit_cons.1 hm
    obtain ⟨f, fs, rfl, hfs, hfrest⟩ := List.map_eq_cons_iff.1 hf
    obtain ⟨c, cs, rfl, hcs, hcrest⟩ := List.map_eq_cons_iff.1 hc
    obtain ⟨k, j, hshows, hrest, rfl⟩ := h
    obtain ⟨hhead, htail⟩ := Counter.digits_eq_of_add_mul (m.position_lt c.datum) hshows.lt hpos
    have hshape : f.shape = c.shape := hfs.trans hcs.symm
    have hkind : c.datum.kind = m.kind := by
      rw [hmk, ← hcs]
      rfl
    refine .cons ⟨congrArg FieldShape.name hshape, congrArg FieldShape.signedness hshape, ?_⟩
      (ih hms hfrest hcrest hrest htail)
    exact hshows.has hmwf hkind hhead

theorem ShowsAll.exists_has (hm : Fit (t.map FieldShape.kind) ms) (hf : fs.map Field.shape = t)
    (h : ShowsAll ms fs n) :
    ∃ cs : List Concrete.Field, cs.map Concrete.Field.shape = t ∧ List.Forall₂ Field.Has fs cs := by
  induction t generalizing ms fs n with
  | nil =>
    obtain rfl : fs = [] := List.map_eq_nil_iff.1 hf
    exact ⟨[], rfl, .nil⟩
  | cons shape t ih =>
    obtain ⟨m, ms, rfl, hmk, hmwf, hms⟩ := fit_cons.1 hm
    obtain ⟨f, fs, rfl, hfs, hfrest⟩ := List.map_eq_cons_iff.1 hf
    obtain ⟨k, j, hshows, hrest, rfl⟩ := h
    obtain ⟨d, hd, hhas⟩ := hshows.exists_has hmwf
    obtain ⟨cs, hcs, hall⟩ := ih hms hfrest hrest
    refine ⟨⟨f.name, f.signedness, d⟩ :: cs, ?_, .cons ⟨rfl, rfl, hhas⟩ hall⟩
    rw [List.map_cons, hcs, ← hfs, Field.shape, Concrete.Field.shape, hd, hshows.kind_eq]

theorem firstAll_spec (hm : Fit (t.map FieldShape.kind) ms) (hf : fs.map Field.shape = t) :
    ∃ gs n, (ms.zip fs).mapM (fun p => p.1.first p.2) = .ok gs ∧ gs.map Field.shape = t ∧
      ShowsAll ms gs n ∧ n + 1 = sizeAll ms := by
  induction t generalizing ms fs with
  | nil =>
    obtain rfl : ms = [] := List.map_eq_nil_iff.1 hm.kinds_eq
    exact ⟨[], 0, rfl, rfl, rfl, rfl⟩
  | cons shape t ih =>
    obtain ⟨m, ms, rfl, hmk, hmwf, hms⟩ := fit_cons.1 hm
    obtain ⟨f, fs, rfl, hfs, hfrest⟩ := List.map_eq_cons_iff.1 hf
    have hkind : f.content.kind = m.kind := by
      rw [hmk, ← hfs]
      rfl
    obtain ⟨g, k, hg, hgshape, hshows, hk⟩ := first_spec hmwf hkind
    obtain ⟨gs, j, hgs, hgsshape, hrest, hj⟩ := ih hms hfrest
    refine ⟨g :: gs, k + m.size * j, ?_, ?_, ⟨k, j, hshows, hrest, rfl⟩, ?_⟩
    · rw [List.zip_cons_cons, List.mapM_cons, hg, ok_bind, hgs]
      rfl
    · rw [List.map_cons, hgshape, hfs, hgsshape]
    · rw [sizeAll, List.map_cons, List.prod_cons, ← sizeAll, ← hj, Nat.mul_add, ← hk]
      ring

theorem advanceFields_spec (hm : Fit (t.map FieldShape.kind) ms) (hf : fs.map Field.shape = t)
    (h : ShowsAll ms fs n) :
    ∃ advanced gs n', RecordMark.advanceFields ms fs = .ok (advanced, gs) ∧
      gs.map Field.shape = t ∧ ShowsAll ms gs n' ∧ (advanced = true → n' + 1 = n) ∧
      (advanced = false → n = 0 ∧ n' + 1 = sizeAll ms) := by
  induction t generalizing ms fs n with
  | nil =>
    obtain rfl : ms = [] := List.map_eq_nil_iff.1 hm.kinds_eq
    obtain rfl : fs = [] := List.map_eq_nil_iff.1 hf
    obtain rfl : n = 0 := h
    exact ⟨false, [], 0, rfl, rfl, rfl, fun h => absurd h Bool.false_ne_true, fun _ => ⟨rfl, rfl⟩⟩
  | cons shape t ih =>
    obtain ⟨m, ms, rfl, hmk, hmwf, hms⟩ := fit_cons.1 hm
    obtain ⟨f, fs, rfl, hfs, hfrest⟩ := List.map_eq_cons_iff.1 hf
    obtain ⟨k, j, hshows, hrest, rfl⟩ := h
    obtain ⟨advanced, g, k', hadvance, hgshape, hshows', hdown, hwraps⟩ := advance_spec hmwf hshows
    rw [RecordMark.advanceFields, hadvance, ok_bind]
    cases advanced with
    | true =>
      -- the first field advances and the others stay
      refine ⟨true, g :: fs, k' + m.size * j, rfl, ?_, ⟨k', j, hshows', hrest, rfl⟩, fun _ => ?_,
        fun h => by cases h⟩
      · rw [List.map_cons, hgshape, hfs, hfrest]
      · rw [← hdown rfl]
        ring
    | false =>
      -- the first field starts again and carries into the others
      obtain ⟨hk, hk'⟩ := hwraps rfl
      obtain ⟨advanced, gs, j', hadvance', hgsshape, hrest', hdown', hwraps'⟩ := ih hms hfrest hrest
      refine ⟨advanced, g :: gs, k' + m.size * j', ?_, ?_, ⟨k', j', hshows', hrest', rfl⟩,
        fun hadv => ?_, fun hadv => ?_⟩
      · show (RecordMark.advanceFields ms fs >>= _) = _
        rw [hadvance']
        rfl
      · rw [List.map_cons, hgshape, hfs, hgsshape]
      · rw [← hdown' hadv, Nat.mul_add, hk, Nat.mul_one]
        omega
      · obtain ⟨hj, hj'⟩ := hwraps' hadv
        rw [sizeAll, List.map_cons, List.prod_cons, ← sizeAll, ← hj', Nat.mul_add, hk, hj]
        exact ⟨rfl, by omega⟩

end FieldMark

/-! ## Records -/

namespace RecordMark

variable {t : Shape} {m : RecordMark} {r : Record} {n : Nat}

/-- The number of records that are enumerated. -/
def size (m : RecordMark) : Nat := FieldMark.sizeAll m.fields

/-- Whether a record is enumerated and a number of others come after it. -/
def Shows (m : RecordMark) (t : Shape) (r : Record) (n : Nat) : Prop :=
  r.shape = t ∧ FieldMark.ShowsAll m.fields r.fields n

theorem Shows.exists_has (hm : m.Fits t) (h : m.Shows t r n) :
    ∃ c : Concrete.Record, c.shape = t ∧ r.Has c := by
  obtain ⟨cs, hcs, hall⟩ := h.2.exists_has hm.fields h.1
  exact ⟨⟨cs⟩, hcs, hall⟩

theorem first_spec (hm : m.Fits t) : ∃ r n, m.first = .ok r ∧ m.Shows t r n ∧ n + 1 = m.size := by
  obtain ⟨fs, n, hfirst, hshape, hshows, hn⟩ := FieldMark.firstAll_spec hm.fields hm.template_eq
  refine ⟨⟨fs⟩, n, ?_, ⟨hshape, hshows⟩, hn⟩
  rw [first, hfirst]
  rfl

theorem advance_spec (hm : m.Fits t) (h : m.Shows t r n) :
    ∃ advanced r' n', m.advance r = .ok (advanced, r') ∧ m.Shows t r' n' ∧
      (advanced = true → n' + 1 = n) ∧ (advanced = false → n = 0) := by
  obtain ⟨advanced, fs, n', hadvance, hshape, hshows, hdown, hwraps⟩ :=
    FieldMark.advanceFields_spec hm.fields h.1 h.2
  refine ⟨advanced, ⟨fs⟩, n', ?_, ⟨hshape, hshows⟩, hdown, fun hadv => (hwraps hadv).1⟩
  rw [advance, Record.checkShape_ok (hm.template_eq.trans h.1.symm), ok_bind, hadvance]
  rfl

/-- The records from one on are enumerated until none is left. -/
theorem enumerate_spec (hm : m.Fits t) (h : m.Shows t r n) (fuel : Nat) :
    (fuel ≤ n ∧ Verifier.enumerate m fuel r = .error .exhausted) ∨
    n < fuel ∧ ∃ inputs, Verifier.enumerate m fuel r = .ok inputs ∧
      (∀ input ∈ inputs, ∃ k, m.Shows t input k) ∧ ∀ k ≤ n, ∃ input ∈ inputs, m.Shows t input k := by
  induction fuel generalizing r n with
  | zero => exact .inl ⟨Nat.zero_le _, rfl⟩
  | succ fuel ih =>
    obtain ⟨advanced, r', n', hadvance, hshows, hdown, hwraps⟩ := advance_spec hm h
    rw [Verifier.enumerate, hadvance]
    -- the enumeration ends where every digit starts again
    cases advanced with
    | false =>
      obtain rfl := hwraps rfl
      refine .inr ⟨Nat.succ_pos _, [r], rfl, fun input hin => ?_, fun k hk => ?_⟩
      · exact ⟨0, List.mem_singleton.1 hin ▸ h⟩
      · exact ⟨r, List.mem_singleton_self r, Nat.le_zero.1 hk ▸ h⟩
    | true =>
      have hn := hdown rfl
      rcases ih hshows with ⟨hle, hrest⟩ | ⟨hlt, inputs, hrest, hall, hcovers⟩
      · refine .inl ⟨by omega, ?_⟩
        show (Verifier.enumerate m fuel r' >>= _) = _
        rw [hrest]
        rfl
      · refine .inr ⟨by omega, r :: inputs, ?_, ?_, fun k hk => ?_⟩
        · show (Verifier.enumerate m fuel r' >>= _) = _
          rw [hrest]
          rfl
        · exact List.forall_mem_cons.2 ⟨⟨n, h⟩, hall⟩
        · rcases Nat.eq_or_lt_of_le hk with rfl | hlt
          · exact ⟨r, List.mem_cons_self, h⟩
          · obtain ⟨input, hin, hk⟩ := hcovers k (by omega)
            exact ⟨input, List.mem_cons_of_mem _ hin, hk⟩

/-- The records that are enumerated are of the shape of the mark, each has a record of words as a
    member, and each record of words is a member of one of them. -/
structure Enumerates (t : Shape) (inputs : List Record) : Prop where
  nonempty : inputs ≠ []
  member : ∀ input ∈ inputs, ∃ c : Concrete.Record, c.shape = t ∧ input.Has c
  covers : ∀ c : Concrete.Record, c.shape = t → ∃ input ∈ inputs, input.Has c

/-- An enumeration from the first record on either covers everything or lacks fuel. -/
theorem enumerate_first (hm : m.Fits t) (fuel : Nat) :
    ∃ r, m.first = .ok r ∧
      ((fuel < m.size ∧ Verifier.enumerate m fuel r = .error .exhausted) ∨
        ∃ inputs, Verifier.enumerate m fuel r = .ok inputs ∧ Enumerates t inputs) := by
  obtain ⟨r, n, hfirst, hshows, hn⟩ := first_spec hm
  refine ⟨r, hfirst, (enumerate_spec hm hshows fuel).imp (fun h => ⟨by omega, h.2⟩) ?_⟩
  rintro ⟨-, inputs, hinputs, hall, hcovers⟩
  refine ⟨inputs, hinputs, ?_, fun input hin => ?_, fun c hc => ?_⟩
  · obtain ⟨input, hin, -⟩ := hcovers n le_rfl
    exact List.ne_nil_of_mem hin
  · obtain ⟨k, hk⟩ := hall input hin
    exact hk.exists_has hm
  · have hlt : FieldMark.positionAll m.fields c.fields < m.size := FieldMark.positionAll_lt _ _
    obtain ⟨input, hin, hshape, hk⟩ := hcovers (FieldMark.positionAll m.fields c.fields) (by omega)
    exact ⟨input, hin, hk.has hm.fields hshape hc rfl⟩

end RecordMark

end RefineCheck
