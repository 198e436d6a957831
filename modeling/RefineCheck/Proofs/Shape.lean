/-
  RefineCheck.Proofs.Shape

  The shapes of records and of marks: what is left of them without their values. Arrays are well
  formed if they have an element of one width for each index. Operations on well-formed records and
  marks of one shape do not fail.
-/

import Mathlib
import RefineCheck.Proofs.Concrete
import RefineCheck.Proofs.Runs.Total

namespace RefineCheck

/-! ## Shapes -/

/-- What a field holds, without the values. -/
inductive Kind
  | scalar (width : Nat)
  | array (indexWidth elementWidth : Nat)
deriving DecidableEq

/-- What all values of a field share. -/
structure FieldShape where
  name : String
  signedness : Signedness
  kind : Kind
deriving DecidableEq

/-- The fields of a record, without the values. -/
abbrev Shape := List FieldShape

/-- The kind of the content. -/
def Content.kind : Content → Kind
  | .scalar value => .scalar value.width
  | .array _ memory => .array memory.indexWidth memory.elementWidth

/-- The shape of the field. -/
def Field.shape (f : Field) : FieldShape := ⟨f.name, f.signedness, f.content.kind⟩

/-- The shape of the record. -/
def Record.shape (r : Record) : Shape := r.fields.map Field.shape

namespace Concrete

/-- The kind of the datum. -/
def Datum.kind : Datum → Kind
  | .word x => .scalar x.width
  | .array indexWidth elementWidth _ => .array indexWidth elementWidth

/-- The shape of the field. -/
def Field.shape (f : Field) : FieldShape := ⟨f.name, f.signedness, f.datum.kind⟩

/-- The shape of the record. -/
def Record.shape (r : Record) : Shape := r.fields.map Field.shape

end Concrete

/-- The kind of the fields that the mark is for. -/
def FieldMark.kind : FieldMark → Kind
  | .scalar m => .scalar m.width
  | .array m => .array m.indexWidth m.elementWidth

/-! ## Well-formed arrays -/

/-- An element of the element width for each index. -/
structure Memory.WellFormed (a : Memory) : Prop where
  width_le : a.elementWidth ≤ Word.maxWidth
  ordered : a.elements.Ordered
  last_eq : a.elements.last = Word.last a.indexWidth
  item_width {i : Nat} : i ≤ a.elements.last → (a.elements.item i).width = a.elementWidth

/-- Content whose widths the program allows. -/
def Content.WellFormed : Content → Prop
  | .scalar value => value.width ≤ Word.maxWidth
  | .array _ memory => memory.WellFormed

/-- Every field is well-formed. -/
def Record.WellFormed (r : Record) : Prop := ∀ f ∈ r.fields, f.content.WellFormed

/-- A well-formed state whose record has a shape. -/
structure State.Fits (t : Shape) (s : State) : Prop where
  panic_width : s.panic.width = panicWidth
  shape_eq : s.result.shape = t
  wellFormed : s.result.WellFormed

/-- A mark of the element width for each index. -/
structure MemoryMark.WellFormed (m : MemoryMark) : Prop where
  width_le : m.elementWidth ≤ Word.maxWidth
  ordered : m.marks.Ordered
  last_eq : m.marks.last = Word.last m.indexWidth
  item_width {i : Nat} : i ≤ m.marks.last → (m.marks.item i).width = m.elementWidth

/-- A mark whose widths the program allows. -/
def FieldMark.WellFormed : FieldMark → Prop
  | .scalar m => m.width ≤ Word.maxWidth
  | .array m => m.WellFormed

/-- Marks of some kinds. -/
structure FieldMark.Fit (kinds : List Kind) (fields : List FieldMark) : Prop where
  kinds_eq : fields.map FieldMark.kind = kinds
  wellFormed : ∀ m ∈ fields, m.WellFormed

/-- A mark of the records of a shape. -/
structure RecordMark.Fits (t : Shape) (m : RecordMark) : Prop where
  template_eq : m.template.shape = t
  fields : FieldMark.Fit (t.map FieldShape.kind) m.fields

/-- A mark of the states of a shape. -/
structure StateMark.Fits (t : Shape) (m : StateMark) : Prop where
  panic_width : m.panic.width = panicWidth
  result : m.result.Fits t

/-! ## Members -/

theorem Content.Has.kind_eq {c : Content} {d : Concrete.Datum} (h : c.Has d) : c.kind = d.kind := by
  cases c with
  | scalar value =>
    cases d with
    | word x =>
      obtain ⟨-, y, -, rfl⟩ := h
      rfl
    | array _ _ _ => exact h.elim
  | array _ memory =>
    cases d with
    | word x => exact h.elim
    | array _ _ _ =>
      obtain ⟨rfl, rfl, -⟩ := h
      rfl

theorem Content.Has.wellFormed {c : Content} {d : Concrete.Datum} (h : c.Has d) :
    c.WellFormed := by
  cases c with
  | scalar value =>
    cases d with
    | word x => exact h.1
    | array _ _ _ => exact h.elim
  | array _ memory =>
    cases d with
    | word x => exact h.elim
    | array _ _ element =>
      obtain ⟨rfl, rfl, hord, hlast, hitems⟩ := h
      have hwidth {i : Nat} (hi : i ≤ Word.last memory.indexWidth) :
          (memory.elements.item i).width ≤ Word.maxWidth ∧
            (memory.elements.item i).width = memory.elementWidth := by
        obtain ⟨hle, y, -, hy⟩ := hitems ⟨i, Nat.lt_succ_of_le hi⟩
        exact ⟨hle, (congrArg Sized.width hy).symm⟩
      have hzero := hwidth (Nat.zero_le _)
      exact ⟨hzero.2 ▸ hzero.1, hord, hlast, fun hi => (hwidth (hlast ▸ hi)).2⟩

theorem Field.Has.shape_eq {f : Field} {c : Concrete.Field} (h : f.Has c) : f.shape = c.shape := by
  obtain ⟨hname, hsign, hcontent⟩ := h
  rw [shape, Concrete.Field.shape, hname, hsign, hcontent.kind_eq]

theorem Record.Has.shape_eq {r : Record} {c : Concrete.Record} (h : r.Has c) :
    r.shape = c.shape :=
  List.forall₂_eq_eq_eq ▸ List.forall₂_map_left_iff.2
    (List.forall₂_map_right_iff.2 (h.imp fun _ _ h => h.shape_eq))

theorem Record.Has.wellFormed {r : Record} {c : Concrete.Record} (h : r.Has c) : r.WellFormed := by
  obtain ⟨fields⟩ := r
  obtain ⟨cells⟩ := c
  intro f hf
  simp only [Record.Has] at h
  induction h with
  | nil => cases hf
  | cons hfield _ ih =>
    rcases List.mem_cons.1 hf with rfl | hf
    · exact hfield.2.2.wellFormed
    · exact ih hf

theorem State.Has.fits {s : State} {c : Concrete.State} (h : s.Has c) : s.Fits c.result.shape := by
  refine ⟨?_, h.2.shape_eq, h.2.wellFormed⟩
  obtain ⟨-, y, -, hy⟩ := h.1
  exact (congrArg Sized.width hy).symm

/-! ## Containment -/

theorem Value.contains_ok {v w : Value} (h : w.width = v.width) : ∃ b, v.contains w = .ok b :=
  ⟨_, dif_pos h⟩

theorem Value.width_of_contains {v w : Value} (h : v.contains w = .ok true) : w.width = v.width := by
  rw [Sized.contains, Sized.zipWith] at h
  split at h
  · assumption
  · cases h

/-- Containment of values of one width is that of their sets. -/
theorem Value.contains_iff {w : Nat} {a b : Reduced w} :
    Sized.contains (⟨w, a⟩ : Value) ⟨w, b⟩ = .ok true ↔ a.contains b = true := by
  rw [Sized.contains, Sized.zipWith, dif_pos rfl, Except.ok.injEq]
  rfl

theorem Memory.contains_ok {a b : Memory} (ha : a.WellFormed) (hb : b.WellFormed)
    (hindex : b.indexWidth = a.indexWidth) (helement : b.elementWidth = a.elementWidth) :
    ∃ c, a.contains b = .ok c := by
  have hlast : a.elements.last = b.elements.last := by rw [ha.last_eq, hb.last_eq, hindex]
  obtain ⟨c, hc, -⟩ := Runs.allM_ok (p := Sized.contains) ha.ordered hb.ordered hlast fun i hi => by
    refine Value.contains_ok ?_
    rw [hb.item_width (hlast ▸ hi), ha.item_width hi, helement]
  exact ⟨c, hc⟩

/-- Fields of one shape have the same name and are of the same kind. -/
theorem Record.mismatch?_eq_none {fs gs : List Field}
    (h : fs.map Field.shape = gs.map Field.shape) : mismatch? fs gs = none := by
  induction fs generalizing gs with
  | nil => cases gs <;> simp_all [mismatch?]
  | cons f fs ih =>
    cases gs with
    | nil => simp at h
    | cons g gs =>
      rw [List.map_cons, List.map_cons, List.cons.injEq] at h
      have hname : f.name = g.name := congrArg FieldShape.name h.1
      have hkind : f.content.kind = g.content.kind := congrArg FieldShape.kind h.1
      have harray : f.isArray = g.isArray := by
        rw [Field.isArray, Field.isArray]
        revert hkind
        cases f.content <;> cases g.content <;> simp [Content.kind]
      rw [mismatch?, hname, harray, bne_self_eq_false, bne_self_eq_false, Bool.or_self,
        if_neg Bool.false_ne_true]
      exact ih h.2

theorem Record.checkShape_ok {r s : Record} (h : r.shape = s.shape) : r.checkShape s = .ok () := by
  have hlength : r.fields.length = s.fields.length := by
    simpa [shape] using congrArg List.length h
  rw [checkShape, if_pos hlength, mismatch?_eq_none h]

theorem Record.containsFields_ok {fs gs : List Field}
    (h : fs.map Field.shape = gs.map Field.shape) (hf : ∀ f ∈ fs, f.content.WellFormed)
    (hg : ∀ g ∈ gs, g.content.WellFormed) : ∃ b, containsFields fs gs = .ok b := by
  induction fs generalizing gs with
  | nil => exact ⟨true, by cases gs <;> rfl⟩
  | cons f fs ih =>
    cases gs with
    | nil => exact ⟨true, rfl⟩
    | cons g gs =>
      rw [List.map_cons, List.map_cons, List.cons.injEq] at h
      rw [List.forall_mem_cons] at hf hg
      -- whether the first fields are inside or not, the others do not fail
      have hrest (inside : Bool) :
          ∃ b, (if inside then containsFields fs gs else return false) = Except.ok b := by
        split
        · exact ih h.2 hf.2 hg.2
        · exact ⟨false, rfl⟩
      have hkind : f.content.kind = g.content.kind := congrArg FieldShape.kind h.1
      have hwf := hf.1
      have hwg := hg.1
      rw [containsFields, Field.bits, Field.bits]
      -- the shapes say that both contents are of one kind
      cases hcf : f.content with
      | scalar v =>
        cases hcg : g.content with
        | scalar w =>
          rw [hcf, hcg] at hkind
          injection hkind with hwidth
          obtain ⟨b, hb⟩ := Value.contains_ok hwidth.symm
          simp only [ok_bind, hb]
          exact hrest b
        | array _ _ =>
          rw [hcf, hcg] at hkind
          cases hkind
      | array _ a =>
        cases hcg : g.content with
        | scalar w =>
          rw [hcf, hcg] at hkind
          cases hkind
        | array _ b =>
          rw [hcf, hcg] at hkind
          rw [hcf] at hwf
          rw [hcg] at hwg
          injection hkind with hindex helement
          obtain ⟨c, hc⟩ := Memory.contains_ok hwf hwg hindex.symm helement.symm
          simp only [ok_bind, hc]
          exact hrest c

theorem State.contains_ok {t : Shape} {s s' : State} (hs : s.Fits t) (hs' : s'.Fits t) :
    ∃ b, s.contains s' = .ok b := by
  obtain ⟨b, hb⟩ := Value.contains_ok (hs'.panic_width.trans hs.panic_width.symm)
  have hshape := hs.shape_eq.trans hs'.shape_eq.symm
  rw [State.contains, hb, ok_bind]
  cases b with
  | false => exact ⟨false, rfl⟩
  | true =>
    rw [if_pos rfl, Record.contains, Record.checkShape_ok hshape]
    exact Record.containsFields_ok hshape hs.wellFormed hs'.wellFormed

theorem Reduced.contains_self {w : Nat} (a : Reduced w) : a.contains a = true := by
  have hbits : a.bits.contains a.bits = true := by simp [Ternary.contains]
  have hhalf {sign : Bool} (i : Half w sign) : i.contains i = true := by simp [Half.contains]
  have hranges : a.ranges.contains a.ranges = true := by
    rw [SplitRange.contains]
    cases a.ranges.near <;> cases a.ranges.far <;> simp [hhalf]
  rw [contains, hbits, hranges]
  rfl

theorem Value.contains_self (v : Value) : v.contains v = .ok true :=
  (dif_pos rfl).trans (congrArg Except.ok v.val.contains_self)

theorem Memory.contains_self {a : Memory} (ha : a.WellFormed) : a.contains a = .ok true := by
  obtain ⟨b, hb, hall⟩ := Runs.allM_ok (p := Sized.contains) ha.ordered ha.ordered rfl
    fun i _ => ⟨true, Value.contains_self (a.elements.item i)⟩
  rw [contains, hb, hall.2 fun i _ => Value.contains_self (a.elements.item i)]

theorem Record.containsFields_self {fs : List Field} (hf : ∀ f ∈ fs, f.content.WellFormed) :
    containsFields fs fs = .ok true := by
  induction fs with
  | nil => rfl
  | cons f fs ih =>
    rw [List.forall_mem_cons] at hf
    have hwf := hf.1
    rw [containsFields, Field.bits]
    cases hc : f.content with
    | scalar v =>
      simp only [ok_bind, Value.contains_self, if_true]
      exact ih hf.2
    | array _ a =>
      rw [hc] at hwf
      simp only [ok_bind, Memory.contains_self hwf, if_true]
      exact ih hf.2

/-- A state contains itself. -/
theorem State.contains_self {t : Shape} {s : State} (hs : s.Fits t) : s.contains s = .ok true := by
  rw [State.contains, Value.contains_self, ok_bind, if_pos rfl, Record.contains,
    Record.checkShape_ok rfl]
  exact Record.containsFields_self hs.wellFormed

end RefineCheck
