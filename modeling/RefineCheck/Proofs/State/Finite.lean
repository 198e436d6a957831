/-
  RefineCheck.Proofs.State.Finite

  There are finitely many states of a shape, if arrays are not told apart by the width of the single
  values that their fields may be set to. This width is neither part of the text of a state nor
  looked at by containment.
-/

import Mathlib
import RefineCheck.Proofs.Shape

namespace RefineCheck

/-! ## Values -/

instance (w : Nat) (sign : Bool) : Finite (Half w sign) :=
  .of_injective (fun i => (i.lo, i.hi)) fun i j h => by
    cases i
    cases j
    simpa using h

instance (w : Nat) : Finite (SplitRange w) :=
  .of_injective (fun d => (d.near, d.far)) fun d e h => by
    cases d
    cases e
    simpa using h

instance (w : Nat) : Finite (Ternary w) :=
  .of_injective (fun a => (a.zeros, a.ones)) fun a b h => by
    cases a
    cases b
    simpa using h

instance (w : Nat) : Finite (Reduced w) :=
  .of_injective (fun a => (a.bits, a.ranges)) fun a b h => by
    cases a
    cases b
    simpa using h

theorem Value.finite (w : Nat) : {v : Value | v.width = w}.Finite := by
  refine (Set.finite_range (Sized.mk (F := Reduced) w)).subset ?_
  rintro ⟨_, a⟩ rfl
  exact ⟨a, rfl⟩

/-! ## Arrays -/

theorem finite_lists {α : Type} {S : Set α} (hS : S.Finite) (n : Nat) :
    {l : List α | l.length ≤ n ∧ ∀ x ∈ l, x ∈ S}.Finite := by
  have := hS.to_subtype
  refine ((List.finite_length_le S n).image (List.map Subtype.val)).subset ?_
  rintro l ⟨hn, hl⟩
  exact ⟨l.attachWith (· ∈ S) hl, by simpa using hn, List.attachWith_map_subtype_val hl⟩

namespace Runs

variable {α : Type} {l : Runs α}

/-- The ends of runs are different indices. -/
theorem Ordered.length_le (hl : l.Ordered) : l.runs.length ≤ l.last := by
  have hsub : l.runs.map Run.last ⊆ List.range l.last :=
    fun e he => List.mem_range.2 (hl.bounded e he)
  have hnodup : (l.runs.map Run.last).Nodup := hl.increasing.imp ne_of_lt
  have hle := (hnodup.subperm hsub).length_le
  rwa [List.length_map, List.length_range] at hle

theorem finite {S : Set α} (hS : S.Finite) (last : Nat) :
    {l : Runs α | l.Ordered ∧ l.last = last ∧ ∀ i ≤ last, l.item i ∈ S}.Finite := by
  have hruns : {r : Run α | r.last < last ∧ r.value ∈ S}.Finite := by
    refine (((Set.finite_Iio last).prod hS).image fun x => ⟨x.1, x.2⟩).subset ?_
    rintro r hr
    exact ⟨(r.last, r.value), hr, rfl⟩
  refine (((finite_lists hruns last).prod hS).image fun x => ⟨x.1, x.2, last⟩).subset ?_
  rintro l ⟨hl, rfl, hitem⟩
  have hlt (r : Run α) (hr : r ∈ l.runs) : r.last < l.last :=
    hl.bounded _ (List.mem_map_of_mem hr)
  refine ⟨(l.runs, l.final), ⟨⟨hl.length_le, fun r hr => ⟨hlt r hr, ?_⟩⟩, ?_⟩, rfl⟩
  · obtain ⟨hle, hvalue⟩ := hl.run_value hr
    exact hvalue ▸ hitem r.last hle
  · exact hl.final_value ▸ hitem l.last le_rfl

end Runs

theorem Memory.finite (indexWidth elementWidth : Nat) :
    {a : Memory | a.WellFormed ∧ a.indexWidth = indexWidth ∧ a.elementWidth = elementWidth}.Finite := by
  refine ((Runs.finite (Value.finite elementWidth) (Word.last indexWidth)).image
    fun l => ⟨indexWidth, elementWidth, l⟩).subset ?_
  rintro a ⟨ha, rfl, rfl⟩
  exact ⟨a.elements, ⟨ha.ordered, ha.last_eq, fun i hi => ha.item_width (ha.last_eq ▸ hi)⟩, rfl⟩

/-! ## States -/

/-- The content without the width of single values that an array has. -/
def Content.plain : Content → Content
  | .scalar value => .scalar value
  | .array _ memory => .array 0 memory

/-- The field without the width of single values that an array has. -/
def Field.plain (f : Field) : Field := { f with content := f.content.plain }

/-- The record of plain fields. -/
def Record.plain (r : Record) : Record := ⟨r.fields.map Field.plain⟩

/-- The state of a plain record. -/
def State.plain (s : State) : State := { s with result := s.result.plain }

theorem Content.finite_plain (k : Kind) :
    (plain '' {c | c.WellFormed ∧ c.kind = k}).Finite := by
  cases k with
  | scalar w =>
    refine ((Value.finite w).image scalar).subset ?_
    rintro _ ⟨c, ⟨-, hkind⟩, rfl⟩
    cases c with
    | scalar value => exact ⟨value, Kind.scalar.inj hkind, rfl⟩
    | array _ _ => cases hkind
  | array indexWidth elementWidth =>
    refine ((Memory.finite indexWidth elementWidth).image (array 0)).subset ?_
    rintro _ ⟨c, ⟨hwf, hkind⟩, rfl⟩
    cases c with
    | scalar _ => cases hkind
    | array _ memory => exact ⟨memory, ⟨hwf, Kind.array.inj hkind⟩, rfl⟩

theorem Record.finite_fields (t : Shape) :
    (List.map Field.plain '' {fs | fs.map Field.shape = t ∧
      ∀ f ∈ fs, f.content.WellFormed}).Finite := by
  induction t with
  | nil =>
    refine (Set.finite_singleton []).subset ?_
    rintro _ ⟨fs, ⟨hshape, -⟩, rfl⟩
    rw [List.map_eq_nil_iff.1 hshape]
    rfl
  | cons shape t ih =>
    refine Set.Finite.subset (Set.Finite.image2
      (fun c fs => (⟨shape.name, shape.signedness, c⟩ : Field) :: fs)
      (Content.finite_plain shape.kind) ih) ?_
    rintro _ ⟨fs, ⟨hshape, hwf⟩, rfl⟩
    cases fs with
    | nil => cases hshape
    | cons f fs =>
      rw [List.map_cons, List.cons.injEq] at hshape
      obtain ⟨rfl, hshape⟩ := hshape
      rw [List.forall_mem_cons] at hwf
      exact ⟨f.content.plain, ⟨_, ⟨hwf.1, rfl⟩, rfl⟩, _, ⟨fs, ⟨hshape, hwf.2⟩, rfl⟩, rfl⟩

theorem State.finite_plain (t : Shape) : (plain '' {s | s.Fits t}).Finite := by
  refine Set.Finite.subset (Set.Finite.image2 (fun v fs => State.mk v ⟨fs⟩)
    (Value.finite panicWidth) (Record.finite_fields t)) ?_
  rintro _ ⟨s, hs, rfl⟩
  exact ⟨s.panic, hs.panic_width, _, ⟨s.result.fields, ⟨hs.shape_eq, hs.wellFormed⟩, rfl⟩, rfl⟩

/-! ## What is left without the width -/

theorem Field.text_plain (f : Field) : f.plain.text = f.text := by
  obtain ⟨name, signedness, content⟩ := f
  cases content <;> rfl

theorem State.key_plain (s : State) : s.plain.key = s.key := by
  have hfields : (s.result.fields.map Field.plain).map Field.text = s.result.fields.map Field.text := by
    rw [List.map_map]
    exact List.map_congr_left fun f _ => f.text_plain
  rw [key, text, Record.text, plain, Record.plain, hfields]
  rfl

theorem Record.mismatch?_plain (fs gs : List Field) :
    mismatch? fs (gs.map Field.plain) = mismatch? fs gs := by
  induction fs generalizing gs with
  | nil => cases gs <;> rfl
  | cons f fs ih =>
    cases gs with
    | nil => rfl
    | cons g gs =>
      have harray : g.plain.isArray = g.isArray := by
        obtain ⟨name, signedness, content⟩ := g
        cases content <;> rfl
      rw [List.map_cons, mismatch?, mismatch?, harray, ih]
      rfl

theorem Record.containsFields_plain (fs gs : List Field) :
    containsFields fs (gs.map Field.plain) = containsFields fs gs := by
  induction fs generalizing gs with
  | nil => cases gs <;> rfl
  | cons f fs ih =>
    cases gs with
    | nil => rfl
    | cons g gs =>
      obtain ⟨name, signedness, content⟩ := g
      rw [List.map_cons, containsFields, containsFields, ih]
      cases f.content <;> cases content <;> rfl

theorem State.contains_plain (s s' : State) : s.contains s'.plain = s.contains s' := by
  have hresult : s.result.contains s'.result.plain = s.result.contains s'.result := by
    rw [Record.contains, Record.contains, Record.checkShape, Record.checkShape, Record.plain,
      List.length_map, Record.mismatch?_plain, Record.containsFields_plain]
  rw [contains, contains, plain, hresult]

end RefineCheck
