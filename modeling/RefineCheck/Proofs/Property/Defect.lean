/-
  RefineCheck.Proofs.Property.Defect

  Why a comparison has no outcome. Whether it has one, and the error if it has none, is a matter of
  the fields that states have and not of their values: in all states of one shape the same
  comparisons fail, and with the same errors.
-/

import RefineCheck.Property.Atomic
import RefineCheck.Proofs.Result
import RefineCheck.Proofs.Shape

namespace RefineCheck

/-! ## Names -/

/-- Whether a comparison orders what it reads. -/
def Comparison.Orders : Comparison → Prop
  | .eq | .ne => False
  | .lt | .le | .gt | .ge => True

theorem Comparison.orders_complement (c : Comparison) : c.complement.Orders ↔ c.Orders := by
  cases c <;> exact Iff.rfl

/-- The panic code as a field. -/
def FieldShape.panic : FieldShape := ⟨panicField, .unsigned, .scalar panicWidth⟩

/-- The field that a name denotes in states of a shape. -/
def Shape.named (t : Shape) (name : String) : Option FieldShape :=
  if name = panicField then some .panic else t.find? (·.name == name)

/-- Whether an index is given for an array only, and is one of its indices. -/
def Kind.Reads : Kind → Option Nat → Prop
  | .scalar _, none => True
  | .array indexWidth _, some i => i ≤ Word.last indexWidth
  | .scalar _, some _ | .array _ _, none => False

theorem Record.find?_shape (r : Record) (name : String) :
    r.shape.find? (·.name == name) = (r.field? name).map Field.shape := by
  rw [shape, List.find?_map]
  rfl

/-! ## Lookups -/

/-- Why a name and an index denote no value in states of a shape. -/
inductive Shape.Undenoted (t : Shape) (name : String) : Option Nat → LookupError → Prop
  | missing {index : Option Nat} : t.named name = none →
    Undenoted t name index (.fieldNotFound name)
  | notArray {f : FieldShape} {w i : Nat} : t.named name = some f → f.kind = .scalar w →
    Undenoted t name (some i) (.indexInvalid name i)
  | outOfRange {f : FieldShape} {indexWidth elementWidth i : Nat} : t.named name = some f →
    f.kind = .array indexWidth elementWidth → Word.last indexWidth < i →
    Undenoted t name (some i) (.indexInvalid name i)
  | noIndex {f : FieldShape} {indexWidth elementWidth : Nat} : t.named name = some f →
    f.kind = .array indexWidth elementWidth → Undenoted t name none (.indexRequired name)

/-- A lookup fails with the error that the shape gives, or reads the field that the shape has. -/
theorem State.lookup_cases (s : State) (name : String) (index : Option Nat) :
    (∃ e, s.lookup name index = .error e ∧ s.result.shape.Undenoted name index e) ∨
      ∃ f v, s.lookup name index = .ok (v, f.signedness) ∧
        s.result.shape.named name = some f ∧ f.kind.Reads index := by
  have hnamed : s.result.shape.named name = if name = panicField then some .panic else
      (s.result.field? name).map Field.shape := by
    rw [Shape.named, Record.find?_shape]
  rw [lookup.eq_def]
  -- the panic code hides a field of its name
  by_cases hpanic : name = panicField
  · rw [if_pos hpanic] at hnamed ⊢
    cases index with
    | none => exact .inr ⟨_, _, rfl, hnamed, trivial⟩
    | some i => exact .inl ⟨_, rfl, .notArray hnamed rfl⟩
  · rw [if_neg hpanic] at hnamed ⊢
    cases hfield : s.result.field? name with
    | none =>
      rw [hfield] at hnamed
      exact .inl ⟨_, rfl, .missing hnamed⟩
    | some f =>
      rw [hfield, Option.map_some] at hnamed
      have hkind : f.shape.kind = f.content.kind := rfl
      simp only
      cases hcontent : f.content with
      | scalar value =>
        rw [hcontent] at hkind
        cases index with
        | none => exact .inr ⟨_, _, rfl, hnamed, hkind ▸ trivial⟩
        | some i => exact .inl ⟨_, rfl, .notArray hnamed hkind⟩
      | array scalarWidth memory =>
        rw [hcontent] at hkind
        cases index with
        | none => exact .inl ⟨_, rfl, .noIndex hnamed hkind⟩
        | some i =>
          simp only
          split
          · exact .inr ⟨_, _, rfl, hnamed, hkind ▸ ‹_›⟩
          · exact .inl ⟨_, rfl, .outOfRange hnamed hkind (Nat.lt_of_not_le ‹_›)⟩

/-- What is denoted is not undenoted. -/
theorem Shape.Undenoted.not_reads {t : Shape} {name : String} {index : Option Nat}
    {e : LookupError} (h : t.Undenoted name index e) {f : FieldShape} (hf : t.named name = some f) :
    ¬ f.kind.Reads index := by
  cases h with
  | missing hnone =>
    rw [hnone] at hf
    cases hf
  | notArray hsome hkind | noIndex hsome hkind =>
    obtain rfl := Option.some.inj (hsome.symm.trans hf)
    rw [hkind]
    exact id
  | outOfRange hsome hkind hlt =>
    obtain rfl := Option.some.inj (hsome.symm.trans hf)
    rw [hkind]
    exact Nat.not_le_of_lt hlt

/-- There is one reason at most. -/
theorem Shape.Undenoted.unique {t : Shape} {name : String} {index : Option Nat}
    {e e' : LookupError} (h : t.Undenoted name index e) (h' : t.Undenoted name index e') :
    e = e' := by
  cases h <;> cases h' <;> simp_all

/-! ## Comparisons -/

/-- Why a comparison has no outcome in states of a shape. -/
inductive Atomic.Defect (t : Shape) (a : Atomic) : LookupError → Prop
  | undenoted {e : LookupError} : t.Undenoted a.name a.index e → Defect t a e
  | unordered {f : FieldShape} : t.named a.name = some f → f.kind.Reads a.index →
    a.comparison.Orders → a.forced = .signless → f.signedness = .signless →
    Defect t a (.signednessUnknown a.name)

namespace Atomic

theorem Defect.complement {t : Shape} {a : Atomic} {e : LookupError} (h : a.Defect t e) :
    a.complement.Defect t e := by
  cases h with
  | undenoted h => exact .undenoted h
  | unordered hf hreads horders hforced hsign =>
    exact .unordered (a := a.complement) hf hreads ((Comparison.orders_complement _).2 horders)
      hforced hsign

theorem complement_complement (a : Atomic) : a.complement.complement = a := by
  rw [Atomic.complement, Atomic.complement, Comparison.complement_complement]

theorem defect_complement {t : Shape} {a : Atomic} {e : LookupError} :
    a.complement.Defect t e ↔ a.Defect t e :=
  ⟨fun h => a.complement_complement ▸ h.complement, Defect.complement⟩

/-- A comparison of a value fails only if it orders what has no signedness. -/
theorem evaluate_of_lookup {a : Atomic} {s : State} {v : Value} {declared : Signedness}
    (h : s.lookup a.name a.index = .ok (v, declared)) (e : LookupError) :
    a.evaluate s = .error e ↔ e = .signednessUnknown a.name ∧
      a.comparison.Orders ∧ a.forced = .signless ∧ declared = .signless := by
  rw [evaluate, h, ok_bind]
  cases hc : a.comparison with
  | eq | ne => simp [Comparison.Orders, pure, Except.pure]
  | lt | le | gt | ge =>
    cases hforced : a.forced <;> cases declared <;>
      simp [Comparison.Orders, throw, throwThe, MonadExceptOf.throw, pure, Except.pure, eq_comm]

/-- A comparison fails in a state exactly with the defect that it has in the shape of the state. -/
theorem evaluate_eq_error_iff {t : Shape} {a : Atomic} {s : State} (hs : s.result.shape = t)
    (e : LookupError) : a.evaluate s = .error e ↔ a.Defect t e := by
  subst hs
  rcases s.lookup_cases a.name a.index with ⟨cause, hlookup, hcause⟩ | ⟨f, v, hlookup, hf, hreads⟩
  · have herror : a.evaluate s = .error cause := by
      rw [evaluate, hlookup]
      rfl
    rw [herror, Except.error.injEq]
    constructor
    · rintro rfl
      exact .undenoted hcause
    · intro h
      cases h with
      | undenoted h => exact hcause.unique h
      | unordered hf hreads _ _ _ => exact absurd hreads (hcause.not_reads hf)
  · rw [evaluate_of_lookup hlookup]
    constructor
    · rintro ⟨rfl, horders, hforced, hsign⟩
      exact .unordered hf hreads horders hforced hsign
    · intro h
      cases h with
      | undenoted h => exact absurd hreads (h.not_reads hf)
      | unordered hf' _ horders hforced hsign =>
        obtain rfl := Option.some.inj (hf.symm.trans hf')
        exact ⟨rfl, horders, hforced, hsign⟩

end Atomic

end RefineCheck
