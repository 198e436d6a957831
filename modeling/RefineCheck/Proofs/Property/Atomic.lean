/-
  RefineCheck.Proofs.Property.Atomic

  The value of a comparison in a state whose values have members. The outcome of a comparison
  agrees with that of every member, and a comparison and its complement have complementary
  outcomes.
-/

import Mathlib
import RefineCheck.Proofs.Reduced.Reduction
import RefineCheck.Property.Atomic

namespace RefineCheck

/-! ## Bounds -/

namespace Reduced

variable {w : Nat} {a : Reduced w} {x : BitVec w}

theorem umin_le (h : x ∈ a) : a.umin ≤ x := by
  rw [umin]
  split
  · exact SplitRange.umin_le h.2
  · exact Ternary.umin_le h.1

theorem le_umax (h : x ∈ a) : x ≤ a.umax := by
  rw [umax]
  split
  · exact Ternary.le_umax h.1
  · exact SplitRange.le_umax h.2

theorem smin_sle (h : x ∈ a) : a.smin.sle x = true := by
  rw [smin]
  split
  · exact SplitRange.smin_sle h.2
  · exact Ternary.smin_sle h.1

theorem sle_smax (h : x ∈ a) : x.sle a.smax = true := by
  rw [smax]
  split
  · exact Ternary.sle_smax h.1
  · exact SplitRange.sle_smax h.2

theorem has_iff : a.has x = true ↔ x ∈ a := by
  rw [has, Bool.and_eq_true, decide_eq_true_eq, SplitRange.has_iff]
  rfl

end Reduced

/-! ## Values with members -/

/-- Whether a value stands for some word. -/
def Value.Nonempty (v : Value) : Prop := ∃ x, x ∈ v.val

/-- Whether every value that a field holds stands for some word. -/
def Content.Nonempty : Content → Prop
  | .scalar value => value.Nonempty
  | .array _ memory => ∀ i ≤ Word.last memory.indexWidth, (memory.elements.item i).Nonempty

/-- Every field stands for something. -/
def Record.Nonempty (r : Record) : Prop := ∀ f ∈ r.fields, f.content.Nonempty

/-- The state stands for something. -/
def State.Nonempty (s : State) : Prop := s.panic.Nonempty ∧ s.result.Nonempty

/-- A name denotes the panic code, the value of a field, or the element of an array at an index. -/
theorem State.value_of_lookup {s : State} {name : String} {index : Option Nat} {value : Value}
    {signedness : Signedness} (h : s.lookup name index = .ok (value, signedness)) :
    value = s.panic ∨ ∃ f ∈ s.result.fields, f.content = .scalar value ∨
      ∃ width memory i, f.content = .array width memory ∧ i ≤ Word.last memory.indexWidth ∧
        value = memory.elements.item i := by
  rw [lookup.eq_def] at h
  split at h
  · split at h
    · cases h
    · obtain ⟨rfl, -⟩ := Prod.mk.inj (Except.ok.inj h)
      exact .inl rfl
  · split at h
    · cases h
    · rename_i f hf
      refine .inr ⟨f, List.mem_of_find?_eq_some hf, ?_⟩
      split at h
      · cases h
      · rename_i hc
        obtain ⟨rfl, -⟩ := Prod.mk.inj (Except.ok.inj h)
        exact .inl hc
      · cases h
      · rename_i width memory i hc
        split at h
        · rename_i hi
          obtain ⟨rfl, -⟩ := Prod.mk.inj (Except.ok.inj h)
          exact .inr ⟨width, memory, i, hc, hi, rfl⟩
        · cases h

theorem State.nonempty_of_lookup {s : State} (hs : s.Nonempty) {name : String} {index : Option Nat}
    {value : Value} {signedness : Signedness} (h : s.lookup name index = .ok (value, signedness)) :
    value.Nonempty := by
  rcases value_of_lookup h with rfl | ⟨f, hf, hc⟩
  · exact hs.1
  · have hcontent := hs.2 f hf
    rcases hc with hc | ⟨width, memory, i, hc, hi, rfl⟩
    · rwa [hc] at hcontent
    · rw [hc] at hcontent
      exact hcontent i hi

namespace Atomic

/-! ## Complementary comparisons -/

theorem order_complement (comparison : Comparison) {lowest highest : Int} (constant : Int)
    (h : lowest ≤ highest) (ho : comparison ≠ .eq ∧ comparison ≠ .ne) :
    order comparison.complement lowest highest constant =
      (order comparison lowest highest constant).not := by
  cases comparison with
  | eq => exact absurd rfl ho.1
  | ne => exact absurd rfl ho.2
  | lt | le | gt | ge =>
    simp only [order, Comparison.complement]
    grind [Kleene.not]

theorem lower_le_upper {v : Value} (h : v.Nonempty) : (v.lower : Int) ≤ v.upper := by
  obtain ⟨x, hx⟩ := h
  have h₁ : v.val.umin.toNat ≤ x.toNat := Reduced.umin_le hx
  have h₂ : x.toNat ≤ v.val.umax.toNat := Reduced.le_umax hx
  rw [Value.lower, Value.upper]
  omega

theorem smin_le_smax {v : Value} (h : v.Nonempty) : v.val.smin.toInt ≤ v.val.smax.toInt := by
  obtain ⟨x, hx⟩ := h
  have h₁ := BitVec.sle_iff_toInt_le.1 (Reduced.smin_sle hx)
  have h₂ := BitVec.sle_iff_toInt_le.1 (Reduced.sle_smax hx)
  exact le_trans h₁ h₂

/-- How an ordering comparison reads a field of a declared signedness. -/
def reading (a : Atomic) (declared : Signedness) : Signedness :=
  if a.forced = .signless then declared else a.forced

/-- The outcome of a comparison on a value that was found. -/
def outcome (a : Atomic) (reading : Signedness) (value : Value) : Except LookupError Kleene :=
  match a.comparison with
  | .eq => .ok (equals a.constant value)
  | .ne => .ok (equals a.constant value).not
  | comparison =>
    match reading with
    | .unsigned => .ok (order comparison value.lower value.upper a.constant)
    | .signed => .ok (order comparison value.val.smin.toInt value.val.smax.toInt a.constant)
    | .signless => .error (.signednessUnknown a.name)

theorem evaluate_eq (a : Atomic) (s : State) :
    a.evaluate s =
      s.lookup a.name a.index >>= fun found => a.outcome (a.reading found.2) found.1 := by
  rw [evaluate]
  rcases s.lookup a.name a.index with e | ⟨value, declared⟩
  · rfl
  · simp only [bind, Except.bind, outcome, reading]
    cases a.comparison <;> rfl

theorem outcome_complement {value : Value} (h : value.Nonempty) (a : Atomic)
    (reading : Signedness) :
    a.complement.outcome reading value = (a.outcome reading value).map Kleene.not := by
  have hu := order_complement a.comparison a.constant (lower_le_upper h)
  have hs := order_complement a.comparison a.constant (smin_le_smax h)
  rw [outcome, outcome, complement]
  cases hc : a.comparison with
  | eq => rfl
  | ne =>
    show Except.ok (equals a.constant value) = .ok ((equals a.constant value).not.not)
    cases equals a.constant value <;> rfl
  | lt | le | gt | ge =>
    rw [hc] at hu hs
    cases reading with
    | unsigned => exact congrArg Except.ok (hu (by decide))
    | signed => exact congrArg Except.ok (hs (by decide))
    | signless => rfl

/-- A comparison and its complement have complementary values, or fail alike. -/
theorem evaluate_complement {s : State} (hs : s.Nonempty) (a : Atomic) :
    a.complement.evaluate s = (a.evaluate s).map Kleene.not := by
  rw [evaluate_eq, evaluate_eq]
  show (s.lookup a.name a.index >>= _) = _
  cases hl : s.lookup a.name a.index with
  | error e => rfl
  | ok found => exact outcome_complement (State.nonempty_of_lookup hs hl) a _

end Atomic

end RefineCheck
