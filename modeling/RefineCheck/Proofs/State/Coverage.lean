/-
  RefineCheck.Proofs.State.Coverage

  Containment of states is transitive: a state that contains another one contains what that one
  contains, field by field and element by element. Equal states contain the same ones.
-/

import Mathlib
import RefineCheck.Proofs.Reduced.Order
import RefineCheck.Proofs.Shape
import RefineCheck.Proofs.State.Key

namespace RefineCheck

theorem Value.contains_trans {a b c : Value} (hab : a.contains b = .ok true)
    (hbc : b.contains c = .ok true) : a.contains c = .ok true := by
  obtain ⟨w, a⟩ := a
  obtain ⟨u, b⟩ := b
  obtain ⟨v, c⟩ := c
  obtain rfl : u = w := width_of_contains hab
  obtain rfl : v = u := width_of_contains hbc
  exact contains_iff.2 (Reduced.contains_trans (contains_iff.1 hab) (contains_iff.1 hbc))

/-- Arrays of one size are compared element by element. -/
theorem Memory.contains_iff {a b : Memory} (ha : a.WellFormed) (hb : b.WellFormed)
    (hindex : b.indexWidth = a.indexWidth) (helement : b.elementWidth = a.elementWidth) :
    a.contains b = .ok true ↔
      ∀ i ≤ Word.last a.indexWidth, (a.elements.item i).contains (b.elements.item i) = .ok true := by
  have hlast : a.elements.last = b.elements.last := by rw [ha.last_eq, hb.last_eq, hindex]
  obtain ⟨c, hc, hall⟩ := Runs.allM_ok (p := Sized.contains) ha.ordered hb.ordered hlast
    fun i hi => by
      refine Value.contains_ok ?_
      rw [hb.item_width (hlast ▸ hi), ha.item_width hi, helement]
  rw [contains, hc, Except.ok.injEq, hall, ha.last_eq]

/-! ## Fields -/

/-- Whether the content of a field contains another one of its kind. -/
def Content.Covers : Content → Content → Prop
  | .scalar v, .scalar w => v.contains w = .ok true
  | .array _ a, .array _ b => a.contains b = .ok true
  | _, _ => False

theorem Content.Covers.trans {a b c : Content} (ha : a.WellFormed) (hb : b.WellFormed)
    (hc : c.WellFormed) (hba : b.kind = a.kind) (hcb : c.kind = b.kind) (hab : a.Covers b)
    (hbc : b.Covers c) : a.Covers c := by
  cases a with
  | scalar a =>
    cases b with
    | array _ _ => exact hab.elim
    | scalar b =>
      cases c with
      | array _ _ => exact hbc.elim
      | scalar c => exact Value.contains_trans hab hbc
  | array _ a =>
    cases b with
    | scalar _ => exact hab.elim
    | array _ b =>
      cases c with
      | scalar _ => exact hbc.elim
      | array _ c =>
        -- runs may end at other indices in each array, so the elements are compared one by one
        obtain ⟨hbindex, hbelement⟩ := Kind.array.inj hba
        obtain ⟨hcindex, hcelement⟩ := Kind.array.inj hcb
        have hab := (Memory.contains_iff ha hb hbindex hbelement).1 hab
        have hbc := (Memory.contains_iff hb hc hcindex hcelement).1 hbc
        refine (Memory.contains_iff ha hc (hcindex.trans hbindex)
          (hcelement.trans hbelement)).2 fun i hi => ?_
        exact Value.contains_trans (hab i hi) (hbc i (hbindex.symm ▸ hi))

namespace Record

theorem containsFields_cons {f g : Field} {fs gs : List Field} :
    containsFields (f :: fs) (g :: gs) = .ok true ↔
      f.content.Covers g.content ∧ containsFields fs gs = .ok true := by
  -- the other fields are looked at only if this one is contained
  have hboth {inside : Except Fault Bool} :
      (inside >>= fun b => if b then containsFields fs gs else pure false) = .ok true ↔
        inside = .ok true ∧ containsFields fs gs = .ok true := by
    rw [bind_eq_ok]
    refine ⟨?_, fun h => ⟨true, h⟩⟩
    rintro ⟨b, hb, h⟩
    cases b with
    | false => cases h
    | true => exact ⟨hb, h⟩
  rw [containsFields, Field.bits, Field.bits]
  cases f.content with
  | scalar v =>
    cases g.content with
    | scalar w => exact hboth
    | array _ _ => exact ⟨fun h => (by cases h), fun h => h.1.elim⟩
  | array _ a =>
    cases g.content with
    | scalar w => exact ⟨fun h => (by cases h), fun h => h.1.elim⟩
    | array _ b => exact hboth

theorem containsFields_trans {t : Shape} {fs gs hs : List Field} (hf : fs.map Field.shape = t)
    (hg : gs.map Field.shape = t) (hh : hs.map Field.shape = t)
    (hfwf : ∀ f ∈ fs, f.content.WellFormed) (hgwf : ∀ g ∈ gs, g.content.WellFormed)
    (hhwf : ∀ h ∈ hs, h.content.WellFormed) (hfg : containsFields fs gs = .ok true)
    (hgh : containsFields gs hs = .ok true) : containsFields fs hs = .ok true := by
  induction t generalizing fs gs hs with
  | nil =>
    obtain rfl : fs = [] := List.map_eq_nil_iff.1 hf
    cases hs <;> rfl
  | cons shape t ih =>
    obtain ⟨f, fs, rfl, hfshape, hf⟩ := List.map_eq_cons_iff.1 hf
    obtain ⟨g, gs, rfl, hgshape, hg⟩ := List.map_eq_cons_iff.1 hg
    obtain ⟨h, hs, rfl, hhshape, hh⟩ := List.map_eq_cons_iff.1 hh
    rw [List.forall_mem_cons] at hfwf hgwf hhwf
    obtain ⟨hfg, hfgs⟩ := containsFields_cons.1 hfg
    obtain ⟨hgh, hghs⟩ := containsFields_cons.1 hgh
    have hgkind : g.content.kind = f.content.kind :=
      congrArg FieldShape.kind (hgshape.trans hfshape.symm)
    have hhkind : h.content.kind = g.content.kind :=
      congrArg FieldShape.kind (hhshape.trans hgshape.symm)
    exact containsFields_cons.2 ⟨hfg.trans hfwf.1 hgwf.1 hhwf.1 hgkind hhkind hgh,
      ih hf hg hh hfwf.2 hgwf.2 hhwf.2 hfgs hghs⟩

end Record

/-! ## States -/

namespace State

variable {t : Shape} {a b c : State}

theorem contains_iff (ha : a.Fits t) (hb : b.Fits t) : a.contains b = .ok true ↔
    a.panic.contains b.panic = .ok true ∧
      Record.containsFields a.result.fields b.result.fields = .ok true := by
  obtain ⟨panic, hpanic⟩ := Value.contains_ok (hb.panic_width.trans ha.panic_width.symm)
  rw [contains, Record.contains, Record.checkShape_ok (ha.shape_eq.trans hb.shape_eq.symm), hpanic]
  cases panic <;> simp [ok_bind, pure_ok]

theorem contains_trans (ha : a.Fits t) (hb : b.Fits t) (hc : c.Fits t)
    (hab : a.contains b = .ok true) (hbc : b.contains c = .ok true) : a.contains c = .ok true := by
  obtain ⟨habpanic, habfields⟩ := (contains_iff ha hb).1 hab
  obtain ⟨hbcpanic, hbcfields⟩ := (contains_iff hb hc).1 hbc
  exact (contains_iff ha hc).2 ⟨Value.contains_trans habpanic hbcpanic,
    Record.containsFields_trans ha.shape_eq hb.shape_eq hc.shape_eq ha.wellFormed hb.wellFormed
      hc.wellFormed habfields hbcfields⟩

/-- Equal states contain each other. -/
theorem contains_of_equal (ha : a.Fits t) (h : a.equal b = true) : a.contains b = .ok true := by
  rw [← contains_plain, ← equal_iff.1 h, contains_plain]
  exact contains_self ha

end State

end RefineCheck
