/-
  RefineCheck.Proofs.Verifier.Offers

  What marks are refined by. The mark of a comparison has the shape of the states wherever there is
  one, and so has all that a system which conforms to its templates asks for on the way back, whether
  or not the walk follows edges of the space.
-/

import Mathlib
import RefineCheck.Proofs.Verifier.Improvement

namespace RefineCheck

/-! ## Marks of comparisons -/

theorem Marking.width_of_all {w importance : Nat} {m : Marking} (h : all w importance = .ok m) :
    w ≤ Word.maxWidth ∧ m.width = w := by
  simp only [all, bind_eq_ok, pure_eq_ok] at h
  obtain ⟨u, hwidth, rfl⟩ := h
  exact ⟨checkWidth_eq_ok hwidth, rfl⟩

theorem MemoryMark.withElement_spec {m r : MemoryMark} {i : Nat} {mark : Marking}
    (hm : m.WellFormed) (hwidth : mark.width = m.elementWidth) (h : m.withElement i mark = .ok r) :
    r.WellFormed ∧ r.indexWidth = m.indexWidth ∧ r.elementWidth = m.elementWidth := by
  have hi : i ≤ Word.last m.indexWidth := by
    rw [withElement, bind_eq_ok] at h
    obtain ⟨old, hold, -⟩ := h
    exact (Runs.get_spec hold).1.trans hm.last_eq.le
  obtain ⟨r', hr', hspec⟩ := hm.withElement_ok hi mark hwidth
  obtain rfl := Except.ok.inj (h.symm.trans hr')
  exact hspec

namespace Verifier

/-- The mark of what is read in a field is of the kind of the field. -/
theorem readMark_spec {c : Content} {index : Option Nat} {mark : FieldMark}
    (h : readMark c index = .ok mark) : mark.kind = c.kind ∧ mark.WellFormed := by
  cases c with
  | scalar value =>
    simp only [readMark, bind_eq_ok, pure_eq_ok] at h
    obtain ⟨bits, hbits, rfl⟩ := h
    obtain ⟨hle, hwidth⟩ := Marking.width_of_all hbits
    exact ⟨congrArg Kind.scalar hwidth, hwidth.le.trans hle⟩
  | array _ memory =>
    cases index with
    | none =>
      simp only [readMark, MemoryMark.all, bind_eq_ok, pure_eq_ok] at h
      obtain ⟨marks, ⟨fill, hfill, rfl⟩, rfl⟩ := h
      obtain ⟨hle, hwidth⟩ := Marking.width_of_all hfill
      exact ⟨congrArg (Kind.array memory.indexWidth) hwidth,
        MemoryMark.wellFormed_replicate (hwidth.le.trans hle)⟩
    | some i =>
      simp only [readMark, MemoryMark.unmarked, Marking.unmarked, bind_eq_ok, pure_eq_ok] at h
      obtain ⟨unmarked, ⟨fill, ⟨u, -, rfl⟩, rfl⟩, bits, hbits, one, hone, rfl⟩ := h
      obtain ⟨hle, hwidth⟩ := Marking.width_of_all hbits
      have hunmarked : (MemoryMark.replicate memory.indexWidth
          ⟨memory.elementWidth, .unmarked memory.elementWidth⟩).WellFormed :=
        MemoryMark.wellFormed_replicate hle
      obtain ⟨hwf, hindex, helement⟩ := MemoryMark.withElement_spec hunmarked hwidth hone
      refine ⟨?_, hwf⟩
      rw [FieldMark.kind, hindex, helement]
      rfl

/-- The mark of a comparison is that of the panic code, or joins what is read into one field. -/
theorem culpritMark_cases {template : Record} {a : Atomic} {m : StateMark}
    (h : culpritMark template a = .ok m) : ∃ unmarked, StateMark.unmarked template = .ok unmarked ∧
      ((∃ panic, Marking.all panicWidth leastImportance = .ok panic ∧ m = { unmarked with panic }) ∨
        ∃ f mark result, template.field? a.name = some f ∧ readMark f.content a.index = .ok mark ∧
          unmarked.result.joinField a.name mark = .ok result ∧ m = { unmarked with result }) := by
  simp only [culpritMark, bind_eq_ok] at h
  obtain ⟨unmarked, hunmarked, h⟩ := h
  refine ⟨unmarked, hunmarked, ?_⟩
  -- a comparison reads the panic code, a scalar, an array as a whole or one element
  split at h
  · simp only [bind_eq_ok, pure_eq_ok] at h
    obtain ⟨panic, hpanic, rfl⟩ := h
    exact .inl ⟨panic, hpanic, rfl⟩
  · cases hf : template.field? a.name with
    | none =>
      simp only [hf] at h
      cases h
    | some f =>
      simp only [hf] at h
      refine .inr ?_
      cases hc : f.content with
      | scalar value =>
        simp only [hc, bind_eq_ok, pure_eq_ok] at h
        obtain ⟨bits, hbits, result, hresult, rfl⟩ := h
        exact ⟨f, .scalar bits, result, rfl, by rw [hc, readMark, hbits]; rfl, hresult, rfl⟩
      | array _ memory =>
        cases hindex : a.index with
        | none =>
          simp only [hc, hindex, bind_eq_ok, pure_eq_ok] at h
          obtain ⟨all, hall, result, hresult, rfl⟩ := h
          exact ⟨f, .array all, result, rfl, by rw [hc, readMark, hall]; rfl, hresult, rfl⟩
        | some i =>
          simp only [hc, hindex, bind_eq_ok, pure_eq_ok] at h
          obtain ⟨none, hnone, bits, hbits, one, hone, result, hresult, rfl⟩ := h
          refine ⟨f, .array one, result, rfl, ?_, hresult, rfl⟩
          rw [hc, readMark, hnone, ok_bind, hbits, ok_bind, hone]
          rfl

/-- The mark of a comparison has the shape of the template. -/
theorem culpritMark_fits {template : Record} {a : Atomic} {m : StateMark}
    (h : culpritMark template a = .ok m) : m.Fits template.shape := by
  obtain ⟨unmarked, hunmarked, hm⟩ := culpritMark_cases h
  have hfits := StateMark.fits_unmarked hunmarked
  rcases hm with ⟨panic, hpanic, rfl⟩ | ⟨f, mark, result, hf, hmark, hresult, rfl⟩
  · exact ⟨(Marking.width_of_all hpanic).2, hfits.result⟩
  · -- the field is joined into the template of the unmarked mark, which is the one it was found in
    have htemplate : unmarked.result.template = template := by
      simp only [StateMark.unmarked, RecordMark.unmarked, bind_eq_ok, pure_eq_ok] at hunmarked
      obtain ⟨_, ⟨fields, -, rfl⟩, rfl⟩ := hunmarked
      rfl
    obtain ⟨hkind, hwf⟩ := readMark_spec hmark
    obtain ⟨r, hr, hrfits⟩ := RecordMark.joinField_ok hfits.result (htemplate.symm ▸ hf) hkind hwf
    obtain rfl := Except.ok.inj (hresult.symm.trans hr)
    exact ⟨hfits.panic_width, hrfits⟩

/-! ## Offers -/

variable {system : TransitionSystem} {hsys : system.Conforms} {v : Verifier} {i : Improvement}
  {edges : List (NodeId × StateId)} {later : StateMark} {best : Option (NodeId × RecordMark)}

/-- A more precise mark that comes from an offer of the right shape. -/
inductive Offered (system : TransitionSystem) (v : Verifier) : Improvement → Prop
  | step {node : NodeId} {old offer mark : StateMark} : v.stepPrecision.get v.space node = .ok old →
    offer.Fits system.stateTemplate.shape → old.refine? offer = .ok (some mark) →
    Offered system v (.step node mark)
  | input {node : NodeId} {old offer mark : RecordMark} :
    v.inputPrecision.get v.space node = .ok old → offer.Fits system.inputTemplate.shape →
    old.refine? offer = .ok (some mark) → Offered system v (.input node mark)

/-- What a walk finds was offered, whether or not it follows edges of the space. -/
theorem offered_of_improvement? (hv : v.Generated hsys.contract)
    (hfed : v.space.Fed system.inputTemplate.shape) (hlater : later.Fits system.stateTemplate.shape)
    (hbest : ∀ n m, best = some (n, m) → v.Offered system (.input n m))
    (h : v.improvement? edges later best = .ok (some i)) : v.Offered system i := by
  have hlast {best : Option (NodeId × RecordMark)}
      (hbest : ∀ n m, best = some (n, m) → v.Offered system (.input n m))
      (h : best.map (fun b => Improvement.input b.1 b.2) = some i) : v.Offered system i := by
    obtain ⟨⟨n, m⟩, hnm, rfl⟩ := Option.map_eq_some_iff.1 h
    exact hbest _ _ hnm
  -- on the way back, each mark that is asked for becomes the offer to the node before it
  induction edges generalizing later best with
  | nil => exact hlast hbest (Except.ok.inj h)
  | cons edge edges ih =>
    rcases improvement?_cons h with ⟨old, mark, hmark, hold, hrefined⟩ |
      ⟨input, before, offer, old, refined, hinput, hmarks, hold, hrefined, hrest⟩
    · obtain rfl := Option.some.inj hmark
      exact .step hold hlater hrefined
    · obtain ⟨hoffer, hbefore⟩ := marksAt_fits hv (hfed hinput) hlater hmarks
      have hbest' : ∀ n m, afterEdge best edge.1 refined = some (n, m) →
          v.Offered system (.input n m) := by
        intro n m hnm
        rcases afterEdge_eq_some hnm with hnm | ⟨rfl, rfl⟩
        · exact hbest n m hnm
        · exact .input hold hoffer hrefined
      cases before with
      | none => exact hlast hbest' (Except.ok.inj hrest)
      | some before => exact ih ⟨rfl, hbefore before rfl⟩ hbest' hrest

/-- A walk fails only if the system does. -/
theorem system_of_improvement? {cause : Failure}
    (h : v.improvement? edges later best = .error (.failure cause)) :
    ∃ node fault, cause = .system node fault := by
  have hlift {α : Type} {x : Except Fault α} : x.mapError Stop.fault ≠ .error (.failure cause) := by
    intro h
    obtain ⟨_, -, hfault⟩ := mapError_eq_error h
    cases hfault
  induction edges generalizing later best with
  | nil => cases h
  | cons edge edges ih =>
    obtain ⟨node, state⟩ := edge
    rw [improvement?] at h
    simp only [bind_eq_error] at h
    rcases h with h | ⟨old, -, h | ⟨refined, -, h⟩⟩
    · exact absurd h hlift
    · exact absurd h hlift
    · cases refined with
      | some mark => cases h
      | none =>
        cases hinput : v.space.input? node state with
        | none =>
          simp only [hinput] at h
          cases h
        | some input =>
          simp only [hinput, pure_ok, ok_bind, bind_eq_error] at h
          rcases h with h | ⟨⟨before, offer⟩, -, h | ⟨old, -, h | ⟨refined, -, h⟩⟩⟩
          · obtain ⟨fault, -, hfault⟩ := mapError_eq_error h
            exact ⟨node, fault, (Stop.failure.inj hfault).symm⟩
          · exact absurd h hlift
          · exact absurd h hlift
          · cases before with
            | none => cases h
            | some before => exact ih h

end Verifier

end RefineCheck
