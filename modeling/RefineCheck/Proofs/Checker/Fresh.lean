/-
  RefineCheck.Proofs.Checker.Fresh

  A checker that knows nothing yet decides every property that is read from a text: on a
  left-total space it concludes with the three-valued value of the property over the initial
  states.
-/

import RefineCheck.Proofs.Labelling.Check
import RefineCheck.Proofs.Property.Parsed

namespace RefineCheck

open Formula (Tables)
open Std (TreeMap)

namespace Labelling

/-- A labelling with the formula of a property, and tables that the formula agrees with. -/
structure Represents (p : Property) (T : Tables) (l : Labelling) : Prop where
  prepared : Formula.Prepared p l.formula
  lawful : T.Lawful
  agree : l.formula.Agree T
  body? {id : Nat} {g : Formula} : T.bodies id = some g → l.formula.body? id = some g

theorem Represents.of_formula {p : Property} {T : Tables} {l l' : Labelling}
    (h : Represents p T l) (hf : l'.formula = l.formula) : Represents p T l' where
  prepared := hf ▸ h.prepared
  lawful := h.lawful
  agree := hf ▸ h.agree
  body? hg := hf ▸ h.body? hg

/-- Labels that do not exist are right. -/
theorem coherent_blank (s : Space) (T : Tables) (G : Set NodeId) (p : Property) (f : Formula) :
    Coherent s T G { property := p, formula := f } := by
  refine ⟨fun id n e he => ?_, fun {id g n label} _ _ hlabel => ?_⟩
  · simp [history, History.entries] at he
  · simp [labelsOf] at hlabel

theorem ofProperty_ok {p : Property} (hp : p.Parsed) :
    ∃ f T, ofProperty p = .ok { property := p, formula := f } ∧
      Represents p T { property := p, formula := f } := by
  obtain ⟨f, hf, hprepared⟩ := Formula.prepared_ofProperty hp
  obtain ⟨T, hT, hagree, hbodies⟩ := hprepared.tables
  refine ⟨f, T, ?_, hprepared, hT, hagree, hbodies⟩
  rw [ofProperty, hf]
  rfl

end Labelling

namespace Checker

open Labelling (exec)

/-! ## Single checks -/

theorem check_of_known {c : Checker} {p : Property} {l : Labelling}
    (h : c.labellings[p.key]? = some l) (s : Space) :
    c.check s p = ((exec (Labelling.check s) l).1,
      ⟨c.labellings.insert p.key (exec (Labelling.check s) l).2⟩) := by
  simp only [check, h]
  rfl

theorem check_of_new {c : Checker} {p : Property} {l : Labelling}
    (h : c.labellings[p.key]? = none) (hl : Labelling.ofProperty p = .ok l) (s : Space) :
    c.check s p = ((exec (Labelling.check s) l).1,
      ⟨c.labellings.insert p.key (exec (Labelling.check s) l).2⟩) := by
  simp only [check, h, hl]
  rfl

/-- What a check may conclude: there is no value on a space that is not left-total, and otherwise a
    value exactly if every comparison has an outcome. -/
structure Decides (s : Space) (p : Property) (r : Except CheckError Conclusion) : Prop where
  dead : s.isLeftTotal = false → r = .ok .notCheckable
  value : s.isLeftTotal = true → s.Interprets p → ∃ c, r = .ok c ∧ s.Concludes (s.verdict p) c
  failed : s.isLeftTotal = true → ¬ s.Interprets p →
    ∃ cause, r = .error cause ∧ ∀ fault, cause ≠ .fault fault
  blamed {culprit : Culprit} : r = .ok (.unknown culprit) →
    ∃ q, p.pnf = .ok q ∧ culprit.atomic ∈ q.canonical.atoms

variable {s : Space} {p : Property}

/-- A value that is known is the one the space has. -/
theorem Decides.known {value : Bool} (h : Decides s p (.ok (.known value))) :
    s.isLeftTotal = true ∧ s.Interprets p ∧ s.verdict p = .ofBool value := by
  have htotal : s.isLeftTotal = true := by
    by_contra hnot
    have hdead := h.dead (Bool.eq_false_iff.2 hnot)
    cases hdead
  have hinterprets : s.Interprets p := by
    by_contra hnot
    obtain ⟨cause, hcause, -⟩ := h.failed htotal hnot
    cases hcause
  obtain ⟨conclusion, hconclusion, hconcludes⟩ := h.value htotal hinterprets
  obtain rfl := Except.ok.inj hconclusion
  exact ⟨htotal, hinterprets, (Option.some.inj hconcludes.value_eq).symm⟩

theorem decides_check (hs : s.Valid)
    (hgood : ∀ {n : NodeId} {st : State}, s.states[n]? = some st → st.Nonempty) {T : Tables}
    {l : Labelling} (hl : l.Represents p T)
    (hcoh : Labelling.Coherent s T {n | s.contains n = true} (l.settle s)) :
    Decides s p (exec (Labelling.check s) l).1 := by
  refine ⟨fun hdead => ?_, fun htotal hp => ?_, fun htotal hp => ?_, fun hblame => ?_⟩
  · rw [Labelling.exec_check_of_not_total hdead]
  · have h := Labelling.checks_check hs hgood htotal hl.prepared hl.lawful hl.agree hl.body? hcoh
    exact (h.result.resolve_right fun hne => hne.1 hp).2
  · have h := Labelling.checks_check hs hgood htotal hl.prepared hl.lawful hl.agree hl.body? hcoh
    exact (h.result.resolve_left fun hin => hp hin.1).2
  · cases htotal : s.isLeftTotal with
    | false =>
      rw [Labelling.exec_check_of_not_total htotal] at hblame
      cases hblame
    | true =>
      have h := Labelling.checks_check hs hgood htotal hl.prepared hl.lawful hl.agree hl.body? hcoh
      obtain ⟨q, hq, hf⟩ := hl.prepared.normal
      refine ⟨q, hq, ?_⟩
      rw [← hf, Formula.atoms_toProperty]
      exact h.blamed hblame

/-- A checker that knows nothing yet decides every property that is read from a text. -/
theorem decides_empty (hs : s.Valid)
    (hgood : ∀ {n : NodeId} {st : State}, s.states[n]? = some st → st.Nonempty) (hp : p.Parsed) :
    Decides s p (empty.check s p).1 := by
  obtain ⟨f, T, hl, hrepresents⟩ := Labelling.ofProperty_ok hp
  have hnone : empty.labellings[p.key]? = none := by simp [empty]
  rw [check_of_new hnone hl]
  exact decides_check hs hgood hrepresents (Labelling.coherent_settle hs hrepresents.lawful
    (Labelling.coherent_blank s T _ p f))

theorem Decides.interprets_of_stored
    (h : p.AtomsIn fun a => ∀ (n : StateId) st, s.states[n]? = some st → ∃ v, a.evaluate st = .ok v)
    (hs : s.Valid) : s.Interprets p := by
  refine h.imp (fun a ha n hn hroot => ?_) (fun _ h => h) fun _ h => h
  obtain ⟨st, hst⟩ := Space.contains_iff.1 (hs.contains_of_reachable hn hroot)
  obtain ⟨v, hv⟩ := ha n st hst
  exact ⟨st, v, hst, hv⟩

theorem known_iff {v : Kleene} {c : Conclusion} (h : c.value? = some v) (b : Bool) :
    c = .known b ↔ v = .ofBool b := by
  cases c with
  | known b' =>
    obtain rfl := Option.some.inj h
    cases b <;> cases b' <;> simp [Kleene.ofBool]
  | unknown culprit =>
    obtain rfl := Option.some.inj h
    cases b <;> simp [Kleene.ofBool]
  | notCheckable => cases h

theorem unknown_iff {v : Kleene} {c : Conclusion} (h : c.value? = some v) :
    (∃ culprit, c = .unknown culprit) ↔ v = .unknown := by
  cases c with
  | known b =>
    obtain rfl := Option.some.inj h
    cases b <;> simp [Kleene.ofBool]
  | unknown culprit =>
    obtain rfl := Option.some.inj h
    simp
  | notCheckable => cases h

/-- On a left-total space in whose states all comparisons have outcomes, a check of a property by a
    checker that knows nothing yet succeeds. Its conclusion is known exactly if the value over the
    initial states is definite, and is then this value; otherwise it is unknown. -/
theorem check_empty_exact {text : String} (hs : s.Built State.Nonempty)
    (htotal : s.isLeftTotal = true) (hp : Property.parse text = .ok p)
    (hatoms : p.AtomsIn fun a =>
      ∀ (n : StateId) st, s.states[n]? = some st → ∃ v, a.evaluate st = .ok v) :
    ∃ c, (empty.check s p).1 = .ok c ∧ (∀ b, c = .known b ↔ s.verdict p = .ofBool b) ∧
      ((∃ culprit, c = .unknown culprit) ↔ s.verdict p = .unknown) := by
  have hdecides := decides_empty hs.valid (fun hst => hs.good hst) (Property.parsed_of_parse hp)
  obtain ⟨c, hc, hvalue⟩ := hdecides.value htotal (Decides.interprets_of_stored hatoms hs.valid)
  exact ⟨c, hc, known_iff hvalue.value_eq, unknown_iff hvalue.value_eq⟩

end Checker

/-! ## A space with one state -/

namespace Space

/-- The space with one more step, or the same one if the step is refused. -/
def extend (s : Space) (source : NodeId) (state : State) : Space :=
  match s.addStep source state .empty with
  | .ok (s', _) => s'
  | .error _ => s

theorem Built.extend {Good : State → Prop} {s : Space} (h : s.Built Good) {state : State}
    (hgood : Good state) (source : NodeId) : (s.extend source state).Built Good := by
  rw [Space.extend]
  split
  · rename_i hadd
    exact .addStep h hgood hadd
  · exact h

/-- A state without fields that does not panic and leads to itself. -/
def loop : Space := (empty.extend root (.quiet .empty)).extend 1 (.quiet .empty)

theorem built_loop : loop.Built State.Nonempty := by
  have hquiet : (State.quiet .empty).Nonempty := ⟨⟨0, Reduced.has_iff.1 (by decide +kernel)⟩, nofun⟩
  exact (Built.empty.extend hquiet root).extend hquiet 1

end Space

/-- A property with a fixed point on the space with one state. -/
theorem Checker.check_empty_exact_loop :
    ∃ p c, Property.parse "gfp![Z, __panic == 0 && EX![Z]]" = .ok p ∧
      (empty.check .loop p).1 = .ok c ∧ (∀ b, c = .known b ↔ Space.loop.verdict p = .ofBool b) := by
  have hp : Property.parse "gfp![Z, __panic == 0 && EX![Z]]" =
      .ok (.fix .greatest "Z" (.and (.atom ⟨"__panic", none, .signless, .eq, 0⟩)
        (.next .some (.var "Z")))) := by
    decide +kernel
  obtain ⟨c, hc, hknown, -⟩ := check_empty_exact Space.built_loop (by decide +kernel) hp
    ⟨trivial, fun _ st _ => ⟨_, rfl⟩, trivial⟩
  exact ⟨_, c, hp, hc, hknown⟩

end RefineCheck
