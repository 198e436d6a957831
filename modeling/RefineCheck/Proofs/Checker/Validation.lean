/-
  RefineCheck.Proofs.Checker.Validation

  Errors of comparisons come before any label. On a space whose states have the same fields, the
  first initial state speaks for all: if it gives every comparison an outcome, no comparison fails
  later, neither while states are labelled nor while a culprit is looked for; otherwise the check
  ends with the error of a comparison of the property and leaves no label behind.
-/

import RefineCheck.Proofs.Checker.Incremental
import RefineCheck.Proofs.Property.Defect

namespace RefineCheck

open Formula (Tables)
open Relation (ReflTransGen)
open Std (TreeMap)

/-! ## The comparisons of a property -/

theorem Property.atomsIn_iff {P : Atomic → Prop} {p : Property} :
    p.AtomsIn P ↔ ∀ a ∈ p.atoms, P a := by
  induction p with
  | const _ | var _ => exact ⟨fun _ _ ha => absurd ha List.not_mem_nil, fun _ => trivial⟩
  | atom a =>
    rw [atoms, List.forall_mem_singleton]
    exact Iff.rfl
  | not _ ih | next _ _ ih | eventually _ _ ih | always _ _ ih => exact ih
  | fix _ _ _ ih => exact (and_iff_right trivial).trans ih
  | and _ _ ihp ihq | or _ _ ihp ihq | holdUntil _ _ _ ihp ihq | release _ _ _ ihp ihq =>
    rw [atoms, List.forall_mem_append, ← ihp, ← ihq]
    exact Iff.rfl

/-- Preparing a property for labelling drops no comparison, and complements some of them at most. -/
theorem Formula.Prepared.mem_atoms {p : Property} {f : Formula} (hf : Prepared p f) {a : Atomic}
    (ha : a ∈ f.atoms) : a ∈ p.atoms ∨ a.complement ∈ p.atoms := by
  by_contra hnot
  rw [not_or] at hnot
  have hother : p.AtomsIn fun b => b ≠ a ∧ b ≠ a.complement := by
    refine Property.atomsIn_iff.2 fun b hb => ⟨?_, ?_⟩
    · rintro rfl
      exact hnot.1 hb
    · rintro rfl
      exact hnot.2 hb
  refine ((hf.atoms_iff fun b => ?_).2 hother a ha).1 rfl
  -- complementing swaps the two comparisons that are left out
  have hswap (c : Atomic) : b.complement = c ↔ b = c.complement :=
    ⟨fun h => h ▸ b.complement_complement.symm, fun h => h ▸ c.complement_complement⟩
  rw [Ne, Ne, hswap, hswap, Atomic.complement_complement, and_comm]

/-- A property and its formula have a comparison with a defect or they both have none. -/
theorem Formula.Prepared.defect_iff {p : Property} {f : Formula} (hf : Prepared p f) (t : Shape) :
    (∃ a ∈ f.atoms, ∃ e, a.Defect t e) ↔ ∃ a ∈ p.atoms, ∃ e, a.Defect t e := by
  have h := hf.atoms_iff (P := fun a => ¬ ∃ e, a.Defect t e) fun a => by
    simp only [Atomic.defect_complement]
  rw [Property.atomsIn_iff] at h
  simpa only [not_forall, not_not, exists_prop] using not_congr h

/-! ## Deduction -/

/-- Whether a comparison has no outcome in some stored state. -/
def Space.Fails (s : Space) (a : Atomic) : Prop :=
  ∃ (n : StateId) (st : State) (e : LookupError), s.states[n]? = some st ∧ a.evaluate st = .error e

namespace Labelling

variable {s : Space} {T : Tables} {l : Labelling}

theorem mapM_eq_error {α β ε : Type} {g : α → Except ε β} {xs : List α} {e : ε}
    (h : xs.mapM g = .error e) : ∃ x ∈ xs, g x = .error e := by
  induction xs with
  | nil => cases h
  | cons x xs ih =>
    rw [List.mapM_cons] at h
    rcases bind_eq_error.1 h with h | ⟨_, -, h⟩
    · exact ⟨x, List.mem_cons_self, h⟩
    · rcases bind_eq_error.1 h with h | ⟨_, -, h⟩
      · obtain ⟨y, hy, hg⟩ := ih h
        exact ⟨y, List.mem_cons_of_mem x hy, hg⟩
      · cases h

theorem findM?_eq_error {α : Type} {holds : α → Except Fault Bool} {xs : List α} {cause : Fault}
    (h : findM? holds xs = .error cause) : ∃ x ∈ xs, holds x = .error cause := by
  induction xs with
  | nil => cases h
  | cons x xs ih =>
    rw [findM?] at h
    rcases bind_eq_error.1 h with h | ⟨found, -, h⟩
    · exact ⟨x, List.mem_cons_self, h⟩
    · cases found with
      | true => cases h
      | false =>
        obtain ⟨y, hy, hholds⟩ := ih h
        exact ⟨y, List.mem_cons_of_mem x hy, hholds⟩

theorem entryBefore_ne_failsAfterValidation {id bound : Nat} {n : StateId}
    {atomic reason : String} :
    l.entryBefore id bound n ≠ .error (.failsAfterValidation atomic reason) := by
  rw [entryBefore]
  intro h
  split at h <;> cases h

/-- Reading a value of the past fails after validation only if a comparison fails. -/
theorem fails_of_valueBefore {bound : Nat} {f : Formula} {n : StateId} {atomic reason : String}
    (h : l.valueBefore s bound f n = .error (.failsAfterValidation atomic reason)) :
    ∃ a ∈ f.atoms, s.Fails a := by
  induction f generalizing n with
  | const _ => cases h
  | atom a =>
    refine ⟨a, List.mem_cons_self, ?_⟩
    rw [valueBefore, Space.state] at h
    cases hst : s.states[n]? with
    | none =>
      rw [hst] at h
      cases h
    | some st =>
      rw [hst, ok_bind] at h
      cases heval : a.evaluate st with
      | ok v =>
        rw [heval] at h
        cases h
      | error e => exact ⟨n, st, e, hst, heval⟩
  | and f g ihf ihg | or f g ihf ihg =>
    rw [valueBefore] at h
    rcases bind_eq_error.1 h with h | ⟨_, -, h⟩
    · obtain ⟨a, ha, hfails⟩ := ihf h
      exact ⟨a, List.mem_append_left _ ha, hfails⟩
    · rcases bind_eq_error.1 h with h | ⟨_, -, h⟩
      · obtain ⟨a, ha, hfails⟩ := ihg h
        exact ⟨a, List.mem_append_right _ ha, hfails⟩
      · cases h
  | next _ f ih =>
    rw [valueBefore] at h
    rcases bind_eq_error.1 h with h | ⟨_, -, h⟩
    · obtain ⟨m, -, hm⟩ := mapM_eq_error h
      exact ih hm
    · cases h
  | fix id _ _ _ _ | var id _ =>
    rw [valueBefore] at h
    rcases bind_eq_error.1 h with h | ⟨_, -, h⟩
    · exact absurd h entryBefore_ne_failsAfterValidation
    · cases h
  | shared id f ih =>
    rw [valueBefore] at h
    split at h
    · cases h
    · exact ih h

theorem notUnknown_ne_failsAfterValidation {property atomic reason : String} {n : StateId} :
    (throw (.notUnknown property n) : Except Fault Culprit) ≠
      .error (.failsAfterValidation atomic reason) := by
  intro h
  cases h

/-- Looking for a culprit fails after validation only if a comparison fails. -/
theorem fails_of_deduce {bound : Nat} {f : Formula} {earlier : List StateId} {n : StateId}
    {atomic reason : String}
    (h : l.deduce s bound f earlier n = .error (.failsAfterValidation atomic reason))
    (hf : ∀ a ∈ f.atoms, a ∈ l.formula.atoms) : ∃ a ∈ l.formula.atoms, s.Fails a := by
  -- whether a part is unknown is read from its value
  have hunknown {bound : Nat} {g : Formula} {n : StateId} (hg : ∀ a ∈ g.atoms, a ∈ l.formula.atoms)
      (h : (do return (← l.valueBefore s bound g n).isUnknown : Except Fault Bool) =
        .error (.failsAfterValidation atomic reason)) : ∃ a ∈ l.formula.atoms, s.Fails a := by
    rcases bind_eq_error.1 h with h | ⟨_, -, h⟩
    · obtain ⟨a, ha, hfails⟩ := fails_of_valueBefore h
      exact ⟨a, hg a ha, hfails⟩
    · cases h
  fun_induction deduce s l bound f earlier n with
  | case1 => exact absurd h notUnknown_ne_failsAfterValidation
  | case2 => cases h
  | case3 bound earlier n isUnknown f g refuse ihf ihg
  | case4 bound earlier n isUnknown f g refuse ihf ihg =>
    have hleft (a) (ha : a ∈ f.atoms) := hf a (List.mem_append_left _ ha)
    have hright (a) (ha : a ∈ g.atoms) := hf a (List.mem_append_right _ ha)
    rcases bind_eq_error.1 h with h | ⟨left, -, h⟩
    · exact hunknown hleft h
    · split at h
      · exact ihf h hleft
      · rcases bind_eq_error.1 h with h | ⟨right, -, h⟩
        · exact hunknown hright h
        · split at h
          · exact ihg h hright
          · exact absurd h notUnknown_ne_failsAfterValidation
  | case5 bound earlier n isUnknown paths f refuse ih =>
    rcases bind_eq_error.1 h with h | ⟨found, -, h⟩
    · obtain ⟨m, -, hm⟩ := findM?_eq_error h
      exact hunknown (g := f) hf hm
    · split at h
      · exact ih _ h hf
      · exact absurd h notUnknown_ne_failsAfterValidation
  | case6 bound earlier n id kind name f ih =>
    rcases bind_eq_error.1 h with h | ⟨⟨e, he⟩, -, h⟩
    · exact absurd h entryBefore_ne_failsAfterValidation
    · exact ih e he h hf
  | case7 bound earlier n id name refuse ih =>
    rcases bind_eq_error.1 h with h | ⟨⟨e, he⟩, -, h⟩
    · exact absurd h entryBefore_ne_failsAfterValidation
    · dsimp only at h
      split at h
      · rename_i g hg
        exact ih e he g h fun a ha => mem_atoms_of_body? hg ha
      · exact absurd h notUnknown_ne_failsAfterValidation
  | case8 bound earlier n id f ih => exact ih h hf

/-! ## Validation -/

/-- A check of a property with a defect ends after forgetting what is out of date. Without a defect
    it concludes. -/
theorem exec_check_cases {t : Shape} {p : Property} (hs : s.Valid)
    (hgood : ∀ {n : NodeId} {st : State}, s.states[n]? = some st → st.Nonempty)
    (htotal : s.isLeftTotal = true) (hl : l.Represents p T)
    (hcoh : Coherent s T (clean s {n | l.changed.contains n = true}) l)
    (hshape : ∀ (n : StateId) (st : State), s.states[n]? = some st → st.result.shape = t) :
    (∃ a ∈ l.formula.atoms, ∃ e, a.Defect t e ∧
        exec (check s) l = (.error (.invalid a e), settle s l)) ∨
      (∀ a ∈ l.formula.atoms, ∀ e, ¬ a.Defect t e) ∧
        ∃ c l', exec (check s) l = (.ok c, l') ∧ l'.formula = l.formula := by
  obtain ⟨first, hfirst, hcheck⟩ := exec_check_first hs htotal l
  obtain ⟨st, hst⟩ := Space.contains_iff.1 ((region_regionOf hs).stored hfirst)
  have hdefect (a : Atomic) (e : LookupError) : a.evaluate st = .error e ↔ a.Defect t e :=
    Atomic.evaluate_eq_error_iff (hshape first st hst) e
  rcases exec_validate hst l.formula (settle s l) with ⟨-, hall⟩ | ⟨a, ha, e, he, hrun⟩
  · have hnone : ∀ a ∈ l.formula.atoms, ∀ e, ¬ a.Defect t e :=
      fun a ha e h => hall a ha e ((hdefect a e).2 h)
    have hchecks := checks_check hs hgood htotal hl.prepared hl.lawful hl.agree hl.body?
      (coherent_settle hs hl.lawful hcoh)
    -- what has an outcome in one state has one in every state
    have hinterprets : s.Interprets p := by
      refine (interprets_iff hgood hl.prepared).2 fun a ha n hn => ?_
      obtain ⟨st', hst'⟩ := Space.contains_iff.1 ((region_regionOf hs).stored hn)
      cases heval : a.evaluate st' with
      | ok v => exact ⟨st', v, hst', heval⟩
      | error e =>
        exact absurd ((Atomic.evaluate_eq_error_iff (hshape n st' hst') e).1 heval) (hnone a ha e)
    obtain ⟨c, hc, -⟩ := (hchecks.result.resolve_right fun h => h.1 hinterprets).2
    exact .inr ⟨hnone, c, _, Prod.ext hc rfl, hchecks.later.formula_eq⟩
  · rw [hcheck, exec_bind_error hrun]
    exact .inl ⟨a, ha, e, (hdefect a e).1 he, rfl⟩

end Labelling

/-! ## What a checker remembers -/

namespace Checker

/-- Whether a checker remembers a label of a closed part of a property. -/
def HasLabel (c : Checker) (p : Property) (id : Nat) (n : StateId) (label : Label) : Prop :=
  ∃ l, c.labellings[p.key]? = some l ∧ (l.labelsOf id)[n]? = some label

/-- Whether a checker remembers an entry in the history of a fixed point of a property. -/
def HasEntry (c : Checker) (p : Property) (id : Nat) (n : StateId) (e : History.Entry) : Prop :=
  ∃ l, c.labellings[p.key]? = some l ∧ e ∈ (l.history id).entries n

/-- What a check of a property is that has a defect in states of a shape. -/
structure Rejects (t : Shape) (p : Property) (c : Checker)
    (r : Except CheckError Conclusion × Checker) : Prop where
  /-- The error is that of a comparison of the property, or of its complement. -/
  invalid : ∃ a e, r.1 = .error (.invalid a e) ∧ a.Defect t e ∧
    (a ∈ p.atoms ∨ a.complement ∈ p.atoms)
  label {id : Nat} {n : StateId} {label : Label} :
    r.2.HasLabel p id n label → c.HasLabel p id n label
  entry {id : Nat} {n : StateId} {e : History.Entry} :
    r.2.HasEntry p id n e → c.HasEntry p id n e
  others {key : String} : key ≠ p.key → r.2.labellings[key]? = c.labellings[key]?

/-- What a check of a property is that has no defect. -/
structure Accepts (s : Space) (p : Property) (r : Except CheckError Conclusion × Checker) :
    Prop where
  concludes : ∃ conclusion, r.1 = .ok conclusion
  evaluates {a : Atomic} {n : StateId} {st : State} : a ∈ p.atoms → s.states[n]? = some st →
    ∃ v, a.evaluate st = .ok v
  /-- No comparison that is labelled fails in a state. -/
  labels {l : Labelling} {a : Atomic} {n : StateId} {st : State} :
    r.2.labellings[p.key]? = some l → a ∈ l.formula.atoms → s.states[n]? = some st →
    ∃ v, a.evaluate st = .ok v
  /-- No comparison fails while a culprit is looked for from a part of the formula. -/
  deduces {l : Labelling} {bound : Nat} {f : Formula} {earlier : List StateId} {n : StateId}
    {atomic reason : String} : r.2.labellings[p.key]? = some l →
    (∀ a ∈ f.atoms, a ∈ l.formula.atoms) →
    l.deduce s bound f earlier n ≠ .error (.failsAfterValidation atomic reason)

/-- Forgetting what is out of date adds nothing to what was known of a property. -/
theorem rejects_of_settle {t : Shape} {p : Property} {c : Checker} {s : Space} {l : Labelling}
    {a : Atomic} {e : LookupError}
    (hl : c.labellings[p.key]? = some l ∨ Labelling.ofProperty p = .ok l)
    (ha : a.Defect t e) (hmem : a ∈ p.atoms ∨ a.complement ∈ p.atoms) :
    c.Rejects t p (.error (.invalid a e), ⟨c.labellings.insert p.key (l.settle s)⟩) := by
  have hnew (h : Labelling.ofProperty p = .ok l) : l = { property := p, formula := l.formula } := by
    obtain ⟨f, -, hf⟩ := bind_eq_ok.1 h
    obtain rfl := pure_eq_ok.1 hf
    rfl
  refine ⟨⟨a, e, rfl, ha, hmem⟩, fun {id n label} h => ?_, fun {id n entry} h => ?_, fun hkey => ?_⟩
  · obtain ⟨l', hl', hlabel⟩ := h
    obtain rfl := Option.some.inj (TreeMap.getElem?_insert_self.symm.trans hl')
    have hkept : (l.labelsOf id)[n]? = some label := by
      have h := Labelling.labelsOf_purge l (Labelling.affected s l.changed) id n
      rw [show ((l.purge _).labelsOf id)[n]? = some label from hlabel] at h
      split at h
      · cases h
      · exact h.symm
    refine ⟨l, hl.resolve_right fun h => ?_, hkept⟩
    rw [hnew h] at hkept
    simp [Labelling.labelsOf] at hkept
  · obtain ⟨l', hl', hentry⟩ := h
    obtain rfl := Option.some.inj (TreeMap.getElem?_insert_self.symm.trans hl')
    have hkept : entry ∈ (l.history id).entries n := by
      have h := Labelling.entries_purge l (Labelling.affected s l.changed) id n
      rw [show ((l.settle s).history id).entries n = _ from h] at hentry
      split at hentry
      · cases hentry
      · exact hentry
    refine ⟨l, hl.resolve_right fun h => ?_, hkept⟩
    rw [hnew h] at hkept
    simp [Labelling.history, History.entries] at hkept
  · rw [TreeMap.getElem?_insert, if_neg fun h => hkey (Std.LawfulEqCmp.compare_eq_iff_eq.1 h).symm]

end Checker

/-! ## Runs -/

namespace Trace

variable {t : Trace}

/-- On a left-total space whose states have one shape, a check fails exactly if a comparison of the
    property has a defect. Which comparisons fail is the same in every state. A check that fails
    adds no label and no entry; in one that does not, no comparison can fail. -/
theorem check_error_iff {s : Space} {text : String} {p : Property} {shape : Shape}
    (hs : s.Built State.Nonempty) (hrun : ReflTransGen Step (start s) t) (hann : t.Announced)
    (hp : Property.parse text = .ok p) (htotal : t.space.isLeftTotal = true)
    (hshape : ∀ (n : StateId) (st : State), t.space.states[n]? = some st →
      st.result.shape = shape) :
    ((∃ cause, (t.checker.check t.space p).1 = .error cause) ↔
        ∃ a ∈ p.atoms, ∃ e, a.Defect shape e) ∧
      (∀ (n : StateId) (st : State), t.space.states[n]? = some st →
        ∀ a e, a.evaluate st = .error e ↔ Atomic.Defect shape a e) ∧
      (∀ cause, (t.checker.check t.space p).1 = .error cause →
        t.checker.Rejects shape p (t.checker.check t.space p)) ∧
      ∀ c, (t.checker.check t.space p).1 = .ok c →
        Checker.Accepts t.space p (t.checker.check t.space p) := by
  have htracked := (tracked_start hs).run hrun
  have hgood {n : NodeId} {st : State} (hst : t.space.states[n]? = some st) : st.Nonempty :=
    htracked.built.good hst
  have hdefect (n : StateId) (st : State) (hst : t.space.states[n]? = some st) (a : Atomic)
      (e : LookupError) : a.evaluate st = .error e ↔ a.Defect shape e :=
    Atomic.evaluate_eq_error_iff (hshape n st hst) e
  obtain ⟨l, T, hl, hcheck, hrepresents, hcoh⟩ :=
    htracked.start_of_check hann (Property.parsed_of_parse hp)
  have hatoms := hrepresents.prepared.defect_iff shape
  rcases Labelling.exec_check_cases htracked.built.valid hgood htotal hrepresents hcoh hshape with
    ⟨a, ha, e, he, hexec⟩ | ⟨hnone, c, l', hexec, hformula⟩
  · rw [hexec] at hcheck
    rw [hcheck]
    have hexists := hatoms.1 ⟨a, ha, e, he⟩
    exact ⟨⟨fun _ => hexists, fun _ => ⟨_, rfl⟩⟩, hdefect,
      fun _ _ => Checker.rejects_of_settle hl he (hrepresents.prepared.mem_atoms ha),
      fun c hc => absurd hc error_ne_ok⟩
  · rw [hexec] at hcheck
    rw [hcheck]
    -- without a defect every comparison has an outcome in every state
    have hsound : ¬ ∃ a ∈ p.atoms, ∃ e, a.Defect shape e := fun h => by
      obtain ⟨a, ha, e, he⟩ := hatoms.2 h
      exact hnone a ha e he
    have hok {a : Atomic} {n : StateId} {st : State} (hst : t.space.states[n]? = some st)
        (ha : ∀ e, ¬ a.Defect shape e) : ∃ v, a.evaluate st = .ok v := by
      cases heval : a.evaluate st with
      | ok v => exact ⟨v, rfl⟩
      | error e => exact absurd ((hdefect n st hst a e).1 heval) (ha e)
    refine ⟨⟨fun ⟨_, h⟩ => (error_ne_ok h.symm).elim, fun h => (hsound h).elim⟩, hdefect,
      fun _ h => (error_ne_ok h.symm).elim, fun _ _ => ⟨⟨c, rfl⟩, fun ha hst => ?_,
        fun hlab ha hst => ?_, fun hlab hf hdeduce => ?_⟩⟩
    · exact hok hst fun e he => hsound ⟨_, ha, e, he⟩
    · obtain rfl := Option.some.inj (TreeMap.getElem?_insert_self.symm.trans hlab)
      exact hok hst (hnone _ (hformula ▸ ha))
    · obtain rfl := Option.some.inj (TreeMap.getElem?_insert_self.symm.trans hlab)
      obtain ⟨a, ha, n, st, e, hst, heval⟩ := Labelling.fails_of_deduce hdeduce hf
      exact hnone a (hformula ▸ ha) e ((hdefect n st hst a e).1 heval)

end Trace

/-- A state with a field of one bit that has no signedness. -/
def State.flag : State := .quiet ⟨[.ofValue "x" .signless (Value.ofNat 1 0)]⟩

/-- The state with a field leads to itself. -/
def Space.flagged : Space := (empty.extend root .flag).extend 1 .flag

theorem Space.built_flagged {Good : State → Prop} (h : Good .flag) : flagged.Built Good :=
  (Built.empty.extend h root).extend h 1

/-- The second of two properties is rejected by a checker that concluded with the first one: both
    read the field, but only the second one orders it. -/
theorem Trace.check_error_iff_flagged :
    ∃ t p, ReflTransGen Step (start .flagged) t ∧ t.checker.properties = ["EF![x == 0]"] ∧
      Property.parse "EF![x < 1]" = .ok p ∧
      ∃ cause, (t.checker.check t.space p).1 = .error cause := by
  have hflag : State.flag.Nonempty :=
    ⟨⟨0, Reduced.has_iff.1 (by decide +kernel)⟩,
      List.forall_mem_singleton.2 ⟨0, Reduced.has_iff.1 (by decide +kernel)⟩⟩
  have hfirst : Property.parse "EF![x == 0]" =
      .ok (.eventually .some (.atom ⟨"x", none, .signless, .eq, 0⟩)) := by
    decide +kernel
  have hsecond : Property.parse "EF![x < 1]" =
      .ok (.eventually .some (.atom ⟨"x", none, .signless, .lt, 1⟩)) := by
    decide +kernel
  -- the run is stated for any space, so that no step evaluates the checks
  have hrun (s : Space) := ReflTransGen.single (Step.check (announced_start s) hfirst)
  have htotal : Space.flagged.isLeftTotal = true := by decide +kernel
  have hshape (n : StateId) (st : State) (hst : Space.flagged.states[n]? = some st) :
      st.result.shape = State.flag.result.shape :=
    (@Space.built_flagged (fun st => st.result.shape = State.flag.result.shape) rfl).good hst
  have hdefect : Atomic.Defect State.flag.result.shape ⟨"x", none, .signless, .lt, 1⟩
      (.signednessUnknown "x") :=
    .unordered (f := ⟨"x", .signless, .scalar 1⟩) rfl trivial trivial rfl rfl
  refine ⟨_, _, hrun .flagged, by decide +kernel, hsecond, ?_⟩
  exact (check_error_iff (Space.built_flagged hflag) (hrun .flagged) (announced_start .flagged)
    hsecond htotal hshape).1.2 ⟨_, List.mem_singleton_self _, _, hdefect⟩

end RefineCheck
