/-
  RefineCheck.Proofs.Verifier.Consistency

  What every call of a verifier keeps: the successors in its space are right, and every change since
  the last check was declared to the checker. A generation that fails leaves changes undeclared, and
  the guard around it then discards the space.
-/

import Mathlib
import RefineCheck.Proofs.Verifier.Generation
import RefineCheck.Proofs.Verifier.Informed

namespace RefineCheck

open Relation (ReflTransGen)

namespace Verifier

open VerifyM (Ensures)

variable {system : TransitionSystem} {K : Contract system} {v w : Verifier} {node : NodeId}
  {text : String} {p : Property}

/-! ## Consistent verifiers -/

/-- A verifier whose checker knows of every change of the space. -/
structure Consistent (K : Contract system) (v : Verifier) : Prop extends Generated K v where
  tracked : ∃ baseline declared, (v.trace baseline declared).Tracked ∧
    (v.trace baseline declared).Announced

theorem Usable.legible (hv : v.Usable system) : v.checker.Legible := fun _ _ => hv.represents

/-- Without a space and without labels nothing is left to be declared. -/
theorem Usable.consistent_of_empty (hv : v.Usable system) (hw : w.Usable system)
    (hspace : w.space = .empty) (hchecker : w.checker = v.checker.purge) : w.Consistent K := by
  refine ⟨⟨hw, hspace ▸ .empty, fun {n} hne => ?_⟩, Informed.of_purge hv.legible hspace hchecker⟩
  exact absurd (hspace ▸ Space.next_empty n) hne

theorem Usable.reset (hv : v.Usable system) : v.reset.Consistent K :=
  hv.consistent_of_empty ⟨hv.system_eq, hv.input.reset, hv.step.reset,
    hv.legible.purge _ _⟩ rfl rfl

theorem Usable.invalidate (hv : v.Usable system) : v.invalidate.Consistent K :=
  hv.consistent_of_empty ⟨hv.system_eq, hv.input.reset, hv.step.reset,
    hv.legible.purge _ _⟩ rfl rfl

theorem Consistent.informed (hv : v.Consistent K) : v.Informed := hv.tracked

/-- Declaring what a generation changed leaves nothing undeclared. -/
theorem Consistent.declare (hv : v.Consistent K) {added : List StateId} {changed : List NodeId}
    (h : Renewed (GrownFrom K v.space) v node w added changed) :
    (w.declare added changed).Consistent K := by
  have hw := h.invariant
  have hinformed := hv.informed.declare h (Space.run_mono hw.run K.nonempty)
  exact ⟨⟨⟨hw.system_eq, hw.input, hw.step, hinformed.legible _ _⟩, hw.built, hw.follows⟩, hinformed⟩

/-! ## Generation and refinement -/

/-- What is left by a computation that stops and is then guarded: unless the fuel did not suffice, a
    verifier that can start again, and a consistent one if no failure of the system is to blame. -/
def Recoverable (K : Contract system) (stop : Stop) (w : Verifier) : Prop :=
  stop ≠ .exhausted → w.Usable system ∧
    ((∀ cause, stop = .failure cause → cause = .incomplete) → w.Consistent K)

/-- What is left by a guarded computation. -/
def Kept (K : Contract system) (stop : Stop) (w : Verifier) : Prop :=
  stop ≠ .exhausted → w.Consistent K

theorem Consistent.recoverable (hw : w.Consistent K) (stop : Stop) : Recoverable K stop w :=
  fun _ => ⟨hw.toUsable, fun _ => hw⟩

theorem ensures_guarded {α : Type} {x : VerifyM α} {post : α → Verifier → Prop}
    (h : Ensures x v post (Recoverable K)) : Ensures (VerifyM.guarded x) v post (Kept K) :=
  h.guarded (fun _ hw _ => (hw Stop.noConfusion).1.invalidate)
    fun hcause hw hne => (hw hne).2 hcause

/-- The precisions have no part in what makes a verifier consistent. -/
theorem Consistent.usable (hv : v.Consistent K) (hw : w.Usable system) (hspace : w.space = v.space)
    (hchecker : w.checker = v.checker) : w.Consistent K := by
  refine ⟨⟨hw, hspace ▸ hv.built, ?_⟩, hv.informed.of_same hspace hchecker⟩
  rw [hspace]
  exact hv.follows

theorem Consistent.regenerate (hv : v.Consistent K) (fuel : Nat) (node : NodeId) :
    Ensures (regenerate fuel node) v (fun _ w => w.Consistent K) (Recoverable K) := by
  by_cases hnode : v.HasNode node
  · refine (hv.toGenerated.regenerate hnode fuel).imp ?_ ?_
    · rintro b w ⟨u, added, changed, hu, rfl, -⟩
      exact hv.declare hu
    · rintro stop w (rfl | ⟨n, causes, rfl, hframe⟩ | ⟨u, added, changed, cause, hu, rfl, -, rfl⟩)
      · exact fun hne => absurd rfl hne
      · refine fun _ => ⟨hv.toUsable.sameBut hframe, fun hcause => ?_⟩
        cases hcause _ rfl
      · exact (hv.declare hu).recoverable _
  · obtain ⟨w, hw, hframe, hspace⟩ := exec_regenerate_of_not_hasNode hnode fuel
    have hchecker : w.checker = v.checker := by rw [hframe]
    exact .of_error hw ((hv.usable (hv.toUsable.sameBut hframe) hspace hchecker).recoverable _)

/-- A more precise mark has the shape of the one it comes from. -/
theorem Usable.refined (hv : v.Usable system) (hbuilt : v.space.Built K.Good)
    {i : Improvement} (h : v.Refined i w) : w.Usable system := by
  have hfits {n : NodeId} {st : State} (hst : v.space.states[n]? = some st) :=
    K.fits (hbuilt.good hst)
  cases h with
  | step himproves hinsert =>
    cases himproves with
    | step hold hrefined =>
      exact ⟨hv.system_eq, hv.input, hv.step.insert_refined hfits hold hrefined hinsert, hv.represents⟩
  | input himproves hinsert =>
    cases himproves with
    | input hold hrefined =>
      exact ⟨hv.system_eq, hv.input.insert_refined hfits hold hrefined hinsert, hv.step, hv.represents⟩

theorem Consistent.refineOnce (hv : v.Consistent K) (fuel : Nat) (culprit : Culprit) :
    Ensures (refineOnce fuel culprit) v (fun _ w => w.Consistent K) (Recoverable K) := by
  refine ensures_refineOnce (fun _ => hv.recoverable _) (fun _ _ => hv.recoverable _)
    (hv.recoverable _) fun {_ i w} _ _ hw => ?_
  have hspace : w.space = v.space := by rw [hw.frame]
  have hchecker : w.checker = v.checker := by rw [hw.frame]
  exact (hv.usable (hv.toUsable.refined hv.built hw) hspace hchecker).regenerate fuel i.node

theorem Consistent.refine (hv : v.Consistent K) (inner : Nat) (culprit : Culprit) (fuel : Nat) :
    Ensures (refine inner culprit fuel) v (fun _ w => w.Consistent K) (Recoverable K) := by
  refine (ensures_refine (I := fun _ => Consistent K) (J := Consistent K)
    (fun _ hne => absurd rfl hne)
    (fun hv => (hv.refineOnce inner culprit).imp (fun {changed w} hw => ?_) fun h => h) hv).imp
    ?_ fun h => h
  · cases changed <;> exact hw
  · rintro _ _ ⟨u, hu, rfl⟩
    exact hu.usable (hu.toUsable.sameBut rfl) rfl rfl

/-! ## Checking -/

/-- Removing unreachable states keeps the successors of all others. -/
theorem follows_of_swept {s s' : Space} {removed : List StateId} (h : Space.Swept s s' removed)
    {n : NodeId} (hn : n ∉ removed) (hfollows : K.Follows s.states[n]? (s.targets n)) :
    K.Follows s'.states[n]? (s'.targets n) := by
  rw [h.states_kept hn, h.targets_kept hn]
  exact hfollows

theorem Consistent.collected (hv : v.Consistent K) : v.collected.Consistent K := by
  have hswept := Space.swept_collect hv.built.valid
  have hinformed := hv.informed.collected
  refine ⟨⟨⟨hv.system_eq, hv.input, hv.step, hinformed.legible _ _⟩, .collect hv.built,
    fun {n} hne => ?_⟩, hinformed⟩
  have hn : n ∉ v.space.collect.2 := fun hmem => hne (hswept.next_gone hmem)
  exact follows_of_swept hswept hn (hv.follows (hswept.next_kept hn ▸ hne))

theorem Consistent.conclude (hv : v.Consistent K) (hp : Property.parse text = .ok p) :
    Ensures (conclude p) v
      (fun c w => w.Consistent K ∧ Checker.Decides w.space p (.ok c)) (Kept K) := by
  have hdecides := hv.informed.decides hp
  have hchecked := hv.informed.checked hp
  rcases hcheck : v.checker.check v.space p with ⟨result, checker⟩
  rw [hcheck] at hdecides hchecked
  have hw : Consistent K { v with checker } :=
    ⟨⟨⟨hv.system_eq, hv.input, hv.step, hchecked.legible _ _⟩, hv.built, hv.follows⟩, hchecked⟩
  refine ensures_conclude hcheck (fun _ _ => hw) (fun _ _ => hw) ?_ ?_ fun _ _ => hw
  · rintro value rfl
    exact ⟨hw, hdecides⟩
  · rintro culprit rfl
    exact ⟨hw.usable ⟨hw.system_eq, hw.input, hw.step, hw.represents⟩ rfl rfl, hdecides⟩

theorem Consistent.prepare (hv : v.Consistent K) (fuel : Nat) (p : Property) :
    Ensures (prepare fuel p) v (fun _ w => w.Consistent K) (Kept K) := by
  refine ensures_prepare (fun _ => (ensures_guarded (hv.regenerate fuel root)).imp (fun {_ w} hw => ?_)
    fun h => h) (fun {culprit} _ _ => ?_) fun _ _ => hv
  · exact hw.usable ⟨hw.system_eq, hw.input, hw.step, hw.represents⟩ rfl rfl
  · have hunset : Consistent K { v with pending := none } :=
      hv.usable ⟨hv.system_eq, hv.input, hv.step, hv.represents⟩ rfl rfl
    exact (ensures_guarded (hunset.refine fuel culprit fuel)).imp (fun hw => hw.collected) fun h => h

/-- Every step leaves a consistent verifier, and a conclusion that its space says of the property. -/
theorem Consistent.pursue (hv : v.Consistent K) (hp : Property.parse text = .ok p) (inner : Nat)
    (limits : Limits) (start fuel : Nat) : Ensures (pursue inner limits p start fuel) v
      (fun c w => w.Consistent K ∧ Checker.Decides w.space p (.ok c)) (Kept K) :=
  ensures_pursue (I := fun _ => Consistent K) (fun _ hne => absurd rfl hne) (fun hv _ => hv)
    (fun hv => .bind (hv.prepare inner p) fun hw => (hw.conclude hp).imp
      (fun hw => ⟨fun _ => hw, fun _ => hw.1⟩) fun h => h) hv

theorem Consistent.decide (hv : v.Consistent K) (hp : Property.parse text = .ok p) (fuel : Nat) :
    Ensures (decide fuel p) v (fun _ w => w.Consistent K) (Kept K) :=
  .bind_get (.bind (hv.pursue hp fuel {} _ fuel) fun hw => .of_pure hw.1)

/-- The property that is verified first can be read from a text. -/
theorem parse_inherent : Property.parse "AG![__panic == 0]" = .ok .inherent := by
  decide +kernel

theorem Consistent.verify (hv : v.Consistent K) (hp : Property.parse text = .ok p) (fuel : Nat) :
    Ensures (verify fuel p) v (fun _ w => w.Consistent K) (Kept K) :=
  ensures_verify (fun hv _ => hv) (fun hv _ => hv)
    (fun hv => hv.decide parse_inherent fuel) (fun hv => hv.decide hp fuel) hv

theorem Consistent.regenerateFrom (hv : v.Consistent K) (fuel : Nat) (node : NodeId) :
    Ensures (regenerateFrom fuel node) v (fun _ w => w.Consistent K) (Kept K) := by
  refine .bind (ensures_guarded (hv.regenerate fuel node)) fun hw => .bind_modify (.of_pure ?_)
  exact hw.usable ⟨hw.system_eq, hw.input, hw.step, hw.represents⟩ rfl rfl

/-! ## Calls -/

/-- A verifier that has generated nothing yet is consistent. -/
theorem consistent_ofSystem {options : Options} (h : ofSystem system options = .ok v)
    (hinput : ∀ m, options.inputPrecision = some m → m.Fits system.inputTemplate.shape) :
    v.Consistent K := by
  obtain ⟨coarsest, kept, hcoarsest, hkept, hv⟩ := ofSystem_eq_ok h
  have hfits : (options.inputPrecision.getD coarsest).Fits system.inputTemplate.shape := by
    cases hgiven : options.inputPrecision with
    | none => exact RecordMark.fits_unmarked hcoarsest
    | some m => exact hinput m hgiven
  have husable : v.Usable system := by
    rw [hv]
    exact ⟨rfl, Precision.shaped_of_default hfits, Precision.shaped_of_default hkept,
      fun hl => by simp [Checker.empty] at hl⟩
  exact husable.consistent_of_empty husable (by rw [hv]) (by rw [hv]; rfl)

/-- A call that asks for a property or discards the space. It has ended, so its fuel sufficed. -/
inductive Asks : Verifier → Verifier → Prop
  | step {v : Verifier} {text : String} {p : Property} (fuel : Nat) (limits : Limits) :
    Property.parse text = .ok p → (v.step fuel limits p).1.result ≠ .error .exhausted →
    Asks v (v.step fuel limits p).2
  | verify {v : Verifier} {text : String} {p : Property} (fuel : Nat) :
    Property.parse text = .ok p → (VerifyM.exec (verify fuel p) v).1 ≠ .error .exhausted →
    Asks v (VerifyM.exec (verify fuel p) v).2
  | reset (v : Verifier) : Asks v v.reset

/-- A call, also one that generates the space again from a node on. -/
inductive Calls : Verifier → Verifier → Prop
  | asks {v w : Verifier} : Asks v w → Calls v w
  | regenerate {v : Verifier} (fuel : Nat) (node : NodeId) :
    (VerifyM.exec (regenerateFrom fuel node) v).1 ≠ .error .exhausted →
    Calls v (VerifyM.exec (regenerateFrom fuel node) v).2

theorem consistent_of_ensures {α : Type} {x : VerifyM α} {post : α → Verifier → Prop}
    (h : Ensures x v post (Kept K)) (hpost : ∀ {a w}, post a w → w.Consistent K)
    (hne : (VerifyM.exec x v).1 ≠ .error .exhausted) : (VerifyM.exec x v).2.Consistent K := by
  rcases hrun : VerifyM.exec x v with ⟨r, w⟩
  rw [hrun] at hne
  cases r with
  | ok a => exact hpost (h.ok hrun)
  | error stop => exact h.error hrun fun hstop => hne (congrArg Except.error hstop)

theorem Consistent.calls (hv : v.Consistent K) (h : Calls v w) : w.Consistent K := by
  cases h with
  | asks h =>
    cases h with
    | step fuel limits hp hne =>
      exact consistent_of_ensures (hv.pursue hp fuel limits _ fuel) And.left hne
    | verify fuel hp hne => exact consistent_of_ensures (hv.verify hp fuel) id hne
    | reset => exact hv.toUsable.reset
  | regenerate fuel node hne => exact consistent_of_ensures (hv.regenerateFrom fuel node) id hne

/-- Every sequence of calls leaves a consistent verifier. -/
theorem Consistent.run (hv : v.Consistent K) (h : ReflTransGen Calls v w) : w.Consistent K := by
  induction h with
  | refl => exact hv
  | tail _ hcall ih => exact ih.calls hcall

/-- A conclusion that a step returns is what the space says of the property. -/
theorem Consistent.decides_step (hv : v.Consistent K) (hp : Property.parse text = .ok p) {fuel : Nat}
    {limits : Limits} {c : Conclusion} (h : (v.step fuel limits p).1.result = .ok c) :
    ∃ w : Verifier, w.Consistent K ∧ Checker.Decides w.space p (.ok c) := by
  rcases hrun : VerifyM.exec (Verifier.pursue fuel limits p v.counters.refinements fuel) v with ⟨r, w⟩
  have hr : r = .ok c := (congrArg Prod.fst hrun).symm.trans h
  exact ⟨w, (hv.pursue hp fuel limits _ fuel).ok (hr ▸ hrun)⟩

end Verifier

end RefineCheck
