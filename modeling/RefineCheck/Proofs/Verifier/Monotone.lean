/-
  RefineCheck.Proofs.Verifier.Monotone

  The precisions of a verifier are monotone between resets. A refinement is the only thing that changes
  them, generating and collecting states only changes the space, and a failure of the system discards
  the space together with the precisions. So later marks are at least the earlier ones, also of a state
  that was removed and is stored again.
-/

import Mathlib
import RefineCheck.Proofs.Precision.Monotone
import RefineCheck.Proofs.Verifier.Offers
import RefineCheck.Proofs.Verifier.Termination

namespace RefineCheck

/-- Whether a computation stops because the system fails. -/
def Stop.Systemic : Stop → Prop
  | .failure (.system _ _) | .failure (.generation _ _) => True
  | _ => False

namespace Verifier

open Relation (ReflTransGen)
open VerifyM (Ensures exec)

variable {system : TransitionSystem} {hsys : system.Conforms} {v₀ v w u : Verifier} {node : NodeId}
  {culprit : Culprit} {fuel inner : Nat} {stop : Stop} {text : String} {p : Property}
  {i : Improvement}

/-! ## Ranks -/

/-- A verifier whose precisions are for the nodes of its space, bits and importance alike. -/
structure Ranked (system : TransitionSystem) (v : Verifier) : Prop where
  fed : v.space.Fed system.inputTemplate.shape
  input : v.inputPrecision.BelongsTo (RecordMark.graded system.inputTemplate.shape).ranks
    system.stateTemplate.shape v.space
  step : v.stepPrecision.BelongsTo (StateMark.graded system.stateTemplate.shape).ranks
    system.stateTemplate.shape v.space

/-- Whether no rank is lower at any state than before. -/
structure Rises (system : TransitionSystem) (v w : Verifier) : Prop where
  input (σ : Option State) :
    v.inputPrecision.effective (RecordMark.graded system.inputTemplate.shape).ranks σ ⊆
      w.inputPrecision.effective (RecordMark.graded system.inputTemplate.shape).ranks σ
  step (σ : Option State) :
    v.stepPrecision.effective (StateMark.graded system.stateTemplate.shape).ranks σ ⊆
      w.stepPrecision.effective (StateMark.graded system.stateTemplate.shape).ranks σ

theorem rises_of_same (hin : w.inputPrecision = v.inputPrecision)
    (hstep : w.stepPrecision = v.stepPrecision) : Rises system v w :=
  ⟨fun _ => hin ▸ subset_rfl, fun _ => hstep ▸ subset_rfl⟩

theorem Rises.trans (h : Rises system v w) (h' : Rises system w u) : Rises system v u :=
  ⟨fun σ => (h.input σ).trans (h'.input σ), fun σ => (h.step σ).trans (h'.step σ)⟩

/-- Without entries the precisions are for the empty space. -/
theorem Usable.ranked (hv : v.Usable system) (hspace : v.space = .empty)
    (hin : v.inputPrecision.entries = {}) (hstep : v.stepPrecision.entries = {}) :
    v.Ranked system := by
  have hfits {n : NodeId} {st : State} (hst : v.space.states[n]? = some st) :
      st.Fits system.stateTemplate.shape := by
    simp [hspace, Space.empty] at hst
  have hvalid : v.space.Valid := hspace ▸ Space.valid_empty
  refine ⟨?_, Precision.belongsTo_of_entries hin hv.input.default_fits hvalid hfits,
    Precision.belongsTo_of_entries hstep hv.step.default_fits hvalid hfits⟩
  intro n m r hr
  simp [hspace, Space.input?, Space.empty] at hr

/-- Precisions stay for a space that evolves. -/
theorem Ranked.evolves (hv : v.Ranked system) (hin : w.inputPrecision = v.inputPrecision)
    (hstep : w.stepPrecision = v.stepPrecision) (h : v.space.Evolves w.space)
    (hw : w.space.Built hsys.contract.Good) (hfed : w.space.Fed system.inputTemplate.shape) :
    w.Ranked system :=
  ⟨hfed, hin ▸ hv.input.evolves h hw hsys.contract.fits,
    hstep ▸ hv.step.evolves h hw hsys.contract.fits⟩

/-- A mark that was offered to a node lowers no rank. -/
theorem Ranked.refined (hv : v.Ranked system) (hi : v.Offered system i) (h : v.Refined i w) :
    w.Ranked system ∧ Rises system v w := by
  cases h with
  | step _ hinsert =>
    cases hi with
    | step hold hoffer hrefined =>
      obtain ⟨hstep, hsub⟩ := hv.step.refined hold hoffer hrefined hinsert
      exact ⟨⟨hv.fed, hv.input, hstep⟩, fun _ => subset_rfl, hsub⟩
  | input _ hinsert =>
    cases hi with
    | input hold hoffer hrefined =>
      obtain ⟨hinput, hsub⟩ := hv.input.refined hold hoffer hrefined hinsert
      exact ⟨⟨hv.fed, hinput, hv.step⟩, hsub, fun _ => subset_rfl⟩

/-! ## Computations that lower no rank -/

/-- A verifier in which no rank is lower than in an earlier one. -/
structure Raised (hsys : system.Conforms) (v₀ v : Verifier) : Prop where
  consistent : v.Consistent hsys.contract
  ranked : v.Ranked system
  rises : Rises system v₀ v

theorem Raised.of_same (hv : Raised hsys v₀ v) (hw : w.Consistent hsys.contract)
    (hspace : w.space = v.space) (hin : w.inputPrecision = v.inputPrecision)
    (hstep : w.stepPrecision = v.stepPrecision) : Raised hsys v₀ w :=
  ⟨hw, ⟨hspace ▸ hv.ranked.fed, hin ▸ hspace ▸ hv.ranked.input, hstep ▸ hspace ▸ hv.ranked.step⟩,
    hv.rises.trans (rises_of_same hin hstep)⟩

/-- How a computation may stop before it is guarded: a failure of the system may leave anything, since
    it discards the space. -/
def Lapses (hsys : system.Conforms) (v₀ : Verifier) (stop : Stop) (w : Verifier) : Prop :=
  Recoverable hsys.contract stop w ∧ (stop = .exhausted ∨ stop.Systemic ∨
    (∀ cause, stop = .failure cause → cause = .incomplete) ∧ w.Ranked system ∧ Rises system v₀ w)

/-- How a call may stop. -/
def Keeps (hsys : system.Conforms) (v₀ : Verifier) (stop : Stop) (w : Verifier) : Prop :=
  stop ≠ .exhausted →
    w.Consistent hsys.contract ∧ w.Ranked system ∧ (¬ stop.Systemic → Rises system v₀ w)

theorem Raised.lapses (hv : Raised hsys v₀ v)
    (h : ∀ cause, stop = .failure cause → cause = .incomplete) : Lapses hsys v₀ stop v :=
  ⟨hv.consistent.recoverable stop, .inr (.inr ⟨h, hv.ranked, hv.rises⟩)⟩

theorem Raised.keeps (hv : Raised hsys v₀ v) (stop : Stop) : Keeps hsys v₀ stop v :=
  fun _ => ⟨hv.consistent, hv.ranked, fun _ => hv.rises⟩

theorem ensures_guarded_keeps {α : Type} {x : VerifyM α} {post : α → Verifier → Prop}
    (h : Ensures x v post (Lapses hsys v₀)) : Ensures (VerifyM.guarded x) v post (Keeps hsys v₀) := by
  refine h.guarded (fun {cause w} hcause hw _ => ?_) fun {stop w} hcause hw hne => ?_
  · obtain ⟨hrecoverable, hor⟩ := hw
    have husable := (hrecoverable Stop.noConfusion).1
    have hconsistent : w.invalidate.Consistent hsys.contract := husable.invalidate
    refine ⟨hconsistent, hconsistent.toUsable.ranked rfl rfl rfl, fun hnot => ?_⟩
    rcases hor with hexhausted | hsystemic | ⟨hincomplete, -⟩
    · cases hexhausted
    · exact absurd hsystemic hnot
    · exact absurd (hincomplete cause rfl) hcause
  · obtain ⟨hrecoverable, hor⟩ := hw
    refine ⟨(hrecoverable hne).2 hcause, ?_⟩
    rcases hor with hexhausted | hsystemic | ⟨-, hranked, hrises⟩
    · exact absurd hexhausted hne
    · cases stop with
      | failure cause =>
        obtain rfl := hcause cause rfl
        exact hsystemic.elim
      | fault _ | exhausted => exact hsystemic.elim
    · exact ⟨hranked, fun _ => hrises⟩

/-! ## Generation and refinement -/

/-- A generation leaves the precisions to the states that stay stored. -/
theorem Ranked.renewed (hv : v.Ranked system) {added : List StateId} {changed : List NodeId}
    (h : Renewed (fun u => u.GrownFrom hsys.contract v.space ∧
      u.space.Fed system.inputTemplate.shape) v node u added changed) :
    (u.declare added changed).Ranked system ∧ Rises system v (u.declare added changed) := by
  have hin : u.inputPrecision = v.inputPrecision := by rw [h.frame]
  have hstep : u.stepPrecision = v.stepPrecision := by rw [h.frame]
  have hevolves : v.space.Evolves u.space := by
    refine ⟨h.nextId_le, fun hlt hst => (h.new hst).resolve_right fun hnew => ?_⟩
    exact absurd hlt (not_lt.2 hnew.2)
  exact ⟨hv.evolves hin hstep hevolves h.invariant.1.built h.invariant.2, rises_of_same hin hstep⟩

theorem Raised.regenerate (hv : Raised hsys v₀ v) (fuel : Nat) (node : NodeId) :
    Ensures (regenerate fuel node) v (fun _ w => Raised hsys v₀ w) (Lapses hsys v₀) := by
  by_cases hnode : v.HasNode node
  · have hfailed {u : Verifier} {n : NodeId} {stop : Stop} (hu : u.Generated hsys.contract)
        (hn : u.HasNode n) (h : u.successors fuel n = .error stop) :
        stop = .exhausted ∨ stop.Systemic := by
      rcases (hu.mild_of_successors hn h).1 with ⟨cause, rfl⟩ | ⟨hexhausted, -⟩
      · obtain ⟨causes, rfl⟩ := (stop_of_successors h).2 cause rfl
        exact .inr trivial
      · exact .inl hexhausted
    have hgenerated := hv.consistent.toGenerated
    refine ((hv.consistent.regenerate fuel node).and (ensures_regenerate
      (I := fun u => u.GrownFrom hsys.contract v.space ∧ u.space.Fed system.inputTemplate.shape)
      ?_ hgenerated.built.valid hnode fun hsucc he => ⟨hgenerated.expands hnode hsucc he,
        he.fed hgenerated hnode hsucc hv.ranked.fed⟩)).imp ?_ ?_
    · intro v w n steps e hu _ hn _ hsucc he
      exact ⟨hu.1.expands hn hsucc he, he.fed hu.1.toGenerated hn hsucc hu.2⟩
    · rintro b w ⟨hconsistent, u, added, changed, hu, rfl, -⟩
      obtain ⟨hranked, hrises⟩ := hv.ranked.renewed hu
      exact ⟨hconsistent, hranked, hv.rises.trans hrises⟩
    · -- only the system stops an expansion; the check after the last one changes nothing
      rintro stop w ⟨hrecoverable, ⟨-, hstop⟩ | ⟨-, hexhausted | ⟨u, n, hu, -, -, hn, hstop⟩⟩ |
        ⟨u, added, changed, cause, hu, rfl, -, rfl⟩⟩
      · exact ⟨hrecoverable, (hfailed hgenerated hnode hstop).imp_right .inl⟩
      · exact ⟨hrecoverable, .inl hexhausted⟩
      · exact ⟨hrecoverable, (hfailed hu.1.toGenerated hn hstop).imp_right .inl⟩
      · obtain ⟨hranked, hrises⟩ := hv.ranked.renewed hu
        exact ⟨hrecoverable, .inr (.inr ⟨(fun _ h => by cases h), hranked, hv.rises.trans hrises⟩)⟩
  · obtain ⟨w, hw, hframe, hspace⟩ := exec_regenerate_of_not_hasNode hnode fuel
    have hchecker : w.checker = v.checker := by rw [hframe]
    have hconsistent := hv.consistent.usable (hv.consistent.toUsable.sameBut hframe) hspace hchecker
    have hraised := hv.of_same hconsistent hspace (by rw [hframe]) (by rw [hframe])
    exact .of_error hw (hraised.lapses fun _ h => by cases h)

theorem Raised.refineOnce (hv : Raised hsys v₀ v) (fuel : Nat) (culprit : Culprit) :
    Ensures (refineOnce fuel culprit) v (fun _ w => Raised hsys v₀ w) (Lapses hsys v₀) := by
  refine ensures_refineOnce (fun _ => hv.lapses fun _ h => by cases h) (fun {mark stop} _ hstop => ?_)
    (hv.lapses fun _ h => (Stop.failure.inj h).symm) fun {mark i w} hmark hfound hw => ?_
  · cases stop with
    | failure cause =>
      obtain ⟨n, fault, rfl⟩ := system_of_improvement? hstop
      exact ⟨hv.consistent.recoverable _, .inr (.inl trivial)⟩
    | fault cause => exact hv.lapses fun _ h => by cases h
    | exhausted => exact hv.lapses fun _ h => by cases h
  · rw [hv.consistent.system_eq] at hmark
    have hoffered := offered_of_improvement? hv.consistent.toGenerated hv.ranked.fed
      (culpritMark_fits hmark) (fun _ _ h => by cases h) hfound
    obtain ⟨hranked, hrises⟩ := hv.ranked.refined hoffered hw
    have hspace : w.space = v.space := by rw [hw.frame]
    have hchecker : w.checker = v.checker := by rw [hw.frame]
    have hconsistent := hv.consistent.usable
      (hv.consistent.toUsable.refined hv.consistent.built hw) hspace hchecker
    exact Raised.regenerate ⟨hconsistent, hranked, hv.rises.trans hrises⟩ fuel i.node

theorem Raised.refine (hv : Raised hsys v₀ v) (inner : Nat) (culprit : Culprit) (fuel : Nat) :
    Ensures (refine inner culprit fuel) v (fun _ w => Raised hsys v₀ w) (Lapses hsys v₀) := by
  refine (ensures_refine (I := fun _ => Raised hsys v₀) (J := Raised hsys v₀)
    (fun hv => hv.lapses fun _ h => by cases h)
    (fun hv => (hv.refineOnce inner culprit).imp (fun {changed w} hw => ?_) fun h => h) hv).imp
    ?_ fun h => h
  · cases changed <;> exact hw
  · rintro _ _ ⟨u, hu, rfl⟩
    have hconsistent : u.counted.Consistent hsys.contract :=
      hu.consistent.usable (hu.consistent.toUsable.sameBut rfl) rfl rfl
    exact hu.of_same hconsistent rfl rfl rfl

/-! ## Steps -/

/-- Marks of states that are removed stay. -/
theorem Raised.collected (hv : Raised hsys v₀ v) : Raised hsys v₀ v.collected := by
  have hevolves := (Space.swept_collect hv.consistent.built.valid).evolves
  have hfed : v.collected.space.Fed system.inputTemplate.shape :=
    fun hr => hv.ranked.fed (Space.input?_collect hr)
  have hconsistent := hv.consistent.collected
  exact ⟨hconsistent, hv.ranked.evolves rfl rfl hevolves hconsistent.built hfed,
    hv.rises.trans (rises_of_same rfl rfl)⟩

theorem Raised.prepare (hv : Raised hsys v₀ v) (fuel : Nat) (p : Property) :
    Ensures (prepare fuel p) v (fun _ w => Raised hsys v₀ w) (Keeps hsys v₀) := by
  have hsame {v w : Verifier} (hv : Raised hsys v₀ v) (hframe : w =
      { v with valid := w.valid, pending := w.pending }) : Raised hsys v₀ w := by
    have husable := hv.consistent.toUsable
    have hw : w.Consistent hsys.contract := by
      rw [hframe]
      exact hv.consistent.usable
        ⟨husable.system_eq, husable.input, husable.step, husable.represents⟩ rfl rfl
    exact hv.of_same hw (by rw [hframe]) (by rw [hframe]) (by rw [hframe])
  -- the verdict of an earlier step leads to a generation, to a refinement, or to neither
  refine ensures_prepare (fun _ => ?_) (fun {culprit} _ _ => ?_) fun _ _ => hv
  · exact (ensures_guarded_keeps (hv.regenerate fuel root)).imp (fun hw => hsame hw rfl) fun h => h
  · exact (ensures_guarded_keeps ((hsame hv rfl).refine fuel culprit fuel)).imp
      (fun hw => hw.collected) fun h => h

/-- A check leaves the precisions and the space alone. -/
theorem Raised.conclude (hv : Raised hsys v₀ v) (hp : Property.parse text = .ok p) :
    Ensures (conclude p) v (fun _ w => Raised hsys v₀ w) (Keeps hsys v₀) := by
  rcases hcheck : v.checker.check v.space p with ⟨result, checker⟩
  have hframe {w : Verifier} (h : w = { v with checker := w.checker, pending := w.pending }) :
      w.Ranked system ∧ Rises system v₀ w := by
    rw [h]
    exact ⟨⟨hv.ranked.fed, hv.ranked.input, hv.ranked.step⟩,
      hv.rises.trans (rises_of_same rfl rfl)⟩
  have hranks : Ensures (Verifier.conclude p) v (fun _ w => w.Ranked system ∧ Rises system v₀ w)
      (fun _ w => w.Ranked system ∧ Rises system v₀ w) :=
    ensures_conclude hcheck (fun _ => hframe rfl) (fun _ => hframe rfl) (fun _ => hframe rfl)
      (fun _ => hframe rfl) fun _ => hframe rfl
  refine ((hv.consistent.conclude hp).and hranks).imp ?_ ?_
  · rintro _ w ⟨⟨hconsistent, -⟩, hranked, hrises⟩
    exact ⟨hconsistent, hranked, hrises⟩
  · rintro stop w ⟨hkept, hranked, hrises⟩ hne
    exact ⟨hkept hne, hranked, fun _ => hrises⟩

theorem Raised.pursue (hv : Raised hsys v₀ v) (hp : Property.parse text = .ok p) (inner : Nat)
    (limits : Limits) (start fuel : Nat) :
    Ensures (pursue inner limits p start fuel) v (fun _ w => Raised hsys v₀ w) (Keeps hsys v₀) :=
  ensures_pursue (I := fun _ => Raised hsys v₀) (fun hv => hv.keeps _) (fun hv => hv.keeps _)
    (fun hv => .bind (hv.prepare inner p) fun hw => (hw.conclude hp).imp
      (fun hw => ⟨fun _ => hw, fun _ => hw⟩) fun h => h) hv

theorem Raised.decide (hv : Raised hsys v₀ v) (hp : Property.parse text = .ok p) (fuel : Nat) :
    Ensures (decide fuel p) v (fun _ w => Raised hsys v₀ w) (Keeps hsys v₀) :=
  .bind_get (.bind (hv.pursue hp fuel {} _ fuel) fun hw => .of_pure hw)

theorem Raised.verify (hv : Raised hsys v₀ v) (hp : Property.parse text = .ok p) (fuel : Nat) :
    Ensures (verify fuel p) v (fun _ w => Raised hsys v₀ w) (Keeps hsys v₀) :=
  ensures_verify (fun hv => hv.keeps _) (fun hv => hv.keeps _)
    (fun hv => hv.decide parse_inherent fuel) (fun hv => hv.decide hp fuel) hv

theorem Raised.regenerateFrom (hv : Raised hsys v₀ v) (fuel : Nat) (node : NodeId) :
    Ensures (regenerateFrom fuel node) v (fun _ w => Raised hsys v₀ w) (Keeps hsys v₀) := by
  refine .bind (ensures_guarded_keeps (hv.regenerate fuel node)) fun {_ w} hw =>
    .bind_modify (.of_pure ?_)
  have husable := hw.consistent.toUsable
  have hconsistent : Consistent hsys.contract { w with valid := true } :=
    hw.consistent.usable ⟨husable.system_eq, husable.input, husable.step, husable.represents⟩ rfl rfl
  exact hw.of_same hconsistent rfl rfl rfl

/-! ## Calls -/

/-- Whether a call ends without discarding the space. -/
def Stays {α : Type} (r : Except Stop α) : Prop :=
  ∀ stop, r = .error stop → stop ≠ .exhausted ∧ ¬ stop.Systemic

/-- A call between two resets: it is none itself, and no failure of the system makes it one. -/
inductive Proceeds : Verifier → Verifier → Prop
  | step {v : Verifier} {text : String} {p : Property} (fuel : Nat) (limits : Limits) :
    Property.parse text = .ok p → Stays (v.step fuel limits p).1.result →
    Proceeds v (v.step fuel limits p).2
  | verify {v : Verifier} {text : String} {p : Property} (fuel : Nat) :
    Property.parse text = .ok p → Stays (exec (verify fuel p) v).1 →
    Proceeds v (exec (verify fuel p) v).2
  | regenerate {v : Verifier} (fuel : Nat) (node : NodeId) :
    Stays (exec (regenerateFrom fuel node) v).1 → Proceeds v (exec (regenerateFrom fuel node) v).2

theorem ranked_of_ensures {α : Type} {x : VerifyM α}
    (h : Ensures x v (fun _ w => Raised hsys v₀ w) (Keeps hsys v₀))
    (hne : (exec x v).1 ≠ .error .exhausted) : (exec x v).2.Ranked system := by
  rcases hrun : exec x v with ⟨r, w⟩
  rw [hrun] at hne
  cases r with
  | ok a => exact (h.ok hrun).ranked
  | error stop => exact (h.error hrun fun hstop => hne (congrArg Except.error hstop)).2.1

theorem raised_of_ensures {α : Type} {x : VerifyM α}
    (h : Ensures x v (fun _ w => Raised hsys v₀ w) (Keeps hsys v₀)) (hstays : Stays (exec x v).1) :
    Raised hsys v₀ (exec x v).2 := by
  rcases hrun : exec x v with ⟨r, w⟩
  rw [hrun] at hstays
  cases r with
  | ok a => exact h.ok hrun
  | error stop =>
    obtain ⟨hne, hnot⟩ := hstays stop rfl
    obtain ⟨hconsistent, hranked, hrises⟩ := h.error hrun hne
    exact ⟨hconsistent, hranked, hrises hnot⟩

theorem Raised.proceeds (hv : Raised hsys v₀ v) (h : Proceeds v w) : Raised hsys v₀ w := by
  cases h with
  | step fuel limits hp hstays => exact raised_of_ensures (hv.pursue hp fuel limits _ fuel) hstays
  | verify fuel hp hstays => exact raised_of_ensures (hv.verify hp fuel) hstays
  | regenerate fuel node hstays => exact raised_of_ensures (hv.regenerateFrom fuel node) hstays

theorem Raised.run (hv : Raised hsys v₀ v) (h : ReflTransGen Proceeds v w) : Raised hsys v₀ w := by
  induction h with
  | refl => exact hv
  | tail _ hcall ih => exact ih.proceeds hcall

/-- Every call keeps the precisions for the nodes of the space, also one that discards it. -/
theorem Ranked.calls (hv : v.Ranked system) (hconsistent : v.Consistent hsys.contract)
    (h : Calls v w) : w.Ranked system := by
  have hraised : Raised hsys v v := ⟨hconsistent, hv, rises_of_same rfl rfl⟩
  cases h with
  | asks h =>
    cases h with
    | step fuel limits hp hne => exact ranked_of_ensures (hraised.pursue hp fuel limits _ fuel) hne
    | verify fuel hp hne => exact ranked_of_ensures (hraised.verify hp fuel) hne
    | reset =>
      have hreset : v.reset.Consistent hsys.contract := hconsistent.toUsable.reset
      exact hreset.toUsable.ranked rfl rfl rfl
  | regenerate fuel node hne => exact ranked_of_ensures (hraised.regenerateFrom fuel node) hne

theorem Ranked.run (hv : v.Ranked system) (hconsistent : v.Consistent hsys.contract)
    (h : ReflTransGen Calls v w) : w.Ranked system := by
  induction h with
  | refl => exact hv
  | tail hcalls hcall ih => exact ih.calls (hconsistent.run hcalls) hcall

theorem ranked_ofSystem {options : Options} (h : ofSystem system options = .ok v)
    (hv : v.Usable system) : v.Ranked system := by
  obtain ⟨coarsest, kept, -, -, rfl⟩ := ofSystem_eq_ok h
  exact hv.ranked rfl rfl rfl

/-! ## Monotonicity -/

/-- Precision is monotone in coverage and in time. Whatever refinements are made for the nodes of a
    space of states of one shape, and whatever happens to the space, a mark is at least that of every
    state that covered its state before: it has all bits, and each part of it is at least as important.
    The same holds for both precisions of a verifier between resets, after any calls on a system that
    conforms to its templates, also of a state that was removed and is stored again under a new
    number. -/
theorem precisions_monotone :
    (∀ t, Precision.Monotone (RecordMark.graded t)) ∧
    (∀ t, Precision.Monotone (StateMark.graded t)) ∧
    ∀ {system : TransitionSystem} {options : Options} {v₀ v w : Verifier}, system.Conforms →
      (∀ m, options.inputPrecision = some m → m.Fits system.inputTemplate.shape) →
      ofSystem system options = .ok v₀ → ReflTransGen Calls v₀ v → ReflTransGen Proceeds v w →
      v.inputPrecision.Grows (RecordMark.graded system.inputTemplate.shape) v.space
          w.inputPrecision w.space ∧
        v.stepPrecision.Grows (StateMark.graded system.stateTemplate.shape) v.space
          w.stepPrecision w.space := by
  refine ⟨fun t => Precision.monotone _, fun t => Precision.monotone _, ?_⟩
  intro system options v₀ v w hsys hinput hstart hcalls hmore
  have hconsistent₀ : v₀.Consistent hsys.contract := consistent_ofSystem hstart hinput
  have hv := (ranked_ofSystem hstart hconsistent₀.toUsable).run hconsistent₀ hcalls
  have hraised : Raised hsys v v := ⟨hconsistent₀.run hcalls, hv, rises_of_same rfl rfl⟩
  have hw := hraised.run hmore
  exact ⟨Precision.grows_of_effective hv.input hw.ranked.input hw.rises.input,
    Precision.grows_of_effective hv.step hw.ranked.step hw.rises.step⟩

/-- A step that refines the inputs of the echo. -/
def insistent : Progress × Verifier := echoed.step 5 {} settableBit

theorem proceeds_insistent : ReflTransGen Proceeds echoed insistent.2 := by
  have hp : Property.parse "EX![bit == 1]" = .ok settableBit := by decide +kernel
  refine .single (.step 5 {} hp ?_)
  have hanswer := step_echoed
  rw [← settableBit] at hanswer
  rw [hanswer]
  exact fun _ h => by cases h

/-- A state that is stored after the one that covered it was removed has the mark of that one, and
    wherever the state of the echo covers one after the refinement, its inputs are told apart no less
    than before. -/
theorem precisions_monotone_comeback :
    (∃ u u' new, Precision.comeback = .ok (u, u') ∧ u'.1.states[1]? = none ∧
      u'.1.states[2]? = some Precision.setBit ∧ u'.2.get u'.1 2 = .ok new ∧
      (RecordMark.graded Record.oneBit.shape).Within ⟨.oneBit, [.scalar ⟨1, .of 1 3⟩]⟩ new) ∧
    ofSystem .echo {} = .ok echo ∧ ReflTransGen Calls echo echoed ∧
    ReflTransGen Proceeds echoed insistent.2 ∧ echoed.space.states[1]? = some Precision.anyBit ∧
    ∀ n st, insistent.2.space.states[n]? = some st → Precision.anyBit.contains st = .ok true →
      ∃ old new, echoed.inputPrecision.get echoed.space 1 = .ok old ∧
        insistent.2.inputPrecision.get insistent.2.space n = .ok new ∧
        (RecordMark.graded Record.oneBit.shape).Within old new := by
  obtain ⟨hmarks, -, hverifier⟩ := precisions_monotone
  refine ⟨?_, ?_⟩
  · -- the marks alone: the report of the run names them, and the general result compares them
    have hreport := Precision.report_comeback
    cases hrun : Precision.comeback with
    | error cause =>
      rw [hrun] at hreport
      cases hreport
    | ok r =>
      obtain ⟨u, u'⟩ := r
      rw [hrun] at hreport
      have hreport := Except.ok.inj hreport
      simp only [Prod.mk.injEq] at hreport
      obtain ⟨hany, hold, hgone, hset⟩ := hreport
      obtain ⟨default, hdefault, hbefore, hafter⟩ := Precision.uses_comeback hrun
      obtain ⟨hgrows, -⟩ := hmarks _ hdefault .empty hbefore hafter
      have hcovers : Precision.anyBit.contains Precision.setBit = .ok true := by decide +kernel
      obtain ⟨old, new, hold', hnew, hwithin⟩ := hgrows.stored hany hset (.inl hcovers)
      obtain rfl := Except.ok.inj (hold'.symm.trans hold)
      exact ⟨u, u', new, rfl, hgone, hset, hnew, hwithin⟩
  · -- a whole verifier, whose run is the one of the echo
    have hstart : ofSystem .echo {} = .ok echo := rfl
    have hbefore : echoed.space.states[1]? = some Precision.anyBit := by decide +kernel
    obtain ⟨hinput, -⟩ :=
      hverifier conforms_echo (fun _ h => by cases h) hstart calls_echo proceeds_insistent
    exact ⟨hstart, calls_echo, proceeds_insistent, hbefore, fun n st hafter hcovers =>
      hinput.stored hbefore hafter (.inl hcovers)⟩

end Verifier

end RefineCheck
