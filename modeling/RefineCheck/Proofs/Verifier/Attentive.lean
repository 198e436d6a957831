/-
  RefineCheck.Proofs.Verifier.Attentive

  Verifiers of any system whose states stand for something, whatever shapes they have. Precisions
  then can fail to be found, which ends a call with a fault. Every other end leaves a verifier whose
  checker knows of all changes, so its verdicts are those of the space.
-/

import Mathlib
import RefineCheck.Proofs.Mark.Enumeration
import RefineCheck.Proofs.Verifier.Informed
import RefineCheck.Proofs.Verifier.Restart

namespace RefineCheck

open Relation (ReflTransGen)

/-! ## Systems whose states stand for something -/

/-- Whether a record stands for some record of words. -/
def Record.Populated (r : Record) : Prop := ∃ c, r.Has c

/-- Whether a state stands for something. Its panic code may have any width. -/
structure State.Populated (s : State) : Prop where
  panic : ∃ x, s.panic.Has x
  result : s.result.Populated

theorem State.Populated.nonempty {s : State} (h : s.Populated) : s.Nonempty :=
  let ⟨_, hpanic⟩ := h.panic
  let ⟨_, hresult⟩ := h.result
  ⟨hpanic.nonempty, hresult.nonempty⟩

/-- Decay loses no member of a state, whatever shape it has. -/
theorem State.Populated.decay {s s' : State} {t : Shape} {m : StateMark} (hs : s.Populated)
    (hm : m.Fits t) (h : m.decay s = .ok s') : s'.Populated := by
  obtain ⟨⟨x, hx⟩, c, hc⟩ := hs
  simp only [StateMark.decay, bind_eq_ok, pure_eq_ok] at h
  obtain ⟨panic, hpanic, result, hresult, rfl⟩ := h
  exact ⟨⟨x, Marking.has_of_decay hpanic hx⟩, c, RecordMark.has_of_decay hm.result hresult hc⟩

/-- A system that makes nothing out of values that stand for something but such values. It may fail,
    and what it returns may have any shape. -/
structure TransitionSystem.Populates (system : TransitionSystem) : Prop where
  init {input : Record} {state : State} : input.Populated → system.init input = .ok state →
    state.Populated
  next {before input : Record} {state : State} : before.Populated → input.Populated →
    system.next before input = .ok state → state.Populated

theorem TransitionSystem.Populates.advance {system : TransitionSystem} {t : Shape}
    {stepMark : StateMark} {current : Option State} {input : Record} {state : State}
    (hsys : system.Populates) (hmark : stepMark.Fits t)
    (hcurrent : ∀ {st}, current = some st → st.Populated) (hinput : input.Populated)
    (h : system.advance stepMark current input = .ok state) : state.Populated := by
  cases current with
  | none =>
    obtain ⟨raw, hinit, hdecay⟩ := bind_eq_ok (f := stepMark.decay).1 h
    exact (hsys.init hinput hinit).decay hmark hdecay
  | some st =>
    obtain ⟨raw, hnext, hdecay⟩ := bind_eq_ok (f := stepMark.decay).1 h
    exact (hsys.next (hcurrent rfl).result hinput hnext).decay hmark hdecay

/-- Whether a call that stops returns: with a failure, or with a fault about the space. -/
def Stop.Returned (stop : Stop) : Prop :=
  (∃ cause, stop = .failure cause) ∨ stop.Spatial

theorem not_returned_exhausted : ¬ Stop.exhausted.Returned := by
  rintro (⟨_, hcause⟩ | hspatial)
  · cases hcause
  · exact hspatial

theorem not_returned_notStored {node : NodeId} : ¬ (Stop.fault (.notStored node)).Returned := by
  rintro (⟨_, hcause⟩ | hspatial)
  · cases hcause
  · exact hspatial

namespace Verifier

open VerifyM (Ensures exec)

variable {system : TransitionSystem} {t : Shape} {v w : Verifier} {node : NodeId} {fuel : Nat}
  {stop : Stop} {text : String} {p : Property} {culprit : Culprit}

/-! ## Attentive verifiers -/

/-- A verifier that can start again: its marks of inputs and those of states have a shape each, and it
    has labellings of properties that were read from a text only. -/
structure Restartable (system : TransitionSystem) (t : Shape) (v : Verifier) : Prop where
  system_eq : v.system = system
  input : v.inputPrecision.Uniform (RecordMark.marks t)
  step : v.stepPrecision.Uniform (StateMark.marks system.stateTemplate.shape)
  legible : v.checker.Legible

/-- A verifier of states that stand for something, whose checker knows of every change. -/
structure Attentive (system : TransitionSystem) (t : Shape) (v : Verifier) : Prop
    extends Restartable system t v where
  built : v.space.Built State.Populated
  informed : v.Informed

theorem Restartable.sameBut (hv : v.Restartable system t) (h : v.SameBut w) : w.Restartable system t := by
  rw [SameBut] at h
  rw [h]
  exact ⟨hv.system_eq, hv.input, hv.step, hv.legible⟩

theorem Restartable.reset (hv : v.Restartable system t) : v.reset.Attentive system t :=
  ⟨⟨hv.system_eq, hv.input.reset, hv.step.reset, hv.legible.purge⟩, .empty,
    .of_purge hv.legible rfl rfl⟩

theorem Restartable.invalidate (hv : v.Restartable system t) : v.invalidate.Attentive system t :=
  ⟨⟨hv.system_eq, hv.input.reset, hv.step.reset, hv.legible.purge⟩, .empty,
    .of_purge hv.legible rfl rfl⟩

/-- A verifier that has generated nothing yet is attentive. -/
theorem attentive_ofSystem {options : Options} (h : ofSystem system options = .ok v)
    (hinput : ∀ m, options.inputPrecision = some m → ∃ t : Shape, m.Fits t) :
    ∃ t, v.Attentive system t := by
  obtain ⟨coarsest, kept, hcoarsest, hkept, hv⟩ := ofSystem_eq_ok h
  have hfits : ∃ t : Shape, (options.inputPrecision.getD coarsest).Fits t := by
    cases hgiven : options.inputPrecision with
    | none => exact ⟨_, RecordMark.fits_unmarked hcoarsest⟩
    | some m => exact hinput m hgiven
  obtain ⟨t, hfits⟩ := hfits
  have hlegible : v.checker.Legible := fun _ _ hl => by simp [hv, Checker.empty] at hl
  have hspace : v.space = .empty := by rw [hv]
  refine ⟨t, ?_, hspace ▸ .empty, .of_purge hlegible hspace (by rw [hv]; rfl)⟩
  rw [hv] at hlegible ⊢
  exact ⟨rfl, Precision.uniform_of_default hfits, Precision.uniform_of_default hkept, hlegible⟩

/-- The precisions have no part in what makes a verifier attentive. -/
theorem Attentive.of_same (hv : v.Attentive system t) (hw : w.Restartable system t)
    (hspace : w.space = v.space) (hchecker : w.checker = v.checker) : w.Attentive system t :=
  ⟨hw, hspace ▸ hv.built, hv.informed.of_same hspace hchecker⟩

/-! ## Ends of computations -/

/-- What is left by a computation that stops and is then guarded: a verifier that can start again after
    a failure, and an attentive one if the guard keeps it. -/
def Salvages (system : TransitionSystem) (t : Shape) (stop : Stop) (w : Verifier) : Prop :=
  ((∃ cause, stop = .failure cause) → w.Restartable system t) ∧
    (stop = .failure .incomplete ∨ stop.Spatial → w.Attentive system t)

/-- What is left by a guarded computation that stops. -/
def Ceases (system : TransitionSystem) (t : Shape) (stop : Stop) (w : Verifier) : Prop :=
  stop.Returned → w.Attentive system t

theorem Attentive.salvages (hw : w.Attentive system t) (stop : Stop) : Salvages system t stop w :=
  ⟨fun _ => hw.toRestartable, fun _ => hw⟩

/-- Nothing is left by a computation that is exhausted or stops with a fault of another kind. -/
theorem salvages_of_not_returned (h : ¬ stop.Returned) : Salvages system t stop w := by
  refine ⟨fun hcause => absurd (.inl hcause) h, fun hor => absurd (hor.imp_left ?_) h⟩
  exact fun hincomplete => ⟨_, hincomplete⟩

theorem ensures_guarded_ceases {α : Type} {x : VerifyM α} {post : α → Verifier → Prop}
    (h : Ensures x v post (Salvages system t)) :
    Ensures (VerifyM.guarded x) v post (Ceases system t) := by
  refine h.guarded (fun {cause w} _ hw _ => (hw.1 ⟨cause, rfl⟩).invalidate)
    fun {stop w} hcause hw hor => hw.2 (hor.imp_left ?_)
  rintro ⟨cause, rfl⟩
  rw [hcause cause rfl]

/-! ## Generation -/

theorem stored_of_stateAt {current : Option State} {st : State} (h : v.stateAt node = .ok current)
    (hst : current = some st) : v.space.states[node]? = some st := by
  subst hst
  rw [stateAt] at h
  split at h
  · cases h
  · rw [Space.state] at h
    cases hstored : v.space.states[node]? with
    | none =>
      rw [hstored] at h
      cases h
    | some st' =>
      rw [hstored] at h
      exact Except.ok.inj h

/-- All states that are computed for a node stand for something. -/
theorem Restartable.populated_of_successors (hsys : system.Populates) (hv : v.Restartable system t)
    (hbuilt : v.space.Built State.Populated) {steps : List (Record × State)}
    (h : v.successors fuel node = .ok steps) :
    ∀ step ∈ steps, step.2.Populated := by
  rw [successors_eq_bind] at h
  simp only [bind_eq_ok] at h
  obtain ⟨inputMark, hin, stepMark, hstep, first, hfirst, inputs, hinputs, current, hcurrent, h⟩ := h
  have hinfits := hv.input.fits_of_get (mapError_eq_ok hin)
  obtain ⟨first', hfirst', henumerate⟩ := RecordMark.enumerate_first hinfits fuel
  obtain rfl := Except.ok.inj (hfirst'.symm.trans (mapError_eq_ok hfirst))
  have hall : RecordMark.Enumerates t inputs := by
    rcases henumerate with ⟨-, hexhausted⟩ | ⟨inputs', hinputs', hall⟩
    · rw [hexhausted] at hinputs
      cases hinputs
    · obtain rfl := Except.ok.inj (hinputs'.symm.trans hinputs)
      exact hall
  rcases v.gather_spec stepMark current node inputs with ⟨causes, hfailure⟩ | ⟨steps', hsteps, rfl, hadvance⟩
  · rw [hfailure] at h
    cases h
  · obtain rfl := Except.ok.inj (hsteps.symm.trans h)
    intro step hmem
    obtain ⟨c, -, hc⟩ := hall.member step.1 (List.mem_map_of_mem hmem)
    have hpopulated {st : State} (hst : current = some st) : st.Populated :=
      hbuilt.good (stored_of_stateAt (mapError_eq_ok hcurrent) hst)
    refine hsys.advance (hv.step.fits_of_get (mapError_eq_ok hstep)) hpopulated ⟨c, hc⟩ ?_
    rw [← hv.system_eq]
    exact hadvance step hmem

/-- A verifier with a space that changed from another one by states that stand for something. -/
structure GrownBy (system : TransitionSystem) (t : Shape) (s : Space) (v : Verifier) : Prop where
  restartable : v.Restartable system t
  built : v.space.Built State.Populated
  run : ReflTransGen (Space.Mutates State.Populated) s v.space

theorem GrownBy.expands (hsys : system.Populates) {s : Space} (hv : v.GrownBy system t s)
    {steps : List (Record × State)} {e : Expansion} (hsucc : v.successors fuel node = .ok steps)
    (h : Expands v node steps e w) : w.GrownBy system t s := by
  have hgrown := h.run (hv.restartable.populated_of_successors hsys hv.built hsucc)
  exact ⟨hv.restartable.sameBut h.frame, hv.built.run hgrown, hv.run.trans hgrown⟩

/-- Generating from a node on declares all that changed, unless a mark cannot be found, the fuel does
    not suffice or the system fails. -/
theorem Attentive.regenerate (hsys : system.Populates) (hv : v.Attentive system t) (fuel : Nat)
    (node : NodeId) : Ensures (regenerate fuel node) v (fun _ w => w.Attentive system t)
      (Salvages system t) := by
  by_cases hnode : v.HasNode node
  · -- whether the assertion at the end holds or not, what was added has been declared
    have hdeclare {u : Verifier} {added changed}
        (hu : Renewed (GrownBy system t v.space) v node u added changed) :
        (u.declare added changed).Attentive system t := by
      have hinformed := hv.informed.declare hu (Space.run_mono hu.invariant.run State.Populated.nonempty)
      have hu := hu.invariant
      exact ⟨⟨hu.restartable.system_eq, hu.restartable.input, hu.restartable.step, hinformed.legible⟩,
        hu.built, hinformed⟩
    -- a failing system leaves the verifier as it was, apart from its counters
    have hfailed {u w : Verifier} {n : NodeId} {stop : Stop} (hstop : u.successors fuel n = .error stop)
        (hframe : v.SameBut w) : Salvages system t stop w := by
      obtain ⟨hspatial, hcauses⟩ := stop_of_successors hstop
      refine ⟨fun _ => hv.toRestartable.sameBut hframe, fun hor => ?_⟩
      obtain ⟨causes, hcause⟩ := hcauses _ (hor.resolve_right hspatial)
      cases hcause
    have hgrown : v.GrownBy system t v.space := ⟨hv.toRestartable, hv.built, .refl⟩
    refine (ensures_regenerate (I := GrownBy system t v.space) ?_ hv.built.valid hnode
      fun hsucc he => hgrown.expands hsys hsucc he).imp ?_ ?_
    · intro v w n steps e hu _ _ _ hsucc he
      exact hu.expands hsys hsucc he
    · rintro b w ⟨u, added, changed, hu, rfl, -⟩
      exact hdeclare hu
    · rintro stop w (⟨hframe, hstop⟩ | ⟨hframe, rfl | ⟨u, n, -, -, -, -, hstop⟩⟩ |
        ⟨u, added, changed, cause, hu, rfl, -, rfl⟩)
      · exact hfailed hstop hframe
      · exact salvages_of_not_returned not_returned_exhausted
      · exact hfailed hstop hframe
      · exact (hdeclare hu).salvages _
  · -- a node that is not stored
    obtain ⟨w, hw, -⟩ := exec_regenerate_of_not_hasNode hnode fuel
    exact .of_error hw (salvages_of_not_returned not_returned_notStored)

/-! ## Refinement -/

theorem Attentive.refined {i : Improvement} (hv : v.Attentive system t) (h : v.Refined i w) :
    w.Attentive system t := by
  cases h with
  | step himproves hinsert =>
    cases himproves with
    | step hold hrefined =>
      exact hv.of_same ⟨hv.system_eq, hv.input, hv.step.insert_refined hold hrefined hinsert,
        hv.legible⟩ rfl rfl
  | input himproves hinsert =>
    cases himproves with
    | input hold hrefined =>
      exact hv.of_same ⟨hv.system_eq, hv.input.insert_refined hold hrefined hinsert, hv.step,
        hv.legible⟩ rfl rfl

theorem Attentive.refineOnce (hsys : system.Populates) (hv : v.Attentive system t) (fuel : Nat)
    (culprit : Culprit) : Ensures (refineOnce fuel culprit) v (fun _ w => w.Attentive system t)
      (Salvages system t) :=
  ensures_refineOnce (fun _ => hv.salvages _) (fun _ _ => hv.salvages _) (hv.salvages _)
    fun _ _ hw => (hv.refined hw).regenerate hsys fuel _

theorem Attentive.refine (hsys : system.Populates) (hv : v.Attentive system t) (inner : Nat)
    (culprit : Culprit) (fuel : Nat) : Ensures (refine inner culprit fuel) v
      (fun _ w => w.Attentive system t) (Salvages system t) := by
  refine (ensures_refine (I := fun _ v => v.Attentive system t) (J := fun v => v.Attentive system t)
    (fun hv => hv.salvages _)
    (fun hv => (hv.refineOnce hsys inner culprit).imp (fun {changed w} hw => ?_) fun h => h) hv).imp
    ?_ fun h => h
  · cases changed <;> exact hw
  · rintro _ _ ⟨u, hu, rfl⟩
    exact hu.of_same ⟨hu.system_eq, hu.input, hu.step, hu.legible⟩ rfl rfl

/-! ## Steps -/

theorem Attentive.collected (hv : v.Attentive system t) : v.collected.Attentive system t :=
  ⟨⟨hv.system_eq, hv.input, hv.step, hv.informed.collected.legible⟩, .collect hv.built,
    hv.informed.collected⟩

theorem Attentive.prepare (hsys : system.Populates) (hv : v.Attentive system t) (fuel : Nat)
    (p : Property) : Ensures (prepare fuel p) v (fun _ w => w.Attentive system t)
      (Ceases system t) := by
  refine ensures_prepare (fun _ => (ensures_guarded_ceases (hv.regenerate hsys fuel root)).imp
    (fun {_ w} hw => ?_) fun h => h) (fun {culprit} _ _ => ?_) fun _ _ => hv
  · exact hw.of_same ⟨hw.system_eq, hw.input, hw.step, hw.legible⟩ rfl rfl
  · have hunset : Attentive system t { v with pending := none } :=
      hv.of_same ⟨hv.system_eq, hv.input, hv.step, hv.legible⟩ rfl rfl
    exact (ensures_guarded_ceases (hunset.refine hsys fuel culprit fuel)).imp
      (fun hw => hw.collected) fun h => h

/-- A check concludes what the space says of the property. -/
theorem Attentive.conclude (hv : v.Attentive system t) (hp : Property.parse text = .ok p) :
    Ensures (conclude p) v
      (fun c w => w.Attentive system t ∧ Checker.Decides w.space p (.ok c)) (Ceases system t) := by
  have hdecides := hv.informed.decides hp
  have hchecked := hv.informed.checked hp
  rcases hcheck : v.checker.check v.space p with ⟨result, checker⟩
  rw [hcheck] at hdecides hchecked
  have hw : Attentive system t { v with checker } :=
    ⟨⟨hv.system_eq, hv.input, hv.step, hchecked.legible⟩, hv.built, hchecked⟩
  refine ensures_conclude hcheck (fun _ _ => hw) (fun _ _ => hw) ?_ ?_ fun _ _ => hw
  · rintro value rfl
    exact ⟨hw, hdecides⟩
  · rintro culprit rfl
    exact ⟨hw.of_same ⟨hw.system_eq, hw.input, hw.step, hw.legible⟩ rfl rfl, hdecides⟩

theorem Attentive.pursue (hsys : system.Populates) (hv : v.Attentive system t)
    (hp : Property.parse text = .ok p) (inner : Nat) (limits : Limits) (start fuel : Nat) :
    Ensures (pursue inner limits p start fuel) v
      (fun c w => w.Attentive system t ∧ Checker.Decides w.space p (.ok c) ∧
        (limits.refinements < 0 → c.isKnown = true)) (Ceases system t) := by
  refine ensures_pursue (I := fun _ v => v.Attentive system t) (fun hv _ => hv) (fun hv _ => hv)
    (fun hv => .bind (hv.prepare hsys inner p) fun hw => (hw.conclude hp).imp
      (fun hw => ⟨fun hdone => ⟨hw.1, hw.2, fun hunlimited => ?_⟩, fun _ => hw.1⟩) fun h => h) hv
  exact hdone.resolve_right (not_le.2 hunlimited)

/-- A search without a limit ends with what the space says of the property. -/
theorem Attentive.decideUnless (hsys : system.Populates) (hv : v.Attentive system t)
    (hp : Property.parse text = .ok p) (fuel : Nat) (interrupted : Counters → Bool) :
    Ensures (decideUnless fuel interrupted p) v
      (fun value w => w.Attentive system t ∧ Checker.Decides w.space p (.ok (.known value)))
      (Ceases system t) := by
  refine .bind_get (.bind (hv.pursue hsys hp fuel { interrupted } _ fuel) fun {c w} hw => .of_pure ?_)
  obtain ⟨hw, hdecides, hknown⟩ := hw
  cases c with
  | known value => exact ⟨hw, hdecides⟩
  | unknown _ | notCheckable => cases hknown (show (-1 : Int) < 0 by decide)

theorem Attentive.verifyUnless (hsys : system.Populates) (hv : v.Attentive system t)
    (hp : Property.parse text = .ok p) (fuel : Nat) (interrupted : Counters → Bool) :
    Ensures (verifyUnless fuel interrupted p) v (fun _ w => w.Attentive system t)
      (Ceases system t) :=
  ensures_verify (fun hv _ => hv) (fun hv _ => hv)
    (fun hv => (hv.decideUnless hsys parse_inherent fuel interrupted).imp And.left fun h => h)
    (fun hv => (hv.decideUnless hsys hp fuel interrupted).imp And.left fun h => h) hv

theorem Attentive.regenerateFrom (hsys : system.Populates) (hv : v.Attentive system t) (fuel : Nat)
    (node : NodeId) : Ensures (regenerateFrom fuel node) v (fun _ w => w.Attentive system t)
      (Ceases system t) := by
  refine .bind (ensures_guarded_ceases (hv.regenerate hsys fuel node)) fun {b w} hw =>
    .bind_modify (.of_pure ?_)
  exact hw.of_same ⟨hw.system_eq, hw.input, hw.step, hw.legible⟩ rfl rfl

/-! ## Calls -/

/-- A call about no property but one that was read from a text, which has returned, or a reset. -/
inductive Consults : Verifier → Verifier → Prop
  | call (v : Verifier) {call : Call} : call.Within {p | ∃ text, Property.parse text = .ok p} →
    (∀ stop, (call.perform v).1.stop? = some stop → stop.Returned) → Consults v (call.perform v).2
  | reset (v : Verifier) : Consults v v.reset

theorem attentive_of_ensures {α : Type} {x : VerifyM α} {post : α → Verifier → Prop}
    (h : Ensures x v post (Ceases system t)) (hpost : ∀ {a w}, post a w → w.Attentive system t)
    (hreturned : ∀ stop, (exec x v).1 = .error stop → stop.Returned) :
    (exec x v).2.Attentive system t := by
  rcases hrun : exec x v with ⟨r, w⟩
  rw [hrun] at hreturned
  cases r with
  | ok a => exact hpost (h.ok hrun)
  | error stop => exact h.error hrun (hreturned stop rfl)

theorem Attentive.consults (hsys : system.Populates) (hv : v.Attentive system t)
    (h : Consults v w) : w.Attentive system t := by
  cases h with
  | reset => exact hv.toRestartable.reset
  | @call call hwithin hreturned =>
    cases call with
    | step fuel limit interrupted p =>
      obtain ⟨text, hp⟩ := hwithin
      have hensures := hv.pursue hsys hp fuel ⟨limit, fun c => interrupted (c.since v.counters)⟩
        v.counters.refinements fuel
      show Attentive system t (exec (Verifier.pursue _ _ _ _ _) v).2
      exact attentive_of_ensures hensures And.left fun stop hstop =>
        hreturned stop (congrArg (Reply.stop? ∘ Reply.progress _) hstop)
    | verify fuel interrupted p =>
      obtain ⟨text, hp⟩ := hwithin
      have hensures := hv.verifyUnless hsys hp fuel fun c => interrupted (c.since v.counters)
      show Attentive system t (exec (Verifier.verifyUnless _ _ _) v).2
      exact attentive_of_ensures hensures id fun stop hstop =>
        hreturned stop (congrArg (Reply.stop? ∘ Reply.verdict) hstop)
    | regenerate fuel node =>
      have hensures := hv.regenerateFrom hsys fuel node
      show Attentive system t (exec (Verifier.regenerateFrom _ _) v).2
      exact attentive_of_ensures hensures id fun stop hstop =>
        hreturned stop (congrArg (Reply.stop? ∘ Reply.changed) hstop)

/-- Every sequence of calls leaves an attentive verifier. -/
theorem Attentive.run (hsys : system.Populates) (hv : v.Attentive system t)
    (h : ReflTransGen Consults v w) : w.Attentive system t := by
  induction h with
  | refl => exact hv
  | tail _ hcall ih => exact ih.consults hsys hcall

end Verifier

end RefineCheck
