/-
  RefineCheck.Proofs.Verifier.Loop

  The loops of a verifier as rules: what each of them ensures follows from what one round does. A
  refinement gives one node a more precise mark and generates from that node on, a step prepares the
  space and checks the property, and a verification steps until the property is known.
-/

import Mathlib
import RefineCheck.Proofs.Precision
import RefineCheck.Proofs.Verifier.Expansion

namespace RefineCheck.Verifier

open VerifyM (Ensures)

/-- The node that gets a more precise mark. -/
def Improvement.node : Improvement → NodeId
  | .step node _ | .input node _ => node

variable {v w : Verifier} {node : NodeId} {p : Property} {culprit : Culprit} {fuel inner : Nat}
  {i : Improvement}

/-- A new verifier has generated nothing yet, and no node has marks of its own. -/
theorem ofSystem_eq_ok {system : TransitionSystem} {options : Options}
    (h : ofSystem system options = .ok v) :
    ∃ (coarsest : RecordMark) (kept : StateMark),
      RecordMark.unmarked system.inputTemplate = .ok coarsest ∧
      kept.Fits system.stateTemplate.shape ∧
      v = { system, assumeInherent := options.assumeInherent,
            inputPrecision := ⟨options.inputPrecision.getD coarsest, {}⟩,
            stepPrecision := ⟨kept, {}⟩ } := by
  rw [ofSystem, bind_eq_ok] at h
  obtain ⟨coarsest, hcoarsest, h⟩ := h
  split at h
  · obtain ⟨kept, hkept, h⟩ := bind_eq_ok.1 h
    exact ⟨coarsest, kept, hcoarsest, StateMark.fits_unmarked hkept, (Except.ok.inj h).symm⟩
  · obtain ⟨kept, hkept, h⟩ := bind_eq_ok.1 h
    exact ⟨coarsest, kept, hcoarsest, StateMark.fits_all hkept, (Except.ok.inj h).symm⟩

/-! ## Refinement of one mark -/

/-- A more precise mark comes from the one that its node has. -/
inductive Improves (v : Verifier) : Improvement → Prop
  | step {node : NodeId} {old offer mark : StateMark} : v.stepPrecision.get v.space node = .ok old →
    old.refine? offer = .ok (some mark) → Improves v (.step node mark)
  | input {node : NodeId} {old offer mark : RecordMark} :
    v.inputPrecision.get v.space node = .ok old → old.refine? offer = .ok (some mark) →
    Improves v (.input node mark)

/-- The best mark of inputs after one more edge. -/
def afterEdge (best : Option (NodeId × RecordMark)) (node : NodeId) (refined : Option RecordMark) :
    Option (NodeId × RecordMark) :=
  match refined with
  | some mark => some (preferred best node mark)
  | none => best

/-- The best mark after an edge is the one before it or that of the edge. -/
theorem afterEdge_eq_some {best : Option (NodeId × RecordMark)} {refined : Option RecordMark}
    {n : NodeId} {m : RecordMark} (h : afterEdge best node refined = some (n, m)) :
    best = some (n, m) ∨ n = node ∧ refined = some m := by
  cases refined with
  | none => exact .inl h
  | some mark =>
    rw [afterEdge, preferred.eq_def] at h
    cases best with
    | none =>
      obtain ⟨rfl, rfl⟩ := Prod.mk.inj (Option.some.inj h)
      exact .inr ⟨rfl, rfl⟩
    | some pair =>
      simp only at h
      split at h
      · obtain ⟨rfl, rfl⟩ := Prod.mk.inj (Option.some.inj h)
        exact .inr ⟨rfl, rfl⟩
      · exact .inl h

/-- The walk after an edge: it ends at the root. -/
def walkOn (v : Verifier) (edges : List (NodeId × StateId)) (before : Option RecordMark)
    (best : Option (NodeId × RecordMark)) : Except Stop (Option Improvement) :=
  match before with
  | none => .ok (best.map fun b => .input b.1 b.2)
  | some before => v.improvement? edges ⟨⟨panicWidth, .unmarked panicWidth⟩, before⟩ best

/-- What a walk finds at its first edge: a refinement of the step mark by the mark after the edge, or
    else one of the input mark by what the system asks for. -/
theorem improvement?_cons {state : StateId} {edges : List (NodeId × StateId)} {later : StateMark}
    {best : Option (NodeId × RecordMark)} {r : Option Improvement}
    (h : v.improvement? ((node, state) :: edges) later best = .ok r) :
    (∃ old mark, r = some (.step node mark) ∧ v.stepPrecision.get v.space node = .ok old ∧
      old.refine? later = .ok (some mark)) ∨
    ∃ input before offer old refined, v.space.input? node state = some input ∧
      v.marksAt node input later = .ok (before, offer) ∧
      v.inputPrecision.get v.space node = .ok old ∧ old.refine? offer = .ok refined ∧
      v.walkOn edges before (afterEdge best node refined) = .ok r := by
  rw [improvement?] at h
  simp only [bind_eq_ok] at h
  obtain ⟨old, hold, refined, hrefined, h⟩ := h
  cases refined with
  | some mark =>
    obtain rfl := Except.ok.inj h
    exact .inl ⟨old, mark, rfl, mapError_eq_ok hold, mapError_eq_ok hrefined⟩
  | none =>
    cases hinput : v.space.input? node state with
    | none =>
      simp only [hinput] at h
      cases h
    | some input =>
      simp only [hinput, pure_ok, ok_bind, bind_eq_ok] at h
      obtain ⟨⟨before, offer⟩, hmarks, old, hold, refined, hrefined, h⟩ := h
      exact .inr ⟨input, before, offer, old, refined, rfl, mapError_eq_ok hmarks,
        mapError_eq_ok hold, mapError_eq_ok hrefined, h⟩

/-- Whether a best mark of inputs is more precise than the one of its node. -/
def BestImproves (v : Verifier) (best : Option (NodeId × RecordMark)) : Prop :=
  ∀ n m, best = some (n, m) → v.Improves (.input n m)

theorem BestImproves.afterEdge {best : Option (NodeId × RecordMark)} {old offer : RecordMark}
    {refined : Option RecordMark} (hbest : v.BestImproves best)
    (hold : v.inputPrecision.get v.space node = .ok old)
    (hrefined : old.refine? offer = .ok refined) :
    v.BestImproves (afterEdge best node refined) := by
  intro n m hnm
  rcases afterEdge_eq_some hnm with hnm | ⟨rfl, rfl⟩
  · exact hbest n m hnm
  · exact .input hold hrefined

theorem improves_of_improvement? {edges : List (NodeId × StateId)} {later : StateMark}
    {best : Option (NodeId × RecordMark)} {i : Improvement} (hbest : v.BestImproves best)
    (h : v.improvement? edges later best = .ok (some i)) : v.Improves i := by
  have hlast {best : Option (NodeId × RecordMark)} (hbest : v.BestImproves best)
      (h : best.map (fun b => Improvement.input b.1 b.2) = some i) : v.Improves i := by
    obtain ⟨⟨n, m⟩, hnm, rfl⟩ := Option.map_eq_some_iff.1 h
    exact hbest _ _ hnm
  induction edges generalizing later best with
  | nil => exact hlast hbest (Except.ok.inj h)
  | cons edge edges ih =>
    rcases improvement?_cons h with ⟨old, mark, hmark, hold, hrefined⟩ |
      ⟨input, before, offer, old, refined, -, -, hold, hrefined, hrest⟩
    · obtain rfl := Option.some.inj hmark
      exact .step hold hrefined
    · have hbest' := hbest.afterEdge hold hrefined
      cases before with
      | none => exact hlast hbest' (Except.ok.inj hrest)
      | some before => exact ih hbest' hrest

/-- A verifier in which one node has a more precise mark. -/
inductive Refined (v : Verifier) : Improvement → Verifier → Prop
  | step {node : NodeId} {mark : StateMark} {stepPrecision : Precision StateMark} :
    v.Improves (.step node mark) → v.stepPrecision.insert v.space node mark = .ok stepPrecision →
    Refined v (.step node mark) { v with stepPrecision }
  | input {node : NodeId} {mark : RecordMark} {inputPrecision : Precision RecordMark} :
    v.Improves (.input node mark) → v.inputPrecision.insert v.space node mark = .ok inputPrecision →
    Refined v (.input node mark) { v with inputPrecision }

/-- Nothing but the precisions changed. -/
theorem Refined.frame (h : v.Refined i w) :
    w = { v with inputPrecision := w.inputPrecision, stepPrecision := w.stepPrecision } := by
  cases h <;> rfl

theorem hasNode_of_get {M : Type} [Refinable M] {q : Precision M} {m : M}
    (h : q.get v.space node = .ok m) : v.HasNode node := by
  by_cases hroot : node = root
  · exact .inl hroot
  · rw [Precision.get, if_neg hroot, bind_eq_ok] at h
    obtain ⟨st, hst, -⟩ := h
    rw [Space.state] at hst
    split at hst
    · rename_i state hstate
      exact .inr (Space.contains_iff.2 ⟨state, hstate⟩)
    · cases hst

theorem Refined.hasNode (h : v.Refined i w) : v.HasNode i.node := by
  cases h with
  | step himproves _ => cases himproves with | step hold _ => exact hasNode_of_get hold
  | input himproves _ => cases himproves with | input hold _ => exact hasNode_of_get hold

/-- A refinement walks the path of the culprit and generates from the node on that gets a more
    precise mark. -/
theorem ensures_refineOnce {post : Bool → Verifier → Prop} {stops : Stop → Verifier → Prop}
    (hmark : ∀ {cause}, culpritMark v.system.stateTemplate culprit.atomic = .error cause →
      stops (.fault cause) v)
    (hwalk : ∀ {mark stop}, culpritMark v.system.stateTemplate culprit.atomic = .ok mark →
      v.improvement? (edgesBack culprit.path) mark none = .error stop → stops stop v)
    (hincomplete : stops (.failure .incomplete) v)
    (hrefined : ∀ {mark i w}, culpritMark v.system.stateTemplate culprit.atomic = .ok mark →
      v.improvement? (edgesBack culprit.path) mark none = .ok (some i) → v.Refined i w →
      Ensures (regenerate fuel i.node) w post stops) :
    Ensures (refineOnce fuel culprit) v post stops := by
  rw [refineOnce]
  refine .bind_get (.bind_raise (fun {mark} hmarked => .bind_liftM (fun {i} hi => ?_)
    fun hstop => hwalk hmarked hstop) fun herror => hmark herror)
  cases i with
  | none => exact .of_fail hincomplete
  | some i =>
    have himproves := improves_of_improvement? (fun _ _ h => by cases h) hi
    -- a mark may be stored for every node that has one
    have hinsert {M : Type} {q : Precision M} {node : NodeId} {m : M} {cause : Fault}
        (hnode : v.HasNode node) (h : q.insert v.space node m = .error cause) :
        stops (.fault cause) v := by
      obtain ⟨q', hq'⟩ := q.insert_ok hnode m
      rw [h] at hq'
      cases hq'
    cases i with
    | step node mark =>
      have hnext {w : Verifier} (h : v.Refined (.step node mark) w) :
          Ensures (regenerate fuel (Improvement.step node mark).node) w post stops :=
        hrefined hmarked hi h
      refine .bind_raise (fun hok => .bind_modify (hnext (.step himproves hok))) fun herror => ?_
      cases himproves with | step hold _ => exact hinsert (hasNode_of_get hold) herror
    | input node mark =>
      have hnext {w : Verifier} (h : v.Refined (.input node mark) w) :
          Ensures (regenerate fuel (Improvement.input node mark).node) w post stops :=
        hrefined hmarked hi h
      refine .bind_raise (fun hok => .bind_modify (hnext (.input himproves hok))) fun herror => ?_
      cases himproves with | input hold _ => exact hinsert (hasNode_of_get hold) herror

/-! ## Refinement until the space changes -/

/-- A verifier that has counted a refinement. -/
def counted (v : Verifier) : Verifier :=
  { v with counters.refinements := v.counters.refinements + 1 }

/-- The conditions may depend on the fuel that is left. -/
theorem ensures_refine {I : Nat → Verifier → Prop} {J : Verifier → Prop}
    {stops : Stop → Verifier → Prop} (hexhausted : ∀ {v}, I 0 v → stops .exhausted v)
    (honce : ∀ {n v}, I (n + 1) v → Ensures (refineOnce inner culprit) v
      (fun changed w => if changed then J w else I n w) stops) (hv : I fuel v) :
    Ensures (refine inner culprit fuel) v (fun _ w => ∃ u, J u ∧ w = u.counted) stops := by
  induction fuel generalizing v with
  | zero => exact .of_throw (hexhausted hv)
  | succ fuel ih =>
    rw [refine]
    refine .bind (honce hv) fun {changed w} hw => ?_
    cases changed with
    | true => exact .of_ok (VerifyM.exec_modify _ w) ⟨w, hw, rfl⟩
    | false => exact ih hw

/-! ## Steps -/

/-- A verifier whose unreachable states were removed, if there were many. -/
def collected (v : Verifier) : Verifier :=
  { v with space := v.space.collect.1, checker := v.checker.removeStates v.space.collect.2 }

/-- A step generates the space if there is none, refines it if the property was left unknown, and
    else leaves it. -/
theorem ensures_prepare {post : Verifier → Prop} {stops : Stop → Verifier → Prop}
    (hgenerate : v.valid = false → Ensures (VerifyM.guarded (regenerate fuel root)) v
      (fun _ w => post { w with valid := true }) stops)
    (hrefine : ∀ {culprit}, v.valid = true → v.pending = some (p.key, culprit) →
      Ensures (VerifyM.guarded (refine fuel culprit fuel)) { v with pending := none }
        (fun _ w => post w.collected) stops)
    (hskip : v.valid = true → (∀ culprit, v.pending ≠ some (p.key, culprit)) → post v) :
    Ensures (prepare fuel p) v (fun _ w => post w) stops := by
  rw [prepare]
  refine .bind_get ?_
  by_cases hvalid : v.valid = true
  · rw [if_neg (by simp [hvalid])]
    cases hpending : v.pending with
    | none => exact .of_pure (hskip hvalid fun _ h => by simp [hpending] at h)
    | some pair =>
      obtain ⟨key, culprit⟩ := pair
      dsimp only
      split
      · rename_i hkey
        refine .bind_set (.bind (hrefine hvalid (hkey ▸ hpending)) fun {_ w} hw => ?_)
        exact .of_ok (VerifyM.exec_modify _ w) hw
      · rename_i hkey
        refine .of_pure (hskip hvalid fun other h => hkey ?_)
        exact (Prod.mk.inj (Option.some.inj (hpending.symm.trans h))).1
  · rw [Bool.not_eq_true] at hvalid
    rw [if_pos (by simp [hvalid])]
    refine .bind (hgenerate hvalid).discard fun {_ w} hw => ?_
    exact .of_ok (VerifyM.exec_modify _ w) hw

/-- A check leaves the space alone, and remembers the culprit of an unknown property. -/
theorem ensures_conclude {post : Conclusion → Verifier → Prop} {stops : Stop → Verifier → Prop}
    {result : Except CheckError Conclusion} {checker : Checker}
    (hcheck : v.checker.check v.space p = (result, checker))
    (hfault : ∀ {cause}, result = .error (.fault cause) → stops (.fault cause) { v with checker })
    (hfailure : ∀ {cause}, result = .error cause → stops (.failure (.check cause)) { v with checker })
    (hknown : ∀ {value}, result = .ok (.known value) → post (.known value) { v with checker })
    (hunknown : ∀ {culprit}, result = .ok (.unknown culprit) →
      post (.unknown culprit) { v with checker, pending := some (p.key, culprit) })
    (hdead : result = .ok .notCheckable → stops (.fault (.notLeftTotal p.text)) { v with checker }) :
    Ensures (conclude p) v post stops := by
  rw [conclude]
  refine .bind_get ?_
  rw [hcheck]
  refine .bind_set ?_
  cases result with
  | error cause =>
    cases cause with
    | fault cause => exact .of_throw (hfault rfl)
    | invalid a cause => exact .of_fail (hfailure rfl)
    | lookup cause => exact .of_fail (hfailure rfl)
  | ok c =>
    cases c with
    | known value => exact .of_pure (hknown rfl)
    | unknown culprit => exact .bind_modify (.of_pure (hunknown rfl))
    | notCheckable => exact .of_throw (hdead rfl)

/-- Steps keep what preparing and checking keep, and end with what a check concludes: with a value, or
    with any conclusion if the refinements are limited. -/
theorem ensures_pursue {I : Nat → Verifier → Prop} {post : Conclusion → Verifier → Prop}
    {stops : Stop → Verifier → Prop} {limits : Limits} {start : Nat}
    (hexhausted : ∀ {v}, I 0 v → stops .exhausted v)
    (hcanceled : ∀ {n v}, I n v → stops (.failure .canceled) v)
    (hround : ∀ {n v}, I (n + 1) v → Ensures (do prepare inner p; conclude p) v
      (fun c w => (c.isKnown = true ∨ 0 ≤ limits.refinements → post c w) ∧
        (c.isKnown = false → I n w)) stops) (hv : I fuel v) :
    Ensures (pursue inner limits p start fuel) v post stops := by
  -- the fuel is the number of the steps that are left
  induction fuel generalizing v with
  | zero => exact .of_throw (hexhausted hv)
  | succ fuel ih =>
    have hbind : pursue inner limits p start (fuel + 1) = (do
        if limits.interrupted (← get).counters then VerifyM.fail .canceled
        let conclusion ← (do prepare inner p; conclude p)
        let made := (← get).counters.refinements - start
        if conclusion.isKnown || limits.reached made then return conclusion
        else pursue inner limits p start fuel) := by
      simp only [pursue, bind_assoc]
    rw [hbind]
    refine .bind_get ?_
    dsimp only
    split
    · exact .bind_fail (hcanceled hv)
    · refine .bind (hround hv) fun {c w} hw => .bind_get ?_
      split
      · -- the loop ends with a value, or with what there is once the refinements reach their limit
        rename_i hdone
        rw [Limits.reached, Bool.or_eq_true, Bool.and_eq_true, decide_eq_true_eq] at hdone
        exact .of_pure (hw.1 (hdone.imp_right And.left))
      · rename_i hgo
        rw [Bool.or_eq_true, not_or, Bool.not_eq_true] at hgo
        exact ih (hw.2 hgo.1)

/-- The inherent property is decided first, unless it is assumed or asked for. -/
theorem ensures_verify {I : Verifier → Prop} {stops : Stop → Verifier → Prop}
    {interrupted : Counters → Bool}
    (hassumed : ∀ {v}, I v → stops (.failure .inherentAssumed) v)
    (hpanic : ∀ {v message}, I v → stops (.failure (.inherentPanic message)) v)
    (hinherent : ∀ {v}, I v →
      Ensures (decideUnless fuel interrupted .inherent) v (fun _ w => I w) stops)
    (hdecide : ∀ {v}, I v → Ensures (decideUnless fuel interrupted p) v (fun _ w => I w) stops)
    (hv : I v) : Ensures (verifyUnless fuel interrupted p) v (fun _ w => I w) stops := by
  rw [verifyUnless]
  refine .bind_get ?_
  dsimp only
  split
  · split
    · exact .bind_fail (hassumed hv)
    · exact hdecide hv
  · split
    · refine .bind (hinherent hv) fun {safe w} hw => ?_
      split
      · exact .bind_get (.bind_fail (hpanic hw))
      · exact hdecide hw
    · exact hdecide hv

end RefineCheck.Verifier
