/-
  RefineCheck.Proofs.Verifier.Alike

  Two verifiers side by side. If they differ only in labellings that know nothing yet and in what they
  have counted before, every computation ends the same way on both and leaves such a pair. The
  difference of their counts stays what it was.
-/

import Mathlib
import RefineCheck.Proofs.Labelling.Blank
import RefineCheck.Proofs.Verifier.Loop

namespace RefineCheck

/-! ## Computations side by side -/

namespace VerifyM

variable {α β : Type}

/-- Computations on two verifiers with the same outcome that leave related verifiers. -/
structure Matches (R : Verifier → Verifier → Prop) (x y : VerifyM α) (v w : Verifier) : Prop where
  outcome : (exec x v).1 = (exec y w).1
  left : R (exec x v).2 (exec y w).2

namespace Matches

variable {R : Verifier → Verifier → Prop} {x y : VerifyM α} {f g : α → VerifyM β} {v w : Verifier}

theorem of_pure (h : R v w) (a : α) : Matches R (pure a) (pure a) v w := ⟨rfl, h⟩

theorem of_throw (h : R v w) (stop : Stop) : Matches R (throw stop : VerifyM α) (throw stop) v w :=
  ⟨rfl, h⟩

theorem of_fail (h : R v w) (cause : Failure) : Matches R (fail cause : VerifyM α) (fail cause) v w :=
  ⟨rfl, h⟩

theorem of_modify {p q : Verifier → Verifier} (h : R (p v) (q w)) :
    Matches R (modify p) (modify q) v w := ⟨rfl, h⟩

theorem bind (h : Matches R x y v w) (hf : ∀ {a v w}, R v w → Matches R (f a) (g a) v w) :
    Matches R (x >>= f) (y >>= g) v w := by
  obtain ⟨houtcome, hleft⟩ := h
  rcases hx : exec x v with ⟨r, v'⟩
  rcases hy : exec y w with ⟨r', w'⟩
  rw [hx, hy] at houtcome hleft
  obtain rfl : r = r' := houtcome
  cases r with
  | ok a =>
    obtain ⟨houtcome, hleft⟩ := hf (a := a) hleft
    refine ⟨?_, ?_⟩ <;> rwa [exec_bind_ok hx, exec_bind_ok hy]
  | error stop =>
    refine ⟨?_, ?_⟩ <;> rw [exec_bind_error hx, exec_bind_error hy]
    exact hleft

theorem bind_get {f g : Verifier → VerifyM β} (h : Matches R (f v) (g w) v w) :
    Matches R (get >>= f) (get >>= g) v w := ⟨h.outcome, h.left⟩

theorem bind_set {f g : PUnit → VerifyM β} {v' w' : Verifier} (h : R v' w')
    (hf : ∀ {v w}, R v w → Matches R (f ⟨⟩) (g ⟨⟩) v w) :
    Matches R (set v' >>= f) (set w' >>= g) v w := ⟨(hf h).outcome, (hf h).left⟩

theorem bind_modify {f g : PUnit → VerifyM β} {p q : Verifier → Verifier} (h : R (p v) (q w))
    (hf : ∀ {v w}, R v w → Matches R (f ⟨⟩) (g ⟨⟩) v w) :
    Matches R (modify p >>= f) (modify q >>= g) v w := ⟨(hf h).outcome, (hf h).left⟩

theorem bind_raise {r : Except Fault α} (h : R v w)
    (hf : ∀ {a}, r = .ok a → Matches R (f a) (g a) v w) :
    Matches R (raise r >>= f) (raise r >>= g) v w := by
  cases r with
  | ok a => exact hf rfl
  | error cause => exact ⟨rfl, h⟩

theorem bind_liftM {r : Except Stop α} (h : R v w)
    (hf : ∀ {a}, r = .ok a → Matches R (f a) (g a) v w) :
    Matches R ((liftM r : VerifyM α) >>= f) ((liftM r : VerifyM α) >>= g) v w := by
  cases r with
  | ok a => exact hf rfl
  | error stop => exact ⟨rfl, h⟩

/-- A failure discards both spaces. -/
theorem guarded (h : Matches R x y v w)
    (hinvalidate : ∀ {v w}, R v w → R v.invalidate w.invalidate) :
    Matches R (guarded x) (guarded y) v w := by
  obtain ⟨houtcome, hleft⟩ := h
  rcases hx : exec x v with ⟨r, v'⟩
  rcases hy : exec y w with ⟨r', w'⟩
  rw [hx, hy] at houtcome hleft
  obtain rfl : r = r' := houtcome
  by_cases hcause : ∃ cause, r = .error (.failure cause) ∧ cause ≠ .incomplete
  · obtain ⟨cause, rfl, hne⟩ := hcause
    refine ⟨?_, ?_⟩ <;> rw [exec_guarded_failure hx hne, exec_guarded_failure hy hne]
    exact hinvalidate hleft
  · have hother (cause : Failure) (h : r = .error (.failure cause)) : cause = .incomplete := by
      by_contra hne
      exact hcause ⟨cause, h, hne⟩
    have hgx := exec_guarded_other (x := x) (v := v) fun cause h => hother cause (by rwa [hx] at h)
    have hgy := exec_guarded_other (x := y) (v := w) fun cause h => hother cause (by rwa [hy] at h)
    refine ⟨?_, ?_⟩ <;> rw [hgx, hgy, hx, hy]
    exact hleft

theorem discard (h : Matches R x y v w) : Matches R (discard x) (discard y) v w :=
  bind (f := fun _ => pure ()) (g := fun _ => pure ()) h fun hleft => of_pure hleft ()

end Matches

end VerifyM

/-! ## Verifiers that are alike -/

namespace Counters

/-- What was counted by two verifiers, or by one before and after a time. -/
instance : Add Counters where
  add c d := ⟨c.refinements + d.refinements, c.generatedStates + d.generatedStates,
    c.generatedTransitions + d.generatedTransitions⟩

/-- What was counted since some counts. -/
def since (c start : Counters) : Counters :=
  ⟨c.refinements - start.refinements, c.generatedStates - start.generatedStates,
    c.generatedTransitions - start.generatedTransitions⟩

theorem refinements_add (c d : Counters) : (c + d).refinements = c.refinements + d.refinements := rfl

theorem add_right_comm (c d e : Counters) : c + d + e = c + e + d := by
  show Counters.mk _ _ _ = ⟨_, _, _⟩
  congr 1 <;> exact Nat.add_right_comm _ _ _

theorem add_zero (c : Counters) : c + {} = c := rfl

theorem zero_add (c : Counters) : {} + c = c := by
  show Counters.mk _ _ _ = c
  simp only [Nat.zero_add]

/-- What was counted before counts in no difference. -/
theorem since_add_add (c start d : Counters) : (c + d).since (start + d) = c.since start := by
  show Counters.mk _ _ _ = ⟨_, _, _⟩
  congr 1 <;> exact Nat.add_sub_add_right _ _ _

end Counters

namespace Verifier

open VerifyM (Matches)

/-- Resetting a verifier gives one that starts like another. -/
def Rooted (v₀ v : Verifier) : Prop := v.reset = { v₀ with checker := v.checker.purge }

/-- The verifier with another checker that has counted some more before. -/
def swap (v : Verifier) (d : Counters) (checker : Checker) : Verifier :=
  { v with checker, counters := v.counters + d }

/-- Verifiers that differ only in blank labellings of some properties and by what the first one has
    counted before. -/
inductive Alike (v₀ : Verifier) (S : Set Property) (d : Counters) : Verifier → Verifier → Prop
  | intro {w : Verifier} {c : Checker} : c.Alike S w.checker → Rooted v₀ w →
    Alike v₀ S d (w.swap d c) w

variable {v₀ v w : Verifier} {S : Set Property} {d : Counters} {node : NodeId} {p : Property}
  {culprit : Culprit} {fuel inner : Nat}

namespace Alike

/-! ### What both see -/

theorem system_eq (h : Alike v₀ S d v w) : v.system = w.system := by cases h; rfl

theorem assumeInherent_eq (h : Alike v₀ S d v w) : v.assumeInherent = w.assumeInherent := by
  cases h; rfl

theorem space_eq (h : Alike v₀ S d v w) : v.space = w.space := by cases h; rfl

theorem inputPrecision_eq (h : Alike v₀ S d v w) : v.inputPrecision = w.inputPrecision := by
  cases h; rfl

theorem stepPrecision_eq (h : Alike v₀ S d v w) : v.stepPrecision = w.stepPrecision := by
  cases h; rfl

theorem valid_eq (h : Alike v₀ S d v w) : v.valid = w.valid := by cases h; rfl

theorem pending_eq (h : Alike v₀ S d v w) : v.pending = w.pending := by cases h; rfl

theorem counters_eq (h : Alike v₀ S d v w) : v.counters = w.counters + d := by cases h; rfl

theorem panicMessage_eq (h : Alike v₀ S d v w) : v.panicMessage = w.panicMessage := by cases h; rfl

theorem stats_eq (h : Alike v₀ S d v w) :
    v.stats = { w.stats with counters := w.stats.counters + d } := by cases h; rfl

theorem successors_eq (h : Alike v₀ S d v w) (fuel : Nat) (node : NodeId) :
    v.successors fuel node = w.successors fuel node := by cases h; rfl

theorem improvement?_eq (h : Alike v₀ S d v w) (edges : List (NodeId × StateId)) (later : StateMark)
    (best : Option (NodeId × RecordMark)) :
    v.improvement? edges later best = w.improvement? edges later best := by
  induction edges generalizing later best with
  | nil => rfl
  | cons edge edges ih =>
    cases h
    simp only [improvement?, ih]
    rfl

/-! ### What leaves them alike -/

theorem withSpace (h : Alike v₀ S d v w) (space : Space) :
    Alike v₀ S d { v with space } { w with space } := by
  cases h with
  | @intro w c hc hroot => exact .intro (w := { w with space }) hc hroot

theorem withValid (h : Alike v₀ S d v w) (valid : Bool) :
    Alike v₀ S d { v with valid } { w with valid } := by
  cases h with
  | @intro w c hc hroot => exact .intro (w := { w with valid }) hc hroot

theorem withPending (h : Alike v₀ S d v w) (pending : Option (String × Culprit)) :
    Alike v₀ S d { v with pending } { w with pending } := by
  cases h with
  | @intro w c hc hroot => exact .intro (w := { w with pending }) hc hroot

theorem checker (h : Alike v₀ S d v w) : v.checker.Alike S w.checker := by
  cases h with
  | intro hc _ => exact hc

theorem rooted (h : Alike v₀ S d v w) : Rooted v₀ w := by
  cases h with
  | intro _ hroot => exact hroot

theorem withChecker {c c' : Checker} (h : Alike v₀ S d v w) (hc : c.Alike S c') :
    Alike v₀ S d { v with checker := c } { w with checker := c' } := by
  cases h with
  | @intro w c₁ _ hroot =>
    refine .intro (w := { w with checker := c' }) hc ?_
    have hreset : w.reset = { v₀ with checker := w.checker.purge } := hroot
    show { w.reset with checker := c'.purge } = _
    rw [hreset]

theorem withInput {q : Precision RecordMark} (h : Alike v₀ S d v w)
    (hq : q.reset = w.inputPrecision.reset) :
    Alike v₀ S d { v with inputPrecision := q } { w with inputPrecision := q } := by
  cases h with
  | @intro w c hc hroot =>
    refine .intro (w := { w with inputPrecision := q }) hc ?_
    have hreset : w.reset = { v₀ with checker := w.checker.purge } := hroot
    show { w.reset with inputPrecision := q.reset } = _
    rw [hq]
    exact hreset

theorem withStep {q : Precision StateMark} (h : Alike v₀ S d v w)
    (hq : q.reset = w.stepPrecision.reset) :
    Alike v₀ S d { v with stepPrecision := q } { w with stepPrecision := q } := by
  cases h with
  | @intro w c hc hroot =>
    refine .intro (w := { w with stepPrecision := q }) hc ?_
    have hreset : w.reset = { v₀ with checker := w.checker.purge } := hroot
    show { w.reset with stepPrecision := q.reset } = _
    rw [hq]
    exact hreset

/-- Both count the same. -/
theorem count (h : Alike v₀ S d v w) (e : Counters) :
    Alike v₀ S d { v with counters := v.counters + e } { w with counters := w.counters + e } := by
  cases h with
  | @intro w c hc hroot =>
    -- what was counted before is kept last
    have hswap : ({ w.swap d c with counters := w.counters + d + e } : Verifier) =
        ({ w with counters := w.counters + e } : Verifier).swap d c := by
      rw [Counters.add_right_comm]
      rfl
    exact hswap ▸ .intro hc hroot

theorem invalidate (h : Alike v₀ S d v w) : Alike v₀ S d v.invalidate w.invalidate := by
  cases h with
  | @intro w c hc hroot =>
    have hreset : w.reset = { v₀ with checker := w.checker.purge } := hroot
    refine .intro (w := w.invalidate) hc.purge ?_
    show { w.reset with checker := w.checker.purge.purge } = _
    rw [hreset]
    rfl

/-! ### Generation -/

theorem expand (h : Alike v₀ S d v w) (fuel : Nat) (node : NodeId) :
    Matches (Alike v₀ S d) (expand fuel node) (expand fuel node) v w := by
  rw [Verifier.expand]
  refine .bind_modify (h.count ⟨0, 1, 0⟩) fun {v w} h => .bind_get ?_
  rw [h.space_eq]
  refine .bind_raise h fun {cleared} _ => .bind_modify (h.withSpace cleared.1) fun {v w} h => .bind_get ?_
  rw [h.successors_eq]
  refine .bind_liftM h fun {steps} _ => .bind_get ?_
  rw [h.space_eq]
  refine .bind_raise h fun {grown} _ => ?_
  exact .bind_modify ((h.withSpace grown.1).count ⟨0, 0, steps.length⟩) fun h => .of_pure h _

theorem explore (h : Alike v₀ S d v w) (inner fuel : Nat) (queue : List NodeId)
    (added : List StateId) (changed : List NodeId) :
    Matches (Alike v₀ S d) (explore inner fuel queue added changed)
      (explore inner fuel queue added changed) v w := by
  induction fuel generalizing v w queue added changed with
  | zero =>
    cases queue with
    | nil => exact .of_pure h _
    | cons node queue => exact .of_throw h _
  | succ fuel ih =>
    cases queue with
    | nil => exact .of_pure h _
    | cons node queue =>
      rw [Verifier.explore]
      refine .bind_get ?_
      rw [h.space_eq]
      split
      · exact ih h _ _ _
      · refine (h.expand inner node).bind fun {e v w} h => .bind_get ?_
        rw [h.space_eq]
        exact ih h _ _ _

theorem regenerate (h : Alike v₀ S d v w) (fuel : Nat) (node : NodeId) :
    Matches (Alike v₀ S d) (regenerate fuel node) (regenerate fuel node) v w := by
  rw [Verifier.regenerate]
  refine (h.expand fuel node).bind fun {e v w} h => .bind_get ?_
  rw [h.space_eq]
  refine (h.explore _ _ _ _ _).bind fun {r v w} h => ?_
  refine .bind_modify (h.withChecker (h.checker.declareRegeneration r.1 r.2)) fun {v w} h => .bind_get ?_
  rw [h.space_eq]
  exact .bind_raise h fun _ => .of_pure h _

/-! ### Refinement -/

theorem reset_insert {M : Type} {q q' : Precision M} {s : Space} {mark : M}
    (h : q.insert s node mark = .ok q') : q'.reset = q.reset := by
  rw [Precision.insert] at h
  split at h
  · obtain rfl := Except.ok.inj h
    rfl
  · obtain ⟨state, -, h⟩ := bind_eq_ok.1 h
    obtain rfl := Except.ok.inj h
    rfl

theorem refineOnce (h : Alike v₀ S d v w) (fuel : Nat) (culprit : Culprit) :
    Matches (Alike v₀ S d) (refineOnce fuel culprit) (refineOnce fuel culprit) v w := by
  rw [Verifier.refineOnce]
  refine .bind_get ?_
  rw [h.system_eq]
  refine .bind_raise h fun {mark} _ => ?_
  -- both find the same improvement, as they have the same space and the same precisions
  rw [h.improvement?_eq, h.stepPrecision_eq, h.inputPrecision_eq, h.space_eq]
  refine .bind_liftM h fun {improvement} _ => ?_
  cases improvement with
  | none => exact .of_fail h _
  | some i =>
    cases i with
    | step node mark =>
      exact .bind_raise h fun hq => .bind_modify (h.withStep (reset_insert hq)) fun h =>
        h.regenerate fuel node
    | input node mark =>
      exact .bind_raise h fun hq => .bind_modify (h.withInput (reset_insert hq)) fun h =>
        h.regenerate fuel node

theorem refine (h : Alike v₀ S d v w) (inner : Nat) (culprit : Culprit) (fuel : Nat) :
    Matches (Alike v₀ S d) (refine inner culprit fuel) (refine inner culprit fuel) v w := by
  induction fuel generalizing v w with
  | zero => exact .of_throw h _
  | succ fuel ih =>
    rw [Verifier.refine]
    refine (h.refineOnce inner culprit).bind fun {changed v w} h => ?_
    cases changed with
    | true => exact .of_modify (h.count ⟨1, 0, 0⟩)
    | false => exact ih h

/-! ### Steps -/

theorem collectGarbage (h : Alike v₀ S d v w) :
    Matches (Alike v₀ S d) collectGarbage collectGarbage v w := by
  refine .of_modify ?_
  rw [h.space_eq]
  exact (h.withSpace w.space.collect.1).withChecker (h.checker.removeStates w.space.collect.2)

theorem prepare (h : Alike v₀ S d v w) (fuel : Nat) (p : Property) :
    Matches (Alike v₀ S d) (prepare fuel p) (prepare fuel p) v w := by
  rw [Verifier.prepare]
  refine .bind_get ?_
  have hnone := h.withPending none
  rw [h.valid_eq] at hnone
  rw [h.valid_eq, h.pending_eq]
  split
  · exact ((h.regenerate fuel root).guarded fun h => h.invalidate).discard.bind fun h =>
      .of_modify (h.withValid true)
  · split
    · rename_i key culprit _
      split
      · refine .bind_set hnone fun h => ?_
        exact ((h.refine fuel culprit fuel).guarded fun h => h.invalidate).bind fun h =>
          h.collectGarbage
      · exact .of_pure h _
    · exact .of_pure h _

theorem conclude (h : Alike v₀ S d v w) (hkeys : Set.InjOn Property.key S) (hp : p ∈ S) :
    Matches (Alike v₀ S d) (conclude p) (conclude p) v w := by
  have hcheck := h.checker.check hkeys hp h.space_eq
  rw [Verifier.conclude]
  refine .bind_get ?_
  rcases hv : v.checker.check v.space p with ⟨result, c⟩
  rcases hw : w.checker.check w.space p with ⟨result', c'⟩
  rw [hv, hw] at hcheck
  obtain ⟨rfl, hchecker⟩ : result = result' ∧ c.Alike S c' := hcheck
  refine .bind_set (h.withChecker hchecker) fun {v w} h => ?_
  cases result with
  | error cause =>
    cases cause with
    | fault cause => exact .of_throw h _
    | invalid a cause => exact .of_fail h _
    | lookup cause => exact .of_fail h _
  | ok conclusion =>
    cases conclusion with
    | known value => exact .of_pure h _
    | unknown culprit => exact .bind_modify (h.withPending _) fun h => .of_pure h _
    | notCheckable => exact .of_throw h _

/-- Steps that are interrupted after the same counts, and count their refinements from the same number
    on, up to the difference. -/
theorem pursue (h : Alike v₀ S d v w) (hkeys : Set.InjOn Property.key S) (hp : p ∈ S) (inner : Nat)
    (limits limits' : Limits) (hlimit : limits.refinements = limits'.refinements)
    (hinterrupted : ∀ c, limits.interrupted (c + d) = limits'.interrupted c) (start fuel : Nat) :
    Matches (Alike v₀ S d) (pursue inner limits p (start + d.refinements) fuel)
      (pursue inner limits' p start fuel) v w := by
  induction fuel generalizing v w with
  | zero => exact .of_throw h _
  | succ fuel ih =>
    have hreached (made : Nat) : limits.reached made = limits'.reached made := by
      rw [Limits.reached, Limits.reached, hlimit]
    have hrest {v w : Verifier} (h : Alike v₀ S d v w) :
        Matches (Alike v₀ S d) (do
          Verifier.prepare inner p
          let conclusion ← Verifier.conclude p
          let made := (← get).counters.refinements - (start + d.refinements)
          if conclusion.isKnown || limits.reached made then return conclusion
          else Verifier.pursue inner limits p (start + d.refinements) fuel) (do
          Verifier.prepare inner p
          let conclusion ← Verifier.conclude p
          let made := (← get).counters.refinements - start
          if conclusion.isKnown || limits'.reached made then return conclusion
          else Verifier.pursue inner limits' p start fuel) v w := by
      refine (h.prepare inner p).bind fun {_ v w} h => (h.conclude hkeys hp).bind fun {c v w} h =>
        .bind_get ?_
      dsimp only
      -- refinements made before the steps count in neither start nor end
      rw [h.counters_eq, Counters.refinements_add, Nat.add_sub_add_right, hreached]
      split
      · exact .of_pure h _
      · exact ih h
    rw [Verifier.pursue, Verifier.pursue]
    refine .bind_get ?_
    dsimp only
    rw [h.counters_eq, hinterrupted]
    split
    · exact (Matches.of_fail h _).bind hrest
    · exact hrest h

theorem decideUnless (h : Alike v₀ S d v w) (hkeys : Set.InjOn Property.key S) (hp : p ∈ S)
    (fuel : Nat) (interrupted interrupted' : Counters → Bool)
    (hinterrupted : ∀ c, interrupted (c + d) = interrupted' c) :
    Matches (Alike v₀ S d) (decideUnless fuel interrupted p) (decideUnless fuel interrupted' p) v w := by
  rw [Verifier.decideUnless, Verifier.decideUnless]
  refine .bind_get ?_
  rw [h.counters_eq]
  exact (h.pursue hkeys hp fuel { interrupted } { interrupted := interrupted' } rfl hinterrupted _
    fuel).bind fun h => .of_pure h _

theorem verifyUnless (h : Alike v₀ S d v w) (hkeys : Set.InjOn Property.key S)
    (hinherent : .inherent ∈ S) (hp : p ∈ S) (fuel : Nat) (interrupted interrupted' : Counters → Bool)
    (hinterrupted : ∀ c, interrupted (c + d) = interrupted' c) :
    Matches (Alike v₀ S d) (verifyUnless fuel interrupted p) (verifyUnless fuel interrupted' p) v w := by
  have hdecide {v w : Verifier} (h : Alike v₀ S d v w) := h.decideUnless hkeys hp fuel interrupted interrupted'
    hinterrupted
  rw [Verifier.verifyUnless, Verifier.verifyUnless]
  refine .bind_get ?_
  rw [h.assumeInherent_eq]
  split
  · split
    · exact (Matches.of_fail h _).bind hdecide
    · exact hdecide h
  · split
    · refine (h.decideUnless hkeys hinherent fuel _ _ hinterrupted).bind fun {safe v w} h => ?_
      split
      · refine .bind_get ?_
        rw [h.panicMessage_eq]
        exact (Matches.of_fail h _).bind hdecide
      · exact hdecide h
    · exact hdecide h

theorem regenerateFrom (h : Alike v₀ S d v w) (fuel : Nat) (node : NodeId) :
    Matches (Alike v₀ S d) (regenerateFrom fuel node) (regenerateFrom fuel node) v w := by
  rw [Verifier.regenerateFrom]
  exact ((h.regenerate fuel node).guarded fun h => h.invalidate).bind fun h =>
    .bind_modify (h.withValid true) fun h => .of_pure h _

end Alike

end Verifier

end RefineCheck
