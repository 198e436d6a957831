/-
  RefineCheck.Proofs.Verifier.Fuel

  Fuel decides only whether a computation comes to its end. One that does has the same outcome,
  and leaves the same verifier, with any more fuel.
-/

import RefineCheck.Proofs.Verifier.Run
import RefineCheck.Session.Protocol

namespace RefineCheck

variable {α β : Type}

/-! ## Running out of fuel -/

/-- Whether a result is another one, unless it ran out of fuel. -/
def Stop.Approximates (x y : Except Stop α) : Prop := x = .error .exhausted ∨ y = x

namespace Stop.Approximates

variable {x y : Except Stop α} {f g : α → Except Stop β}

theorem refl (x : Except Stop α) : Approximates x x := .inr rfl

theorem of_exhausted (y : Except Stop α) : Approximates (throw .exhausted) y := .inl rfl

theorem bind (h : Approximates x y) (hf : ∀ a, Approximates (f a) (g a)) :
    Approximates (x >>= f) (y >>= g) := by
  rcases h with rfl | rfl
  · exact .inl rfl
  · cases y with
    | ok a => exact hf a
    | error stop => exact .refl _

end Stop.Approximates

namespace VerifyM

/-- Whether a computation does what another one does, unless it runs out of fuel. -/
def Approximates (x y : VerifyM α) : Prop :=
  ∀ v, (exec x v).1 = .error .exhausted ∨ exec y v = exec x v

namespace Approximates

variable {x y : VerifyM α} {f g : α → VerifyM β}

theorem refl (x : VerifyM α) : Approximates x x := fun _ => .inr rfl

theorem of_exhausted (y : VerifyM α) : Approximates (throw .exhausted) y := fun _ => .inl rfl

theorem liftM {r r' : Except Stop α} (h : Stop.Approximates r r') :
    Approximates (liftM r) (liftM r') := by
  intro v
  rw [exec_liftM, exec_liftM]
  rcases h with rfl | rfl
  · exact .inl rfl
  · exact .inr rfl

theorem bind (h : Approximates x y) (hf : ∀ a, Approximates (f a) (g a)) :
    Approximates (x >>= f) (y >>= g) := by
  intro v
  have hv := h v
  rcases hx : exec x v with ⟨r, w⟩
  rw [hx] at hv
  cases r with
  | ok a =>
    rw [exec_bind_ok hx, exec_bind_ok (hv.resolve_left error_ne_ok.symm)]
    exact hf a w
  | error stop =>
    rw [exec_bind_error hx]
    rcases hv with hstop | hy
    · obtain rfl := Except.error.inj hstop
      exact .inl rfl
    · exact .inr (exec_bind_error hy)

theorem discard (h : Approximates x y) : Approximates (discard x) (discard y) :=
  bind (f := fun _ => pure ()) (g := fun _ => pure ()) h fun _ => refl _

/-- A guard lets a computation that runs out of fuel do so. -/
theorem guarded (h : Approximates x y) : Approximates (guarded x) (guarded y) := by
  intro v
  rcases h v with hx | hxy
  · left
    rw [exec_guarded_other fun cause hc => by rw [hx] at hc; cases hc]
    exact hx
  · right
    -- what is raised again depends on the outcome alone
    rcases hx : exec x v with ⟨_ | _, w⟩
    · rw [VerifyM.guarded, VerifyM.guarded, exec_tryCatch_error hx,
        exec_tryCatch_error (hxy.trans hx)]
    · rw [VerifyM.guarded, VerifyM.guarded, exec_tryCatch_ok hx, exec_tryCatch_ok (hxy.trans hx)]

end Approximates

end VerifyM

namespace Verifier

open VerifyM

variable {v : Verifier} {inner inner' fuel fuel' : Nat} {p : Property}

/-! ## Generation and refinement -/

theorem enumerate_approximates {mark : RecordMark} (h : fuel ≤ fuel') (input : Record) :
    Stop.Approximates (enumerate mark fuel input) (enumerate mark fuel' input) := by
  induction fuel generalizing fuel' input with
  | zero => exact .of_exhausted _
  | succ fuel ih =>
    obtain ⟨fuel', rfl⟩ : ∃ k, fuel' = k + 1 := ⟨fuel' - 1, by omega⟩
    simp only [enumerate]
    split
    · exact .refl _
    · exact .refl _
    · exact (ih (by omega) _).bind fun _ => .refl _

theorem successors_approximates (h : fuel ≤ fuel') (node : NodeId) :
    Stop.Approximates (v.successors fuel node) (v.successors fuel' node) := by
  refine (Stop.Approximates.refl _).bind fun inputMark => (Stop.Approximates.refl _).bind
    fun stepMark => (Stop.Approximates.refl _).bind fun first => ?_
  exact (enumerate_approximates h first).bind fun inputs => .refl _

theorem expand_approximates (h : fuel ≤ fuel') (node : NodeId) :
    Approximates (expand fuel node) (expand fuel' node) := by
  refine (Approximates.refl _).bind fun _ => (Approximates.refl _).bind fun v =>
    (Approximates.refl _).bind fun cleared => (Approximates.refl _).bind fun _ =>
    (Approximates.refl _).bind fun w => ?_
  exact (Approximates.liftM (successors_approximates h node)).bind fun steps => .refl _

theorem explore_approximates (hinner : inner ≤ inner') (h : fuel ≤ fuel') (queue : List NodeId)
    (added : List StateId) (changed : List NodeId) :
    Approximates (explore inner fuel queue added changed)
      (explore inner' fuel' queue added changed) := by
  induction fuel generalizing fuel' queue added changed with
  | zero =>
    cases queue with
    | nil => cases fuel' <;> exact .refl _
    | cons node queue => exact .of_exhausted _
  | succ fuel ih =>
    obtain ⟨fuel', rfl⟩ : ∃ k, fuel' = k + 1 := ⟨fuel' - 1, by omega⟩
    cases queue with
    | nil => exact .refl _
    | cons node queue =>
      simp only [explore]
      refine (Approximates.refl _).bind fun v => ?_
      split
      · exact ih (by omega) _ _ _
      · exact (expand_approximates hinner node).bind fun e => (Approximates.refl _).bind fun w =>
          ih (by omega) _ _ _

theorem regenerate_approximates (h : fuel ≤ fuel') (node : NodeId) :
    Approximates (regenerate fuel node) (regenerate fuel' node) :=
  (expand_approximates h node).bind fun _ => (Approximates.refl _).bind fun _ =>
    (explore_approximates h h _ _ _).bind fun _ => .refl _

theorem refineOnce_approximates (h : fuel ≤ fuel') (culprit : Culprit) :
    Approximates (refineOnce fuel culprit) (refineOnce fuel' culprit) := by
  simp only [refineOnce]
  refine (Approximates.refl _).bind fun v => (Approximates.refl _).bind fun mark =>
    (Approximates.refl _).bind fun improvement => ?_
  cases improvement with
  | none => exact .refl _
  | some i =>
    -- either precision is refined before the space is generated again
    cases i with
    | step node mark | input node mark =>
      exact (Approximates.refl _).bind fun _ => (Approximates.refl _).bind fun _ =>
        regenerate_approximates h node

theorem refine_approximates (hinner : inner ≤ inner') (culprit : Culprit) (h : fuel ≤ fuel') :
    Approximates (refine inner culprit fuel) (refine inner' culprit fuel') := by
  induction fuel generalizing fuel' with
  | zero => exact .of_exhausted _
  | succ fuel ih =>
    obtain ⟨fuel', rfl⟩ : ∃ k, fuel' = k + 1 := ⟨fuel' - 1, by omega⟩
    rw [Verifier.refine, Verifier.refine]
    refine (refineOnce_approximates hinner culprit).bind fun changed => ?_
    split
    · exact .refl _
    · exact ih (by omega)

/-! ## Rounds -/

theorem prepare_approximates (h : fuel ≤ fuel') (p : Property) :
    Approximates (prepare fuel p) (prepare fuel' p) := by
  simp only [prepare]
  refine (Approximates.refl _).bind fun v => ?_
  split
  · exact (regenerate_approximates h root).guarded.discard.bind fun _ => .refl _
  · split
    · split
      · exact (Approximates.refl _).bind fun _ =>
          (refine_approximates h _ h).guarded.bind fun _ => .refl _
      · exact .refl _
    · exact .refl _

theorem attempt_approximates (h : fuel ≤ fuel') (canceled : Bool) (job : Job) (start : Nat) :
    Approximates (attempt fuel canceled job start) (attempt fuel' canceled job start) := by
  simp only [attempt]
  split
  · exact (Approximates.refl _).bind fun _ => (prepare_approximates h _).bind fun _ => .refl _
  · exact (prepare_approximates h _).bind fun _ => .refl _

end Verifier

end RefineCheck
