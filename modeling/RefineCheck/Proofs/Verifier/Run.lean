/-
  RefineCheck.Proofs.Verifier.Run

  Computations on verifiers, taken apart step by step: the outcome of each and the verifier that
  it leaves.
-/

import Mathlib
import RefineCheck.Proofs.Result
import RefineCheck.Verifier.Verdict

namespace RefineCheck.VerifyM

variable {α β : Type}

/-- The outcome of a computation and the verifier it leaves. -/
def exec (x : VerifyM α) (v : Verifier) : Except Stop α × Verifier := x.run.run v

variable {x : VerifyM α} {f : α → VerifyM β} {v w : Verifier} {a : α} {stop : Stop}

theorem exec_pure (a : α) (v : Verifier) : exec (pure a) v = (.ok a, v) := rfl

theorem exec_bind_ok (h : exec x v = (.ok a, w)) : exec (x >>= f) v = exec (f a) w := by
  show (ExceptT.bind x f).run.run v = _
  simp only [ExceptT.bind, ExceptT.run, ExceptT.mk, bind, StateT.bind, StateT.run, exec] at h ⊢
  rw [h]
  rfl

theorem exec_bind_error (h : exec x v = (.error stop, w)) :
    exec (x >>= f) v = (.error stop, w) := by
  show (ExceptT.bind x f).run.run v = _
  simp only [ExceptT.bind, ExceptT.run, ExceptT.mk, bind, StateT.bind, StateT.run, exec] at h ⊢
  rw [h]
  rfl

theorem exec_get (v : Verifier) : exec get v = (.ok v, v) := rfl

theorem exec_set (v w : Verifier) : exec (set w) v = (.ok PUnit.unit, w) := rfl

theorem exec_modify (g : Verifier → Verifier) (v : Verifier) :
    exec (modify g) v = (.ok PUnit.unit, g v) := rfl

theorem exec_throw (stop : Stop) (v : Verifier) :
    exec (throw stop : VerifyM α) v = (.error stop, v) := rfl

theorem exec_fail (cause : Failure) (v : Verifier) :
    exec (fail cause : VerifyM α) v = (.error (.failure cause), v) := rfl

theorem exec_raise_ok (a : α) (v : Verifier) : exec (raise (.ok a)) v = (.ok a, v) := rfl

theorem exec_raise_error (cause : Fault) (v : Verifier) :
    exec (raise (.error cause) : VerifyM α) v = (.error (.fault cause), v) := rfl

theorem exec_liftM (r : Except Stop α) (v : Verifier) : exec (liftM r) v = (r, v) := by
  cases r <;> rfl

theorem exec_tryCatch_ok {handler : Stop → VerifyM α} (h : exec x v = (.ok a, w)) :
    exec (tryCatch x handler) v = (.ok a, w) := by
  show (ExceptT.tryCatch x handler).run.run v = _
  simp only [ExceptT.tryCatch, ExceptT.run, ExceptT.mk, bind, StateT.bind, StateT.run, exec] at h ⊢
  rw [h]
  rfl

theorem exec_tryCatch_error {handler : Stop → VerifyM α} (h : exec x v = (.error stop, w)) :
    exec (tryCatch x handler) v = exec (handler stop) w := by
  show (ExceptT.tryCatch x handler).run.run v = _
  simp only [ExceptT.tryCatch, ExceptT.run, ExceptT.mk, bind, StateT.bind, StateT.run, exec] at h ⊢
  rw [h]

/-- A failure other than an incomplete verification discards the space. -/
theorem exec_guarded_failure {cause : Failure} (h : exec x v = (.error (.failure cause), w))
    (hcause : cause ≠ .incomplete) :
    exec (guarded x) v = (.error (.failure cause), w.invalidate) := by
  rw [guarded, exec_tryCatch_error h]
  cases cause with
  | incomplete => exact absurd rfl hcause
  | _ => rfl

/-- All other outcomes leave the space as it is. -/
theorem exec_guarded_other
    (h : ∀ cause, (exec x v).1 = .error (.failure cause) → cause = .incomplete) :
    exec (guarded x) v = exec x v := by
  rcases hrun : exec x v with ⟨r, w⟩
  rw [hrun] at h
  cases r with
  | ok a => exact exec_tryCatch_ok hrun
  | error stop =>
    rw [guarded, exec_tryCatch_error hrun]
    cases stop with
    | failure cause =>
      obtain rfl := h cause rfl
      rfl
    | fault cause => rfl
    | exhausted => rfl

/-! ## Conditions after a computation -/

/-- What holds after a computation: of a result and the verifier that is left with it, or of the
    reason to stop and the verifier that is left then. -/
structure Ensures (x : VerifyM α) (v : Verifier) (post : α → Verifier → Prop)
    (stops : Stop → Verifier → Prop) : Prop where
  ok {a : α} {w : Verifier} : exec x v = (.ok a, w) → post a w
  error {stop : Stop} {w : Verifier} : exec x v = (.error stop, w) → stops stop w

namespace Ensures

variable {post : α → Verifier → Prop} {last : β → Verifier → Prop}
  {stops stops' : Stop → Verifier → Prop}

theorem of_ok (h : exec x v = (.ok a, w)) (hpost : post a w) : Ensures x v post stops where
  ok h' := by
    obtain ⟨hres, rfl⟩ := Prod.mk.inj (h.symm.trans h')
    exact Except.ok.inj hres ▸ hpost
  error h' := by
    have hres := (Prod.mk.inj (h.symm.trans h')).1
    cases hres

theorem of_error (h : exec x v = (.error stop, w)) (hstops : stops stop w) :
    Ensures x v post stops where
  ok h' := by
    have hres := (Prod.mk.inj (h.symm.trans h')).1
    cases hres
  error h' := by
    obtain ⟨hres, rfl⟩ := Prod.mk.inj (h.symm.trans h')
    exact Except.error.inj hres ▸ hstops

theorem of_pure (hpost : post a v) : Ensures (pure a) v post stops := of_ok (exec_pure a v) hpost

theorem of_fail {cause : Failure} (hstops : stops (.failure cause) v) :
    Ensures (fail cause) v post stops :=
  of_error (exec_fail cause v) hstops

theorem of_throw (hstops : stops stop v) : Ensures (throw stop : VerifyM α) v post stops :=
  of_error (exec_throw stop v) hstops

theorem of_raise {r : Except Fault α} (hok : ∀ {a}, r = .ok a → post a v)
    (herror : ∀ {cause}, r = .error cause → stops (.fault cause) v) :
    Ensures (raise r) v post stops := by
  cases r with
  | ok a => exact of_ok (exec_raise_ok a v) (hok rfl)
  | error cause => exact of_error (exec_raise_error cause v) (herror rfl)

theorem of_liftM {r : Except Stop α} (hok : ∀ {a}, r = .ok a → post a v)
    (herror : ∀ {stop}, r = .error stop → stops stop v) :
    Ensures (liftM r : VerifyM α) v post stops := by
  have hexec := exec_liftM r v
  cases r with
  | ok a => exact of_ok hexec (hok rfl)
  | error cause => exact of_error hexec (herror rfl)

theorem bind {P : α → Verifier → Prop} (h : Ensures x v P stops)
    (hf : ∀ {a w}, P a w → Ensures (f a) w last stops) : Ensures (x >>= f) v last stops := by
  rcases hrun : exec x v with ⟨r, w⟩
  cases r with
  | ok a =>
    have hrest := hf (h.ok hrun)
    exact ⟨fun h' => hrest.ok ((exec_bind_ok hrun).symm.trans h'),
      fun h' => hrest.error ((exec_bind_ok hrun).symm.trans h')⟩
  | error stop => exact of_error (exec_bind_error hrun) (h.error hrun)

theorem bind_get {f : Verifier → VerifyM β} (h : Ensures (f v) v last stops) :
    Ensures (get >>= f) v last stops := by
  refine bind (P := fun u w => u = v ∧ w = v) (of_ok (exec_get v) ⟨rfl, rfl⟩) ?_
  rintro u w ⟨rfl, rfl⟩
  exact h

theorem bind_set {f : PUnit → VerifyM β} (h : Ensures (f ⟨⟩) w last stops) :
    Ensures (set w >>= f) v last stops := by
  refine bind (P := fun _ u => u = w) (of_ok (exec_set v w) rfl) ?_
  rintro _ u rfl
  exact h

theorem bind_modify {g : Verifier → Verifier} {f : PUnit → VerifyM β}
    (h : Ensures (f ⟨⟩) (g v) last stops) : Ensures (modify g >>= f) v last stops := by
  refine bind (P := fun _ w => w = g v) (of_ok (exec_modify g v) rfl) ?_
  rintro _ w rfl
  exact h

theorem bind_raise {r : Except Fault α} (hok : ∀ {a}, r = .ok a → Ensures (f a) v last stops)
    (herror : ∀ {cause}, r = .error cause → stops (.fault cause) v) :
    Ensures (raise r >>= f) v last stops := by
  refine bind (P := fun a w => v = w ∧ r = .ok a) (of_raise (fun h => ⟨rfl, h⟩) herror) ?_
  rintro a _ ⟨rfl, h⟩
  exact hok h

theorem bind_liftM {r : Except Stop α} (hok : ∀ {a}, r = .ok a → Ensures (f a) v last stops)
    (herror : ∀ {stop}, r = .error stop → stops stop v) :
    Ensures ((liftM r : VerifyM α) >>= f) v last stops := by
  refine bind (P := fun a w => v = w ∧ r = .ok a) (of_liftM (fun h => ⟨rfl, h⟩) herror) ?_
  rintro a _ ⟨rfl, h⟩
  exact hok h

theorem bind_fail {cause : Failure} (hstops : stops (.failure cause) v) :
    Ensures (fail cause >>= f) v last stops :=
  bind (P := fun _ _ => False) (of_fail hstops) False.elim

theorem discard {post : Verifier → Prop} (h : Ensures x v (fun _ w => post w) stops) :
    Ensures (discard x) v (fun _ w => post w) stops :=
  bind (f := fun _ => pure ()) h fun hpost => of_pure hpost

theorem imp {post' : α → Verifier → Prop} (h : Ensures x v post stops)
    (hpost : ∀ {a w}, post a w → post' a w) (hstops : ∀ {stop w}, stops stop w → stops' stop w) :
    Ensures x v post' stops' :=
  ⟨fun h' => hpost (h.ok h'), fun h' => hstops (h.error h')⟩

theorem and {post' : α → Verifier → Prop} (h : Ensures x v post stops)
    (h' : Ensures x v post' stops') :
    Ensures x v (fun a w => post a w ∧ post' a w) fun stop w => stops stop w ∧ stops' stop w :=
  ⟨fun hrun => ⟨h.ok hrun, h'.ok hrun⟩, fun hrun => ⟨h.error hrun, h'.error hrun⟩⟩

/-- A guarded computation leaves the verifier of a failure without its space. -/
theorem guarded (h : Ensures x v post stops)
    (hfailure : ∀ {cause w}, cause ≠ .incomplete → stops (.failure cause) w →
      stops' (.failure cause) w.invalidate)
    (hother : ∀ {stop w}, (∀ cause, stop = .failure cause → cause = .incomplete) →
      stops stop w → stops' stop w) : Ensures (guarded x) v post stops' := by
  rcases hrun : exec x v with ⟨r, w⟩
  by_cases hcause : ∃ cause, r = .error (.failure cause) ∧ cause ≠ .incomplete
  · obtain ⟨cause, rfl, hne⟩ := hcause
    exact of_error (exec_guarded_failure hrun hne) (hfailure hne (h.error hrun))
  · have hguarded := exec_guarded_other (x := x) (v := v) fun cause hc => by
      by_contra hne
      rw [hrun] at hc
      exact hcause ⟨cause, hc, hne⟩
    rw [hrun] at hguarded
    cases r with
    | ok a => exact of_ok hguarded (h.ok hrun)
    | error stop =>
      refine of_error hguarded (hother (fun cause hc => ?_) (h.error hrun))
      by_contra hne
      exact hcause ⟨cause, congrArg Except.error hc, hne⟩

end Ensures

end RefineCheck.VerifyM
