/-
  RefineCheck.Proofs.Session.Sequential

  A session with calls and a worker decides about a run, and ends it if no stop disturbs it, as one
  that is given one command after the other. A stop at most cancels the run between two rounds.
-/

import RefineCheck.Proofs.Session.Runs
import RefineCheck.Proofs.Verifier.Fuel

namespace RefineCheck

/-- The search for a verdict goes on round by round. -/
theorem Verifier.pursue_succ (inner start fuel : Nat) (job : Job) (interrupted : Counters → Bool) :
    pursue inner ⟨job.maxRefinements, interrupted⟩ job.property start (fuel + 1) = (do
      match ← attempt inner (interrupted (← get).counters) job start with
      | some c => return c
      | none => pursue inner ⟨job.maxRefinements, interrupted⟩ job.property start fuel) := by
  have hlast (ends : Bool) (c : Conclusion) (next : VerifyM Conclusion) :
      (if ends = true then pure c else next) =
        match if ends = true then some c else none with
        | some c => pure c
        | none => next := by
    cases ends <;> rfl
  rw [pursue]
  simp only [attempt]
  refine bind_congr fun v => ?_
  by_cases h : interrupted v.counters = true
  · simp only [h, if_true, bind_assoc, pure_bind]
    exact bind_congr fun _ => bind_congr fun _ => bind_congr fun c => bind_congr fun w => hlast _ c _
  · simp only [h, Bool.false_eq_true, if_false, bind_assoc, pure_bind]
    exact bind_congr fun _ => bind_congr fun c => bind_congr fun w => hlast _ c _

/-! ## What the rounds of a job come to -/

namespace Job

variable {job : Job} {start inner n : Nat} {v u w : Verifier} {stopped : Bool}

/-- The search for a verdict that a job asks for. -/
def search (job : Job) (inner start fuel : Nat) : VerifyM Conclusion :=
  Verifier.pursue inner ⟨job.maxRefinements, fun _ => false⟩ job.property start fuel

/-- After some rounds the search on a verifier goes on as that on another one, if each round has the
    fuel that it needs. -/
def LeadsTo (job : Job) (start : Nat) (v w : Verifier) : Prop :=
  ∃ rounds least, ∀ inner ≥ least, ∀ fuel,
    VerifyM.exec (job.search inner start (rounds + fuel)) v =
      VerifyM.exec (job.search inner start fuel) w

theorem LeadsTo.refl (job : Job) (start : Nat) (v : Verifier) : job.LeadsTo start v v :=
  ⟨0, 0, fun _ _ fuel => by rw [Nat.zero_add]⟩

theorem search_succ (job : Job) (inner start fuel : Nat) :
    job.search inner start (fuel + 1) = (do
      match ← Verifier.attempt inner false job start with
      | some c => return c
      | none => job.search inner start fuel) := by
  rw [search, Verifier.pursue_succ]
  rfl

/-- A round that does not run out of fuel is one of all searches with at least this fuel. -/
theorem exec_attempt {outcome : Except Stop (Option Conclusion)}
    (hround : VerifyM.exec (Verifier.attempt inner false job start) u = (outcome, w))
    (hends : outcome ≠ .error .exhausted) {inner' : Nat} (hle : inner ≤ inner') :
    VerifyM.exec (Verifier.attempt inner' false job start) u = (outcome, w) := by
  refine ((Verifier.attempt_approximates hle false job start u).resolve_left ?_).trans hround
  rw [hround]
  exact hends

/-- One more round without a conclusion. -/
theorem LeadsTo.tail (h : job.LeadsTo start v u)
    (hround : VerifyM.exec (Verifier.attempt inner false job start) u = (.ok none, w)) :
    job.LeadsTo start v w := by
  obtain ⟨rounds, least, hrounds⟩ := h
  refine ⟨rounds + 1, max least inner, fun inner' hle fuel => ?_⟩
  rw [Nat.add_right_comm, Nat.add_assoc, hrounds inner' (le_of_max_le_left hle), search_succ,
    VerifyM.exec_bind_ok (exec_attempt hround nofun (le_of_max_le_right hle))]

/-- What a run of a job leaves of a verifier: the number of refinements and the outcome that its
    steps come to, or, if a stop canceled it between two rounds, a verifier to go on with. -/
inductive Leaves (job : Job) (v : Verifier) (stopped : Bool) :
    Nat → Except RunError Conclusion → Verifier → Prop
  | ended {fuel n : Nat} {outcome : Except RunError Conclusion} {w : Verifier}
      (h : Session.perform v fuel (fun _ => false) job = (n, outcome, w))
      (hends : outcome ≠ .error .exhausted) : Leaves job v stopped n outcome w
  | canceled {w : Verifier} (hstopped : stopped = true) (h : job.LeadsTo v.counters.refinements v w) :
      Leaves job v stopped (w.counters.refinements - v.counters.refinements)
        (.error (.failure .canceled)) w

theorem Leaves.mono {stopped' : Bool} {outcome : Except RunError Conclusion}
    (h : job.Leaves v stopped n outcome w) (hstopped : stopped = true → stopped' = true) :
    job.Leaves v stopped' n outcome w := by
  cases h with
  | ended h hends => exact .ended h hends
  | canceled h hleads => exact .canceled (hstopped h) hleads

theorem perform_eq {result : Except Stop Conclusion} {fuel : Nat}
    (h : VerifyM.exec (job.search fuel v.counters.refinements fuel) v = (result, w)) :
    Session.perform v fuel (fun _ => false) job =
      Session.settle ⟨w.counters.refinements - v.counters.refinements, result⟩ w := by
  simp only [VerifyM.exec, search] at h
  simp [Session.perform, Verifier.step, h]

theorem settle_ne_exhausted {result : Except Stop Conclusion} (h : result ≠ .error .exhausted)
    (n : Nat) (v : Verifier) : (Session.settle ⟨n, result⟩ v).2.1 ≠ .error .exhausted := by
  match result with
  | .ok c | .error (.failure cause) | .error (.fault cause) => nofun
  | .error .exhausted => exact absurd rfl h

/-- A round that ends the search ends the run of the job. -/
theorem LeadsTo.leaves {result : Except Stop Conclusion} {outcome : Except RunError Conclusion}
    {u' : Verifier} (h : job.LeadsTo v.counters.refinements v u)
    (hround : VerifyM.exec (Verifier.attempt inner false job v.counters.refinements) u =
      (result.map some, w)) (hends : result ≠ .error .exhausted)
    (hsettle : Session.settle ⟨w.counters.refinements - v.counters.refinements, result⟩ w =
      (n, outcome, u')) : job.Leaves v stopped n outcome u' := by
  obtain ⟨rounds, least, hrounds⟩ := h
  -- enough fuel for all rounds, and in each of them
  obtain ⟨rest, hfuel⟩ : ∃ rest, max (max least inner) (rounds + 1) = rounds + (rest + 1) :=
    ⟨max (max least inner) (rounds + 1) - (rounds + 1), by omega⟩
  have hmap : result.map some ≠ .error .exhausted := by
    cases result with
    | ok c => nofun
    | error stop => exact fun heq => hends (congrArg Except.error (Except.error.inj heq))
  have hlast := exec_attempt hround hmap (show inner ≤ rounds + (rest + 1) by omega)
  have hsearch : VerifyM.exec (job.search (rounds + (rest + 1)) v.counters.refinements
      (rounds + (rest + 1))) v = (result, w) := by
    rw [hrounds _ (by omega), search_succ]
    cases result with
    | ok c => exact VerifyM.exec_bind_ok hlast
    | error stop => exact VerifyM.exec_bind_error hlast
  refine .ended ((perform_eq hsearch).trans hsettle) ?_
  have hne := settle_ne_exhausted hends (w.counters.refinements - v.counters.refinements) w
  rwa [hsettle] at hne

end Job

namespace Runner

variable {v w : Verifier} {r r' r₁ r₂ : Runner} {a : Actor} {id : String} {job : Job}
  {start fuel : Nat}

theorem Steps.trans (h : Steps r r₁) (h' : Steps r₁ r₂) : Steps r r₂ := by
  induction h' with
  | refl => exact h
  | tail _ hlast ih => exact ih.tail hlast

/-- Round by round the worker gets to the verdict that the search finds. -/
theorem Steps.measuring {result : Except Stop Conclusion} {outcome : Nat × Except RunError Conclusion × Verifier}
    (inner : Nat) (hw : r.worker = .running id job start) (hcontext : r.context = some false)
    (hrun : VerifyM.exec (job.search inner start fuel) r.session.verifier = (result, w))
    (hends : result ≠ .error .exhausted)
    (hsettle : Session.settle ⟨w.counters.refinements - start, result⟩ w = outcome) :
    Steps r { r with
      session := { r.session with verifier := outcome.2.2 }
      worker := .measuring id job outcome.1 outcome.2.1 } := by
  have hcanceled : (r.context == some true) = false := by simp [hcontext]
  induction fuel generalizing r with
  | zero =>
    cases hrun
    exact absurd rfl hends
  | succ fuel ih =>
    rw [Job.search_succ] at hrun
    rcases hround : VerifyM.exec (Verifier.attempt inner false job start) r.session.verifier with ⟨round, u⟩
    have hattempt : (Verifier.attempt inner (r.context == some true) job start).run.run r.session.verifier =
        (round, u) := by rw [hcanceled]; exact hround
    -- Only a round without a conclusion is followed by another.
    match round with
    | .error e =>
      rw [VerifyM.exec_bind_error hround] at hrun
      cases hrun
      exact (Steps.refl r).tail (.settle inner hw (by exact hattempt) hends hsettle)
    | .ok (some c) =>
      rw [VerifyM.exec_bind_ok hround] at hrun
      cases hrun
      exact (Steps.refl r).tail (.settle inner hw (by exact hattempt) hends hsettle)
    | .ok none =>
      rw [VerifyM.exec_bind_ok hround] at hrun
      exact ((Steps.refl r).tail (.again inner hw hattempt)).trans
        (ih (r := { r with session := { r.session with verifier := u } }) hw hcontext hrun hcanceled)

/-- A run that is about to start is the one that the session shows. -/
theorem Sound.pending_launching (i : Sound r) (hw : r.worker = .launching id job) :
    r.session.pending = some job := by
  have hcommand : r.worker.command? = some (.step id job) := by rw [hw]; rfl
  have haccepted := i.received_leads.subset (i.traced.received hcommand)
  exact (i.shown.outstanding r.serving id job ⟨haccepted, i.shown.busy id job hcommand⟩).1

/-- While no stop comes, the steps of the worker alone carry out a run, and leave the session as
    `Session.finish` does. -/
theorem Reachable.finish (h : Reachable v r) (hw : r.worker = .launching id job)
    (hstopped : r.session.stopped = false) (fuel : Nat)
    (hends : (Session.perform r.session.verifier fuel (fun _ => false) job).2.1 ≠ .error .exhausted) :
    ∃ r', Steps r r' ∧ r'.worker = .idle ∧ r'.calls = r.calls ∧
      r'.session = r.session.finish fuel := by
  rcases hrun : VerifyM.exec (job.search fuel r.session.verifier.counters.refinements fuel)
    r.session.verifier with ⟨result, w⟩
  have hperform := Job.perform_eq hrun
  have hresult : result ≠ .error .exhausted := by
    rintro rfl
    exact hends (by rw [hperform]; rfl)
  have hpending := h.sound.pending_launching hw
  have hbegun := ((Steps.refl r).tail (.launch hw)).tail (.begin rfl)
  have hmeasuring := hbegun.trans
    (Steps.measuring fuel rfl (by simp [hstopped]) hrun hresult hperform.symm)
  refine ⟨_, (hmeasuring.tail (.measure rfl)).tail (.store rfl), rfl, rfl, ?_⟩
  simp only [Session.finish, Session.finishUnless, hpending]

/-! ## What a run leaves -/

/-- How far a run of a job got that found a verifier: what it left of the verifier so far, until it
    is stored. -/
def Underway (id : String) (job : Job) (v : Verifier) (r : Runner) : Prop :=
  match r.worker with
  | .launching id' job' => id' = id ∧ job' = job ∧ r.session.verifier = v
  | .starting id' job' => id' = id ∧ job' = job ∧ r.session.verifier = v ∧
    (r.context = some true → r.session.stopped = true)
  | .running id' job' start => id' = id ∧ job' = job ∧ start = v.counters.refinements ∧
    job.LeadsTo start v r.session.verifier ∧ (r.context = some true → r.session.stopped = true)
  | .measuring _ _ refinements outcome =>
    job.Leaves v r.session.stopped refinements outcome r.session.verifier
  | .storing _ _ refinements outcome stats =>
    job.Leaves v r.session.stopped refinements outcome r.session.verifier ∧
      stats = r.session.verifier.stats
  | .idle | .finished => True
  | .responding _ | .resetting | .publishing | .closing => False

/-- What the calls do only stops the session, which may cancel the run. -/
theorem Underway.of_same (i : Underway id job v r) (hworker : r'.worker = r.worker)
    (hverifier : r'.session.verifier = r.session.verifier)
    (hstopped : r.session.stopped = true → r'.session.stopped = true)
    (hcontext : r'.context = some true → r.context = some true ∨ r'.session.stopped = true) :
    Underway id job v r' := by
  have hcancelable (h : r.context = some true → r.session.stopped = true) :
      r'.context = some true → r'.session.stopped = true := fun h' =>
    (hcontext h').elim (fun h'' => hstopped (h h'')) fun h'' => h''
  unfold Underway at i ⊢
  rw [hworker, hverifier]
  generalize r.worker = worker at i
  cases worker with
  | launching | idle | finished | responding | resetting | publishing | closing => exact i
  | starting => exact i.imp_right (.imp_right (.imp_right hcancelable))
  | running => exact i.imp_right (.imp_right (.imp_right (.imp_right hcancelable)))
  | measuring => exact Job.Leaves.mono i hstopped
  | storing => exact i.imp_left (Job.Leaves.mono · hstopped)

theorem Underway.step (h : Step a r r') (i : Underway id job v r)
    (hreceived : r'.received = r.received) : Underway id job v r' := by
  cases h with
  | deliver => simp at hreceived
  | acceptStop _ hhalt =>
    obtain ⟨-, -, rfl⟩ := Session.halt_ok_iff.mp hhalt
    exact i.of_same rfl rfl (fun _ => rfl) fun _ => .inr rfl
  | respond _ hw | reset hw | publish hw | close hw =>
    rw [Underway, hw] at i
    exact i.elim
  | launch hw =>
    rw [Underway, hw] at i
    obtain ⟨rfl, rfl, hv⟩ := i
    exact ⟨rfl, rfl, hv, fun h => Option.some.inj h⟩
  | begin hw =>
    rw [Underway, hw] at i
    obtain ⟨rfl, rfl, rfl, hcanceled⟩ := i
    exact ⟨rfl, rfl, rfl, .refl _ _ _, hcanceled⟩
  | again inner hw hrun =>
    have i' := i
    rw [Underway, hw] at i'
    obtain ⟨rfl, rfl, rfl, hleads, hcanceled⟩ := i'
    -- a canceled round would have failed
    cases hcontext : r.context == some true with
    | true =>
      rw [hcontext] at hrun
      cases hrun
    | false =>
      rw [hcontext] at hrun
      rw [Underway]
      exact hw ▸ ⟨rfl, rfl, rfl, hleads.tail hrun, hcanceled⟩
  | @settle _ _ _ _ result _ _ _ _ inner hw hrun hends hsettle =>
    rw [Underway, hw] at i
    obtain ⟨rfl, rfl, rfl, hleads, hcanceled⟩ := i
    cases hcontext : r.context == some true with
    | false =>
      rw [hcontext] at hrun
      exact hleads.leaves hrun hends hsettle
    | true =>
      rw [hcontext] at hrun
      cases result with
      | ok c => cases hrun
      | error stop =>
        cases hrun
        cases hsettle
        exact Job.Leaves.canceled (hcanceled (beq_iff_eq.1 hcontext)) hleads
  | measure hw =>
    rw [Underway, hw] at i
    exact ⟨i, rfl⟩
  | store | exit => trivial
  | _ => exact i.of_same rfl rfl (fun h => h) .inl

/-- The worker takes a command or stays at the one that it took last. -/
theorem Step.received (h : Step a r r') :
    (r'.received = r.received ∧ r'.serving = r.serving) ∨
      ∃ c cmd, r'.received = r.received ++ [(c, cmd)] := by
  cases h with
  | deliver => exact .inr ⟨_, _, rfl⟩
  | _ => exact .inl ⟨rfl, rfl⟩

theorem Steps.received_leads (h : Steps r r') : r.received <+: r'.received := by
  induction h with
  | refl => exact List.prefix_rfl
  | tail _ hstep ih =>
    rcases hstep.received with ⟨hsame, -⟩ | ⟨c, cmd, hmore⟩
    · exact hsame ▸ ih
    · exact ih.trans ⟨_, hmore.symm⟩

end Runner

end RefineCheck
