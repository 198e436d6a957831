/-
  RefineCheck.Proofs.Session.Protocol

  The protocol between the calls of a session and its worker, over every interleaving of their
  steps.
-/

import RefineCheck.Proofs.Session.Sequential
import RefineCheck.TransitionSystem.Expression

namespace RefineCheck.Runner

variable {v : Verifier} {r r' : Runner} {a : Actor} {c d : CallId} {q : Request} {p : Phase}
  {cmd : Command} {id : String} {job : Job}

/-! ## What one step can do -/

/-- The verifier is used in steps of the worker that is at a command, and in no other. -/
theorem Step.verifier (h : Step a r r') :
    (r'.session.verifier = r.session.verifier ∧ r'.uses = r.uses) ∨
      a = .worker ∧ ∃ cmd, r.worker.command? = some cmd := by
  cases h with
  | acceptStop h hhalt =>
    obtain ⟨-, -, rfl⟩ := Session.halt_ok_iff.mp hhalt
    exact .inl ⟨rfl, rfl⟩
  | begin hw | again _ hw | settle _ hw | measure hw | reset hw | publish hw =>
    exact .inr ⟨rfl, _, by rw [hw]; rfl⟩
  | _ => exact .inl ⟨rfl, rfl⟩

/-- A step of a call changes the session only if it is the one in which a command is accepted. -/
theorem Step.session (h : Step (.call c) r r') :
    r'.session = r.session ∨ ∃ cmd, (c, cmd) ∈ r'.accepted := by
  cases h with
  | acceptStep | acceptReset | acceptStop => exact .inr ⟨_, List.mem_append_right _ (.head _)⟩
  | _ => exact .inl rfl

/-! ## The order of uses -/

theorem mem_usesOf {xs : List (CallId × Command)} {u : Use} :
    (c, u) ∈ usesOf xs ↔ ∃ cmd, (c, cmd) ∈ xs ∧ u ∈ cmd.uses := by
  simp [usesOf]

/-- What is seen of a run whose result is not stored. -/
structure Seen (r : Runner) (id : String) (job : Job) : Prop where
  running : r.session.status.running = true
  run : r.session.status.run = some id
  property : r.session.status.property = job.property.text
  /-- A call for the status is told so. -/
  status : ∀ c r', r.calls c = some ⟨.status, .called⟩ → Step (.call c) r r' →
    ∃ s, r'.calls c = some ⟨.status, .returned (.status s)⟩ ∧ s.running = true ∧ s.run = some id
  /-- A call that looks at the session with the send lock is refused. -/
  refused : ∀ c q r', r.calls c = some ⟨q, .admitted⟩ → Step (.call c) r r' →
    ∃ e, (e = .running ∨ e = .stopped) ∧ r'.calls c = some ⟨q, .leaving (.refused e)⟩ ∧
      r'.session = r.session
  /-- Nothing but a stop is accepted. -/
  accepted : ∀ a r' c cmd, Step a r r' → (c, cmd) ∈ r'.accepted → (c, cmd) ∈ r.accepted ∨ cmd = .stop

/-- What the calls and the worker of a runner keep to. -/
structure Orderly (r : Runner) : Prop where
  /-- No command is sent on the closed channel. -/
  channel_open : ∀ c q cmd, r.calls c = some ⟨q, .sending cmd⟩ → r.closed = false
  /-- A response goes to the call whose command it answers. -/
  response_own : ∀ c cmd r', r.worker = .responding cmd → Step (.handover c) r r' →
    r.received.getLast? = some (c, cmd) ∧
      ∃ q, r.calls c = some ⟨q, .awaiting cmd⟩ ∧ r'.calls c = some ⟨q, .leaving cmd.answer⟩
  /-- There is a call to respond to. -/
  response_taken : ∀ cmd, r.worker = .responding cmd → ∃ c r', Step (.handover c) r r'
  /-- Only the worker uses the verifier, for the command that it took last. -/
  verifier_private : ∀ a r', Step a r r' →
    r'.session.verifier ≠ r.session.verifier ∨ r'.uses ≠ r.uses →
      a = .worker ∧ ∃ cmd, r.worker.command? = some cmd ∧ r.received.getLast? = some (r.serving, cmd)
  /-- The worker takes a command when it has carried out those before. -/
  one_at_a_time : ∀ a r', Step a r r' → r'.received ≠ r.received → r.uses = usesOf r.received
  /-- An accepted command is what its call asked for, and its answer is what the call returns. -/
  accepted_asked : ∀ c cmd, (c, cmd) ∈ r.accepted →
    ∃ q p, r.calls c = some ⟨q, p⟩ ∧ q.Orders cmd ∧ p.Carries cmd
  /-- A call has one command at most. -/
  accepted_once : (r.accepted.map Prod.fst).Nodup
  /-- Commands are taken in the order in which they were accepted. -/
  received_in_order : r.received <+: r.accepted
  /-- Commands are carried out in that order. -/
  uses_in_order : r.uses <+: usesOf r.accepted
  /-- Nothing is done twice for a command. -/
  uses_once : r.uses.Nodup
  /-- A run is that of an accepted call, with its property and its limit. -/
  run_asked : ∀ c job, (c, .step job) ∈ r.uses → ∃ id text p, (c, .step id job) ∈ r.accepted ∧
    r.calls c = some ⟨.step text job.maxRefinements, p⟩ ∧ Property.parse text = .ok job.property
  /-- A run works with the property and the limit of its accepted call: what it stores is what the
      steps with them come to on the verifier it found, unless a stop canceled it between two. -/
  run_stored : ∀ id job, r.worker = .launching id job → (r.serving, .step id job) ∈ r.accepted ∧
    ∀ r₁ a r₂, Steps r r₁ → r₁.received = r.received → Step a r₁ r₂ → r₂.stored ≠ r₁.stored →
      r₂.stored = r₁.stored ++ [r.serving] ∧
      r₂.session.status.stats = r₂.session.verifier.stats ∧
      ∃ outcome, r₂.session.status.outcome = some outcome ∧
        job.Leaves r.session.verifier r₂.session.stopped r₂.session.status.refinements outcome
          r₂.session.verifier
  /-- A run that no stop disturbs can come to its end, and leaves the session as if the command were
      the only one. -/
  run_finished : ∀ id job fuel, r.worker = .launching id job → r.session.stopped = false →
    (Session.perform r.session.verifier fuel (fun _ => false) job).2.1 ≠ .error .exhausted →
      ∃ r', Steps r r' ∧ r'.worker = .idle ∧ r'.calls = r.calls ∧ r'.session = r.session.finish fuel
  /-- A call for a run is answered as the session decides about the command. -/
  step_decided : ∀ c text limit p r', r.calls c = some ⟨.step text limit, .admitted⟩ →
    Property.parse text = .ok p → Step (.call c) r r' →
      (∃ id, r.session.step id text limit = .ok r'.session ∧
        r'.calls c = some ⟨.step text limit, .sending (.step id ⟨p, limit⟩)⟩) ∨
      ∃ e, (∀ id, r.session.step id text limit = .error e) ∧ r'.session = r.session ∧
        r'.calls c = some ⟨.step text limit, .leaving (.refused e)⟩
  /-- From the acceptance of a run until its result is stored, the session shows it. -/
  outstanding_seen : ∀ c id job, r.Outstanding c id job → r.Seen id job
  /-- A call changes the session only if its command is accepted. -/
  unaccepted_same : ∀ c r', Step (.call c) r r' → (∀ cmd, (c, cmd) ∉ r'.accepted) →
    r'.session = r.session
  /-- Nothing of a refused call is accepted or carried out. -/
  refused_unaccepted : ∀ c q e,
    r.calls c = some ⟨q, .leaving (.refused e)⟩ ∨ r.calls c = some ⟨q, .returned (.refused e)⟩ →
      (∀ cmd, (c, cmd) ∉ r.accepted) ∧ ∀ u, (c, u) ∉ r.uses
  /-- A run that has finished has a conclusion or an error, and not both. -/
  finished_either : r.session.status.run ≠ none → r.session.status.running = false →
    (r.session.status.conclusion?.isSome ^^ r.session.status.error?.isSome) = true
  /-- Once a stop was carried out, the worker does nothing any more, and the verifier is not used. -/
  stop_final : ∀ c, r.calls c = some ⟨.stop, .returned .done⟩ → ∀ r', Steps r r' →
    (r'.worker = .idle ∨ r'.worker = .finished) ∧ r'.uses = r.uses ∧
      r'.session.verifier = r.session.verifier
  /-- Once a stop has returned, refused or not, no command is accepted any more. -/
  stop_accepts_none : ∀ c answer, r.calls c = some ⟨.stop, .returned answer⟩ → ∀ r', Steps r r' →
    r'.accepted = r.accepted

/-- The stop that closes the channel is the last command of all, so nobody is left to send one. -/
theorem Sound.channel_open (i : Sound r) (h : r.calls c = some ⟨q, .sending cmd⟩) : r.closed = false := by
  obtain ⟨front, last, hqueued⟩ := i.queued
  have hfront : front = some (c, cmd) := (hqueued.front c cmd).mpr (by simp [h])
  by_contra hclosed
  obtain ⟨d, hd⟩ := (i.halting.closed (by simpa using hclosed)).1
  -- The command being sent was accepted after what is received, so the stop is not the last one.
  have hmem : (d, Command.stop) ∈ r.accepted.dropLast := by
    rw [hqueued.split, hfront, List.append_assoc, List.dropLast_append_of_ne_nil (by simp)]
    exact List.mem_append_left _ hd
  exact i.ordered.final _ hmem rfl

theorem Sound.response_own (i : Sound r) {r' : Runner} (hw : r.worker = .responding cmd)
    (h : Step (.handover c) r r') : r.received.getLast? = some (c, cmd) ∧
      ∃ q, r.calls c = some ⟨q, .awaiting cmd⟩ ∧ r'.calls c = some ⟨q, .leaving cmd.answer⟩ := by
  cases h with
  | deliver h hidle hopen => simp [hw] at hidle
  | @respond _ _ q cmd' cmd'' h hw' =>
    obtain ⟨rfl, hanswering⟩ := i.served.awaits c q cmd' h
    obtain rfl : cmd = cmd' := by simpa [hw, Worker.answering] using hanswering
    exact ⟨i.traced.latest cmd (by rw [hw]; rfl), q, h, by simp [move_apply]⟩

/-- Whoever looks at the session while a run is outstanding sees it. -/
theorem Sound.seen (i : Sound r) (h : r.Outstanding c id job) : r.Seen id job := by
  obtain ⟨hpending, hrun, hproperty⟩ := i.shown.outstanding c id job h
  have hrunning : r.session.status.running = true := by rw [i.shown.running, hpending]; rfl
  have hready : r.session.ready ≠ .ok () := fun hready => by
    simp [(Session.ready_ok_iff.mp hready).2.2] at hpending
  refine ⟨hrunning, hrun, hproperty, fun d r' hd hstep => ?_, fun d q r' hd hstep => ?_,
    fun a r' d cmd hstep hmem => ?_⟩
  · cases hstep with
    | read => exact ⟨_, by simp [move_apply], hrunning, hrun⟩
    | _ => simp_all [Request.Sendable]
  · cases hstep with
    | refuse h' herror =>
      obtain rfl : q = _ := by simpa using hd.symm.trans h'
      exact ⟨_, Session.ready_error i.halting.started (by simp [hpending]) herror, by simp [move_apply], rfl⟩
    | _ => simp_all
  · cases hstep with
    | acceptStep _ _ _ hok | acceptReset _ hok => exact absurd hok hready
    | acceptStop =>
      exact (List.mem_append.mp hmem).imp_right fun h => (Prod.mk.inj (List.mem_singleton.mp h)).2
    | _ => exact .inl hmem

theorem Sound.run_asked (i : Sound r) (h : (c, .step job) ∈ r.uses) : ∃ id text p,
    (c, .step id job) ∈ r.accepted ∧ r.calls c = some ⟨.step text job.maxRefinements, p⟩ ∧
      Property.parse text = .ok job.property := by
  obtain ⟨cmd, hmem, hu⟩ := mem_usesOf.mp (i.traced.uses_lead.subset h)
  have haccepted := i.received_leads.subset hmem
  obtain ⟨q, p, hc, horders, -⟩ := i.ordered.carried c cmd haccepted
  cases cmd with
  | step id job' =>
    obtain rfl : job = job' := by simpa [Command.uses] using hu
    cases q with
    | step text limit =>
      obtain ⟨hparse, rfl⟩ := horders
      exact ⟨id, text, p, haccepted, hc, hparse⟩
    | reset | stop | status => exact horders.elim
  | reset | stop => simp [Command.uses] at hu

theorem Shown.finished_either (i : Shown r) (hrun : r.session.status.run ≠ none)
    (hrunning : r.session.status.running = false) :
    (r.session.status.conclusion?.isSome ^^ r.session.status.error?.isSome) = true := by
  have hpending : r.session.pending = none := by simpa [i.running] using hrunning
  cases houtcome : r.session.status.outcome with
  | none => exact absurd houtcome (i.finished hrun hpending)
  | some outcome => cases outcome <;> simp [Status.conclusion?, Status.error?, houtcome]

namespace StoppedRun

/-- A bit that stays as it is. -/
def description : Description where
  inputs := ⟨[]⟩
  states := ⟨[⟨"x", .unsigned, .scalar ⟨1, .full 1⟩⟩]⟩
  init := [("x", .constant (.ofNat 1 0))]
  next := []
  initPanic := none
  nextPanic := none
  messages := []
  backward := .faithful

/-- A call for the inherent property, without a limit. -/
def request : Request := .step "AG![__panic == 0]" (-1)

/-- The request to verify that the system never panics, without a limit. -/
def inherentJob : Job := ⟨.inherent, -1⟩

/-- A stop comes between the acceptance of a run and its hand-over to the worker: the run is still to
    be handed over, and is canceled before its first round. A reset that got the send lock before the
    stop is refused. -/
theorem reachable (v : Verifier) : ∃ r r', Reachable v r ∧ Reachable v r' ∧
    r.Outstanding 0 "id" inherentJob ∧ r.calls 0 = some ⟨request, .sending (.step "id" inherentJob)⟩ ∧
    r.calls 1 = some ⟨.stop, .due⟩ ∧
    r'.accepted = [(0, .step "id" inherentJob), (1, .stop)] ∧ r'.received = r'.accepted ∧
    r'.uses = [(0, .step inherentJob), (0, .stats)] ∧
    r'.calls 0 = some ⟨request, .returned (.run "id")⟩ ∧ r'.calls 1 = some ⟨.stop, .returned .done⟩ ∧
    r'.calls 2 = some ⟨.reset, .returned (.refused .stopped)⟩ ∧
    r'.session.status.error? = some (.failure .canceled) := by
  have hparse : Property.parse "AG![__panic == 0]" = .ok .inherent := by decide +kernel
  have hends : (.error (.failure .canceled) : Except Stop Conclusion) ≠ .error .exhausted := nofun
  -- The run is accepted, and the stop before it is handed over.
  have haccepted := (Steps.refl (start v)).tail (.invoke (c := 0) request rfl)
    |>.tail (.enter (c := 0) rfl (by exact ⟨_, hparse⟩) rfl)
    |>.tail (.acceptStep (c := 0) "id" rfl hparse rfl)
  have hstopped := haccepted.tail (.invoke (c := 1) .stop rfl) |>.tail (.acceptStop (c := 1) rfl rfl)
  -- The worker takes the run all the same, but finds it canceled.
  have hbegun := hstopped.tail (.deliver (c := 0) rfl rfl rfl) |>.tail (.respond (c := 0) rfl rfl)
    |>.tail (.launch rfl) |>.tail (.begin rfl)
  -- The reset comes later than the stop and gets the send lock before it.
  have hrefused := hbegun.tail (.invoke (c := 2) .reset rfl) |>.tail (.release (c := 0) rfl)
    |>.tail (.enter (c := 2) rfl trivial rfl) |>.tail (.refuse (c := 2) rfl rfl)
    |>.tail (.release (c := 2) rfl)
  have hstored := hrefused.tail (.settle (v := v) (w := v) 0 rfl (by rfl) hends rfl)
    |>.tail (.measure rfl) |>.tail (.store rfl)
  -- With the run stored the worker is free for the stop.
  have hdone := hstored.tail (.enterStop (c := 1) rfl rfl) |>.tail (.deliver (c := 1) rfl rfl rfl)
    |>.tail (.close rfl) |>.tail (.respond (c := 1) rfl rfl) |>.tail (.release (c := 1) rfl)
  exact ⟨_, _, hstopped, hdone, ⟨.head _, nofun⟩, rfl, rfl, rfl, rfl, rfl, rfl, rfl, rfl, rfl⟩

end StoppedRun

end RefineCheck.Runner
