/-
  RefineCheck.Proofs.Session.Runs

  What the worker does about the commands that it takes, and what the session shows of it. With
  the order of commands this is what every step keeps.
-/

import RefineCheck.Proofs.Session.Lock

namespace RefineCheck

namespace Session

variable {s : Session} {cause : SessionError}

theorem ready_error (hstarted : s.started = true) (hpending : s.pending ≠ none)
    (h : s.ready = .error cause) : cause = .running ∨ cause = .stopped := by
  obtain ⟨v, _ | _, _ | _, _ | _, status⟩ := s <;> simp_all [ready]

theorem halt_error (hstarted : s.started = true) (h : s.halt = .error cause) :
    s.stopped = true ∧ cause = .stopped := by
  obtain ⟨v, _ | _, _ | _, pending, status⟩ := s <;>
    simp_all [halt, throw, throwThe, MonadExceptOf.throw, Except.bind, bind, pure, Except.pure, eq_comm]

end Session

namespace Runner

variable {r r' : Runner} {a : Actor} {c d : CallId} {q : Request} {p : Phase} {cmd : Command}
  {front : Option (CallId × Command)} {last : Option CallId} {id : String} {job : Job}

/-! ## Uses of the verifier -/

/-- The command that the worker is at. -/
@[grind]
def Worker.command? : Worker → Option Command
  | .responding cmd => some cmd
  | .launching id job | .starting id job | .running id job _ | .measuring id job _ _
  | .storing id job _ _ _ => some (.step id job)
  | .resetting | .publishing => some .reset
  | .closing => some .stop
  | .idle | .finished => none

/-- The uses of the verifier that remain for the command that the worker is at. -/
@[grind]
def Worker.remaining : Worker → List Use
  | .responding (.step _ job) | .launching _ job | .starting _ job => [.step job, .stats]
  | .running .. | .measuring .. | .publishing => [.stats]
  | .resetting => [.reset, .stats]
  | .responding .reset | .responding .stop | .storing .. | .closing | .idle | .finished => []

@[simp] theorem Command.begin_command (cmd : Command) : cmd.begin.command? = some cmd := by
  cases cmd <;> rfl

@[simp] theorem Command.begin_remaining (cmd : Command) : cmd.begin.remaining = cmd.uses := by
  cases cmd <;> rfl

@[simp] theorem Command.proceed_remaining (cmd : Command) :
    cmd.proceed.remaining = (Worker.responding cmd).remaining := by
  cases cmd <;> rfl

/-- The uses that carry out commands one after the other. -/
def usesOf (commands : List (CallId × Command)) : List (CallId × Use) :=
  commands.flatMap fun x => x.2.uses.map (x.1, ·)

/-- The verifier is used for one command after the other, and the worker is at the last one. -/
structure Traced (r : Runner) : Prop where
  latest : ∀ cmd, r.worker.command? = some cmd → r.received.getLast? = some (r.serving, cmd)
  uses : r.uses ++ r.worker.remaining.map (r.serving, ·) = usesOf r.received

theorem Traced.step (h : Step a r r') (i : Traced r) : Traced r' := by
  obtain ⟨latest, uses⟩ := i
  cases h with
  | deliver h hw hopen =>
    -- The worker is idle, so nothing remains to be done for the commands before.
    have hdone : r.uses = usesOf r.received := by simpa [hw, Worker.remaining] using uses
    exact ⟨by simp, by simp [hdone, usesOf]⟩
  | @respond _ c q cmd cmd' h hw =>
    rw [hw] at latest uses
    refine ⟨fun cmd'' h => latest cmd'' ?_, by simpa using uses⟩
    cases cmd' <;> simp_all [Command.proceed, Worker.command?]
  | store hw | exit hw =>
    rw [hw] at uses
    exact ⟨nofun, uses⟩
  | launch hw | begin hw | settle _ hw | measure hw | reset hw | publish hw | close hw =>
    rw [hw] at latest uses
    exact ⟨latest, by simpa [Worker.remaining] using uses⟩
  | _ => exact ⟨latest, uses⟩

/-- The uses so far are those for the first commands. -/
theorem Traced.uses_lead (i : Traced r) : r.uses <+: usesOf r.received :=
  ⟨_, i.uses⟩

/-- The command that the worker is at was received. -/
theorem Traced.received (i : Traced r) (h : r.worker.command? = some cmd) :
    (r.serving, cmd) ∈ r.received :=
  List.mem_of_getLast? (i.latest cmd h)

/-! ## Stopping -/

/-- A stop is the last command that the worker takes, and it closes the channel of commands. -/
structure Halting (r : Runner) : Prop where
  started : r.session.started = true
  confirming : r.worker = .responding .stop → r.closed = true
  closed : r.closed = true → (∃ c, (c, .stop) ∈ r.received) ∧
    (r.worker = .responding .stop ∨ r.worker = .idle ∨ r.worker = .finished)
  received : ∀ c, (c, .stop) ∈ r.received → r.worker = .closing ∨ r.closed = true
  /-- A stop is told so when the worker is done with everything. -/
  done : ∀ c p, r.calls c = some ⟨.stop, p⟩ → p = .leaving .done ∨ p = .returned .done →
    r.closed = true ∧ (r.worker = .idle ∨ r.worker = .finished)
  answered : ∀ c p, r.calls c = some ⟨.stop, p⟩ → p = .called ∨ r.session.stopped = true

/-- A stop that looked at the session left it stopped. -/
theorem Halting.stopped (i : Halting r) (h : r.calls c = some ⟨q, p⟩) (hp : p ≠ .called) (hq : q = .stop) :
    r.session.stopped = true :=
  (i.answered c p (hq ▸ h)).resolve_left hp

/-- A call gets to a phase without the worker. -/
theorem Halting.move (i : Halting r) (hcalls : ∀ d, r'.calls d = r.move c q p d)
    (hdone : q = .stop → p = .leaving .done ∨ p = .returned .done → r.calls c = some ⟨q, .leaving .done⟩)
    (hanswered : q = .stop → p = .called ∨ r'.session.stopped = true)
    (hstarted : r'.session.started = r.session.started)
    (hstopped : r.session.stopped = true → r'.session.stopped = true) (hclosed : r'.closed = r.closed)
    (hworker : r'.worker = r.worker) (hreceived : r'.received = r.received) : Halting r' where
  started := hstarted.trans i.started
  confirming := hclosed ▸ hworker ▸ i.confirming
  closed := hclosed ▸ hworker ▸ hreceived ▸ i.closed
  received := hclosed ▸ hworker ▸ hreceived ▸ i.received
  done d p' hd hp := by
    rw [hcalls, move_apply] at hd
    rw [hclosed, hworker]
    split at hd
    · cases hd
      exact i.done c _ (hdone rfl hp) (.inl rfl)
    · exact i.done d p' hd hp
  answered d p' hd := by
    rw [hcalls, move_apply] at hd
    split at hd
    · cases hd
      exact hanswered rfl
    · exact (i.answered d p' hd).imp_right hstopped

/-- The worker takes a command from an open channel, so no stop was received before. -/
theorem Halting.deliver (i : Halting r) (h : r.calls c = some ⟨q, .sending cmd⟩) (hw : r.worker = .idle)
    (hopen : r.closed = false) : Halting { r with
      worker := cmd.begin
      calls := r.move c q (.awaiting cmd)
      received := r.received ++ [(c, cmd)]
      serving := c } := by
  obtain ⟨started, confirming, closed, received, done, answered⟩ := i
  have hnone : ∀ d, (d, .stop) ∉ r.received := fun d hd => by
    rcases received d hd with hclosing | hclosed
    · simp [hw] at hclosing
    · simp [hopen] at hclosed
  have hdone : ∀ d p, r.move c q (.awaiting cmd) d = some ⟨.stop, p⟩ →
      p = .leaving .done ∨ p = .returned .done → False := by grind
  refine ⟨started, ?_, by simp [hopen], ?_, fun d p hd hp => (hdone d p hd hp).elim, by grind⟩
  · cases cmd <;> simp [Command.begin]
  · rintro d hd
    obtain ⟨rfl, rfl⟩ : d = c ∧ cmd = .stop := by simpa [hnone, eq_comm] using hd
    exact .inl rfl

/-- A stop is responded to when the channel is closed. -/
theorem Halting.respond (i : Halting r) (h : r.calls c = some ⟨q, .awaiting cmd⟩)
    (hw : r.worker = .responding cmd) (horders : q.Orders cmd) : Halting { r with
      worker := cmd.proceed
      calls := r.move c q (.leaving cmd.answer) } := by
  obtain ⟨started, confirming, closed, received, done, answered⟩ := i
  have hothers : ∀ d p, r.move c q (.leaving cmd.answer) d = some ⟨.stop, p⟩ →
      p = .called ∨ r.session.stopped = true := by grind
  cases cmd with
  | stop =>
    have hclosed := confirming hw
    exact ⟨started, nofun, fun _ => ⟨(closed hclosed).1, .inr (.inl rfl)⟩, fun _ _ => .inr hclosed,
      fun _ _ _ _ => ⟨hclosed, .inl rfl⟩, hothers⟩
  | step | reset =>
    have hopen : r.closed ≠ true := fun hclosed => by simpa [hw] using (closed hclosed).2
    have hnone : ∀ d p, r.calls d = some ⟨.stop, p⟩ → p = .leaving .done ∨ p = .returned .done → False :=
      fun d p hd hp => hopen (done d p hd hp).1
    refine ⟨started, nofun, fun hclosed => absurd hclosed hopen, fun d hd => ?_, ?_, hothers⟩
    · exact .inr ((received d hd).resolve_left (by simp [hw]))
    · grind

/-- While the worker is at a command other than a stop, no stop was received. -/
theorem Halting.work (i : Halting r) (hwork : ∃ cmd, r.worker.command? = some cmd ∧ cmd ≠ .stop)
    (hworker : r'.worker ≠ .responding .stop) (hstarted : r'.session.started = r.session.started)
    (hstopped : r'.session.stopped = r.session.stopped) (hclosed : r'.closed = r.closed)
    (hcalls : r'.calls = r.calls) (hreceived : r'.received = r.received) : Halting r' := by
  obtain ⟨started, confirming, closed, received, done, answered⟩ := i
  obtain ⟨cmd, hcmd, hne⟩ := hwork
  have hopen : r.closed ≠ true := fun h => by
    obtain hw | hw | hw := (closed h).2 <;> simp [hw, Worker.command?] at hcmd
    exact hne hcmd.symm
  have hnone : ∀ d, (d, .stop) ∉ r.received := fun d hd => by
    have hclosing := (received d hd).resolve_right hopen
    simp [hclosing, Worker.command?] at hcmd
    exact hne hcmd.symm
  exact {
    started := hstarted.trans started
    confirming := fun h => absurd h hworker
    closed := fun h => absurd (hclosed ▸ h) hopen
    received := fun d hd => absurd (hreceived ▸ hd) (hnone d)
    done := fun d p hd hp => absurd (done d p (hcalls ▸ hd) hp).1 hopen
    answered := hcalls ▸ hstopped ▸ answered }

theorem Halting.step (h : Step a r r') (hserved : Served r) (hordered : Ordered r) (htraced : Traced r)
    (i : Halting r) : Halting r' := by
  obtain ⟨started, confirming, closed, received, done, answered⟩ := id i
  cases h with
  | deliver h hw hopen => exact i.deliver h hw hopen
  | @respond _ c q cmd cmd' h hw =>
    -- The call that is responded to sent the command that the worker is at.
    obtain ⟨-, hanswering⟩ := hserved.awaits c q cmd h
    obtain rfl : cmd' = cmd := by simpa [hw, Worker.answering] using hanswering
    obtain ⟨q', p', hc, horders, -⟩ := hordered.carried c cmd' (hordered.ordered c q _ cmd' h rfl)
    obtain rfl : q = q' := by simp_all
    exact i.respond h hw horders
  | invoke => exact i.move (fun _ => rfl) nofun (fun _ => .inl rfl) rfl id rfl rfl rfl
  | misparse | acceptStep | acceptReset | read =>
    exact i.move (fun _ => rfl) nofun nofun rfl id rfl rfl rfl
  | enter h hq =>
    exact i.move (fun _ => rfl) nofun (by rintro rfl; exact hq.elim) rfl id rfl rfl rfl
  | acceptStop h hhalt =>
    obtain ⟨-, -, rfl⟩ := Session.halt_ok_iff.mp hhalt
    exact i.move (fun _ => rfl) nofun (fun _ => .inr rfl) rfl (fun _ => rfl) rfl rfl rfl
  | refuseStop h hhalt =>
    have hstopped := (Session.halt_error started hhalt).1
    exact i.move (fun _ => rfl) nofun (fun _ => .inr hstopped) rfl id rfl rfl rfl
  | refuse h | enterStop h =>
    exact i.move (fun _ => rfl) nofun (fun hq => .inr (i.stopped h nofun hq)) rfl id rfl rfl rfl
  | @release _ c q answer h =>
    refine i.move (fun _ => rfl) (fun _ hp => ?_) (fun hq => .inr (i.stopped h nofun hq)) rfl id rfl
      rfl rfl
    obtain rfl : answer = .done := by simpa using hp
    exact h
  | close hw =>
    -- The worker closes the channel for a stop that it received.
    have hstop : r.worker.command? = some .stop := by rw [hw]; rfl
    have hreceived := htraced.received hstop
    exact ⟨started, by grind, by grind, by grind, by grind, answered⟩
  | exit hw hclosed =>
    exact ⟨started, nofun, fun _ => ⟨(closed hclosed).1, .inr (.inr rfl)⟩, fun _ _ => .inr hclosed,
      fun _ _ _ _ => ⟨hclosed, .inr rfl⟩, answered⟩
  | again _ hw =>
    exact i.work (by rw [hw]; exact ⟨_, rfl, nofun⟩) (by simp [hw]) rfl rfl rfl rfl rfl
  | launch hw | begin hw | settle _ hw | measure hw | store hw | reset hw | publish hw =>
    exact i.work (by rw [hw]; exact ⟨_, rfl, nofun⟩) nofun rfl rfl rfl rfl rfl

/-! ## Runs -/

/-- The session accepted the run of a call and its result is not stored. -/
def Outstanding (r : Runner) (c : CallId) (id : String) (job : Job) : Prop :=
  (c, .step id job) ∈ r.accepted ∧ c ∉ r.stored

/-- At most one run is outstanding, and the session shows it. -/
structure Shown (r : Runner) : Prop where
  running : r.session.status.running = r.session.pending.isSome
  outstanding : ∀ c id job, r.Outstanding c id job → r.session.pending = some job ∧
    r.session.status.run = some id ∧ r.session.status.property = job.property.text
  single : ∀ c id job d id' job', r.Outstanding c id job → r.Outstanding d id' job' → c = d
  stored : ∀ c ∈ r.stored, c ∈ r.received.map Prod.fst
  /-- The run that the worker is at is not stored. -/
  busy : ∀ id job, r.worker.command? = some (.step id job) → r.serving ∉ r.stored
  /-- No run is accepted while a reset is under way. -/
  calm : ∀ c q p, r.calls c = some ⟨q, p⟩ → p.command? = some .reset → r.session.pending = none
  finished : r.session.status.run ≠ none → r.session.pending = none → r.session.status.outcome ≠ none

/-- A session that accepts commands has no run outstanding. -/
theorem Shown.none_outstanding (i : Shown r) (hpending : r.session.pending = none) :
    ¬ r.Outstanding c id job := by
  intro h
  simp [(i.outstanding c id job h).1] at hpending

/-- Accepting a command without a run leaves the outstanding runs as they are. -/
theorem Outstanding.of_append (h : r'.Outstanding d id job) (hcmd : ∀ id job, cmd ≠ .step id job)
    (haccepted : r'.accepted = r.accepted ++ [(c, cmd)]) (hstored : r'.stored = r.stored) :
    r.Outstanding d id job := by
  obtain ⟨hmem, hnot⟩ := h
  rw [haccepted, List.mem_append, List.mem_singleton] at hmem
  refine ⟨hmem.resolve_right fun heq => ?_, hstored ▸ hnot⟩
  cases heq
  exact hcmd id job rfl

/-- A call that sends its command has not been served. -/
theorem Shown.not_stored (i : Shown r) (hordered : Ordered r) (hqueued : Queued front last r)
    (h : r.calls c = some ⟨q, .sending cmd⟩) : c ∉ r.stored := by
  intro hmem
  have hfront : front = some (c, cmd) := (hqueued.front c cmd).mpr (by simp [h])
  have hsplit : r.accepted.map Prod.fst =
      r.received.map Prod.fst ++ c :: last.toList := by
    simp [hqueued.split, hfront, Function.comp_def]
  exact List.disjoint_of_nodup_append (hsplit ▸ hordered.distinct) (i.stored c hmem) List.mem_cons_self

/-- The run that a session without one accepts is the only one outstanding. -/
theorem Shown.outstanding_new (i : Shown r) (hpending : r.session.pending = none) {id' : String} {job' : Job}
    (hmem : (d, .step id' job') ∈ r.accepted ++ [(c, .step id job)]) (hnot : d ∉ r.stored) :
    d = c ∧ id' = id ∧ job' = job := by
  rcases List.mem_append.mp hmem with hmem | hmem
  · exact absurd ⟨hmem, hnot⟩ (i.none_outstanding hpending)
  · simpa using hmem

/-- A call that brings a reset holds the send lock, so no other call is about to send. -/
theorem Locked.not_reset (i : Locked r) {q' : Request} (h : r.calls c = some ⟨q, .admitted⟩)
    (hd : r.calls d = some ⟨q', p⟩) : p.command? ≠ some .reset := by
  intro hreset
  have hholds : p.holds = true := by
    cases p with
    | sending | awaiting => rfl
    | _ => simp [Phase.command?] at hreset
  obtain rfl := i.unique hd h hholds rfl
  grind

theorem Shown.step (h : Step a r r') (hlocked : Locked r) (hserved : Served r) (hordered : Ordered r)
    (hqueued : Queued front last r) (htraced : Traced r) (i : Shown r) : Shown r' := by
  obtain ⟨running, outstanding, single, stored, busy, calm, finished⟩ := id i
  cases h with
  | acceptStep id h hparse hready =>
    obtain ⟨-, -, hpending⟩ := Session.ready_ok_iff.mp hready
    -- The new run is the only one outstanding, and the status is its own.
    refine ⟨rfl, ?_, ?_, stored, busy, ?_, nofun⟩
    · rintro d id' job ⟨hmem, hnot⟩
      obtain ⟨-, rfl, rfl⟩ := i.outstanding_new hpending hmem hnot
      exact ⟨rfl, rfl, rfl⟩
    · rintro d _ _ d' _ _ ⟨hmem, hnot⟩ ⟨hmem', hnot'⟩
      exact (i.outstanding_new hpending hmem hnot).1.trans (i.outstanding_new hpending hmem' hnot').1.symm
    · have hothers {d : CallId} {q : Request} {p : Phase} (hd : r.calls d = some ⟨q, p⟩) :=
        hlocked.not_reset h hd
      grind
  | acceptReset h hready =>
    obtain ⟨-, -, hpending⟩ := Session.ready_ok_iff.mp hready
    exact ⟨running, fun c id job hc => outstanding c id job (hc.of_append (by simp) rfl rfl),
      fun c id job d id' job' hc hd => single c id job d id' job' (hc.of_append (by simp) rfl rfl)
        (hd.of_append (by simp) rfl rfl), stored, busy, fun _ _ _ _ _ => hpending, finished⟩
  | acceptStop h hhalt =>
    obtain ⟨-, -, rfl⟩ := Session.halt_ok_iff.mp hhalt
    exact ⟨running, fun c id job hc => outstanding c id job (hc.of_append (by simp) rfl rfl),
      fun c id job d id' job' hc hd => single c id job d id' job' (hc.of_append (by simp) rfl rfl)
        (hd.of_append (by simp) rfl rfl), stored, busy, by grind, finished⟩
  | deliver h hw hopen =>
    -- Calls have one command each, so this one's run cannot have been stored.
    have hnew := i.not_stored hordered hqueued h
    exact ⟨running, outstanding, single, by grind, fun _ _ _ => hnew, by grind, finished⟩
  | @respond _ c q cmd cmd' h hw =>
    refine ⟨running, outstanding, single, stored, ?_, by grind, finished⟩
    cases cmd' <;> grind [Command.proceed]
  | publish hw =>
    -- The reset has held the send lock since it found no run.
    have hpending : r.session.pending = none := by
      obtain ⟨q, hq⟩ := hserved.served .reset (by rw [hw]; rfl)
      exact calm _ q _ hq rfl
    exact ⟨by simp [Session.forget, hpending], fun c id job hc => absurd hc (i.none_outstanding hpending),
      single, stored, by grind, calm, by simp [Session.forget]⟩
  | @store _ id job refinements outcome stats hw =>
    -- The stored run was the outstanding one, and none takes its place.
    have hcommand : r.worker.command? = some (.step id job) := by rw [hw]; rfl
    have hreceived := htraced.received hcommand
    have hserving : r.Outstanding r.serving id job :=
      ⟨by simp [hqueued.split, hreceived], busy id job hcommand⟩
    have hnone {c id' job'} (hmem : (c, .step id' job') ∈ r.accepted) (hc : c ∉ r.stored ++ [r.serving]) :
        False := by
      simp only [List.mem_append, List.mem_singleton, not_or] at hc
      exact hc.2 (single c id' job' _ id job ⟨hmem, hc.1⟩ hserving)
    exact ⟨rfl, fun c id job hc => (hnone hc.1 hc.2).elim,
      fun c id job _ _ _ hc _ => (hnone hc.1 hc.2).elim, by grind, nofun, fun _ _ _ _ _ => rfl, nofun⟩
  | launch hw | begin hw | settle _ hw | measure hw | reset hw | close hw | exit hw =>
    exact ⟨running, outstanding, single, stored, by grind, calm, finished⟩
  | again => exact ⟨running, outstanding, single, stored, busy, calm, finished⟩
  | _ => exact ⟨running, outstanding, single, stored, busy, by grind, finished⟩

/-! ## Every step -/

/-- What every step keeps. -/
structure Sound (r : Runner) : Prop where
  locked : Locked r
  served : Served r
  ordered : Ordered r
  queued : ∃ front last, Queued front last r
  traced : Traced r
  halting : Halting r
  shown : Shown r

theorem Sound.start (v : Verifier) : Sound (start v) := by
  refine ⟨⟨?_, ?_⟩, ⟨?_, ?_⟩, ⟨?_, ?_, ?_, ?_, ?_⟩, ⟨none, none, ?_, ?_, ?_⟩, ⟨?_, ?_⟩,
    ⟨?_, ?_, ?_, ?_, ?_, ?_⟩, ⟨?_, ?_, ?_, ?_, ?_, ?_, ?_⟩⟩ <;>
    simp [Runner.start, Session.start, Worker.answering, Worker.command?, Worker.remaining, usesOf, Outstanding]

theorem Sound.step (h : Step a r r') (i : Sound r) : Sound r' := by
  obtain ⟨front, last, hqueued⟩ := i.queued
  exact {
    locked := i.locked.step h
    served := i.served.step h
    ordered := i.ordered.step h
    queued := hqueued.step h i.locked i.ordered
    traced := i.traced.step h
    halting := i.halting.step h i.served i.ordered i.traced
    shown := i.shown.step h i.locked i.served i.ordered hqueued i.traced }

theorem Reachable.sound (h : Reachable v r) : Sound r := by
  induction h with
  | refl => exact .start v
  | tail _ hstep ih => exact ih.step hstep

theorem Sound.received_leads (i : Sound r) : r.received <+: r.accepted := by
  obtain ⟨front, last, hqueued⟩ := i.queued
  exact ⟨_, by rw [hqueued.split, List.append_assoc]⟩

end Runner

end RefineCheck
