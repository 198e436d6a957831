/-
  RefineCheck.Proofs.Session.Lock

  The order of commands. The send lock lets one call at a time look at the session and send its
  command, so at most that command and a stop behind it are accepted and not yet with the worker.
-/

import Mathlib.Data.List.Nodup
import RefineCheck.Session.Protocol

namespace RefineCheck

namespace Session

variable {s t : Session}

theorem ready_ok_iff : s.ready = .ok () ↔ s.started = true ∧ s.stopped = false ∧ s.pending = none := by
  obtain ⟨v, _ | _, _ | _, _ | _, status⟩ := s <;> simp [ready]

theorem halt_ok_iff : s.halt = .ok t ↔
    s.started = true ∧ s.stopped = false ∧ t = { s with stopped := true } := by
  obtain ⟨v, _ | _, _ | _, pending, status⟩ := s <;>
    simp [halt, throw, throwThe, MonadExceptOf.throw, Except.bind, bind, pure, Except.pure, eq_comm]

end Session

namespace Runner

variable {r r' : Runner} {a : Actor} {c d : CallId} {q : Request} {p p' : Phase} {cmd : Command}
  {front : Option (CallId × Command)} {last : Option CallId}

@[grind =]
theorem move_apply : r.move c q p d = if d = c then some ⟨q, p⟩ else r.calls d := rfl

/-! ## The send lock -/

/-- Whether a call in a phase holds the send lock. -/
@[grind]
def Phase.holds : Phase → Bool
  | .admitted | .sending _ | .awaiting _ | .leaving _ => true
  | .called | .due | .returned _ => false

/-- The send lock is held by the call whose phase says so. -/
structure Locked (r : Runner) : Prop where
  holds : ∀ c q p, r.calls c = some ⟨q, p⟩ → (p.holds = true ↔ r.sender = some c)
  held : ∀ c, r.sender = some c → r.calls c ≠ none

/-- Two calls that hold the send lock are the same. -/
theorem Locked.unique (i : Locked r) {q' : Request} (hc : r.calls c = some ⟨q, p⟩)
    (hd : r.calls d = some ⟨q', p'⟩) (hp : p.holds = true) (hp' : p'.holds = true) : c = d :=
  Option.some.inj <| ((i.holds c q p hc).mp hp).symm.trans ((i.holds d q' p' hd).mp hp')

theorem Locked.step (h : Step a r r') (i : Locked r) : Locked r' := by
  obtain ⟨holds, held⟩ := i
  cases h with
  | launch | begin | again | settle | measure | store | reset | publish | close | exit =>
    exact ⟨holds, held⟩
  | _ =>
    -- Whoever takes the lock found it free, and only its holder gives it up.
    constructor <;> grind

/-! ## Responses -/

/-- The command that the worker owes a response. -/
@[grind]
def Worker.answering : Worker → Option Command
  | .responding cmd => some cmd
  | .resetting | .publishing => some .reset
  | .closing => some .stop
  | _ => none

@[simp, grind =] theorem Command.begin_answering (cmd : Command) : cmd.begin.answering = some cmd := by
  cases cmd <;> rfl

@[simp, grind =] theorem Command.proceed_answering (cmd : Command) : cmd.proceed.answering = none := by
  cases cmd <;> rfl

/-- The call that awaits a response is the one that the worker owes it. -/
structure Served (r : Runner) : Prop where
  awaits : ∀ c q cmd, r.calls c = some ⟨q, .awaiting cmd⟩ →
    c = r.serving ∧ r.worker.answering = some cmd
  served : ∀ cmd, r.worker.answering = some cmd →
    ∃ q, r.calls r.serving = some ⟨q, .awaiting cmd⟩

theorem Served.step (h : Step a r r') (i : Served r) : Served r' := by
  obtain ⟨awaits, served⟩ := i
  cases h with
  | @deliver _ c q cmd h hw hopen =>
    -- An idle worker owes no response, so no other call awaits one.
    have hnone : r.worker.answering = none := by rw [hw]; rfl
    refine ⟨fun d q' cmd' hd => by grind, fun cmd' hcmd' => ⟨q, ?_⟩⟩
    simpa [move_apply] using hcmd'
  | _ => constructor <;> grind

/-! ## The order of acceptance -/

/-- Whether a command is what a request asks for. -/
@[grind]
def Request.Orders : Request → Command → Prop
  | .step text limit, .step _ job => Property.parse text = .ok job.property ∧ job.maxRefinements = limit
  | .reset, .reset | .stop, .stop => True
  | _, _ => False

/-- Whether a call in a phase brings a command to the worker, or brought it there. -/
@[grind]
def Phase.Carries : Phase → Command → Prop
  | .called, _ | .admitted, _ => False
  | .due, cmd => cmd = .stop
  | .sending cmd', cmd | .awaiting cmd', cmd => cmd' = cmd
  | .leaving answer, cmd | .returned answer, cmd => answer = cmd.answer

/-- The command that a call in a phase still has under way. -/
@[grind]
def Phase.command? : Phase → Option Command
  | .due => some .stop
  | .sending cmd | .awaiting cmd => some cmd
  | _ => none

/-- Each accepted command is that of one call, which asked for it, and a stop is the last one. -/
structure Ordered (r : Runner) : Prop where
  /-- So a call whose answer is another one, such as a refusal, has no accepted command. -/
  carried : ∀ c cmd, (c, cmd) ∈ r.accepted →
    ∃ q p, r.calls c = some ⟨q, p⟩ ∧ q.Orders cmd ∧ p.Carries cmd
  ordered : ∀ c q p cmd, r.calls c = some ⟨q, p⟩ → p.command? = some cmd → (c, cmd) ∈ r.accepted
  distinct : (r.accepted.map Prod.fst).Nodup
  stopped : ∀ c, (c, .stop) ∈ r.accepted → r.session.stopped = true
  final : ∀ x ∈ r.accepted.dropLast, x.2 ≠ .stop

/-- A call in a phase without a command has none accepted. -/
theorem Ordered.not_accepted (i : Ordered r) (h : r.calls c = some ⟨q, p⟩)
    (hp : ∀ cmd, ¬ p.Carries cmd) : (c, cmd) ∉ r.accepted := by
  intro hmem
  obtain ⟨q', p', hc, -, hcarries⟩ := i.carried c cmd hmem
  grind

/-- A call gets on with its command, or without one. -/
theorem Ordered.move (i : Ordered r) (h : r.calls c = some ⟨q, p⟩)
    (hcarries : ∀ cmd, p.Carries cmd → p'.Carries cmd)
    (hcommand : ∀ cmd, p'.command? = some cmd → p.command? = some cmd)
    (hcalls : ∀ d, r'.calls d = r.move c q p' d) (haccepted : r'.accepted = r.accepted)
    (hstopped : r'.session.stopped = r.session.stopped) : Ordered r' where
  carried d cmd hmem := by
    obtain ⟨q', p'', hd, horders, hcarried⟩ := i.carried d cmd (haccepted ▸ hmem)
    grind
  ordered d q' p'' cmd hd hcmd := by
    have := i.ordered d q'
    grind
  distinct := haccepted ▸ i.distinct
  stopped := haccepted ▸ hstopped ▸ i.stopped
  final := haccepted ▸ i.final

/-- A call that had no command has one accepted. -/
theorem Ordered.accept (i : Ordered r) (h : r.calls c = some ⟨q, p⟩)
    (hp : ∀ cmd, ¬ p.Carries cmd) (hready : r.session.stopped = false) (hq : q.Orders cmd)
    (hcarries : p'.Carries cmd) (hcommand : p'.command? = some cmd)
    (hcalls : ∀ d, r'.calls d = r.move c q p' d) (haccepted : r'.accepted = r.accepted ++ [(c, cmd)])
    (hstopped : cmd = .stop → r'.session.stopped = true) : Ordered r' where
  carried d cmd' hmem := by
    rw [haccepted, List.mem_append, List.mem_singleton] at hmem
    rcases hmem with hmem | heq
    · obtain ⟨q', p'', hd, horders, hcarried⟩ := i.carried d cmd' hmem
      have hne : d ≠ c := fun e => i.not_accepted h hp (e ▸ hmem)
      exact ⟨q', p'', by rw [hcalls, move_apply, if_neg hne, hd], horders, hcarried⟩
    · cases heq
      exact ⟨q, p', by rw [hcalls, move_apply, if_pos rfl], hq, hcarries⟩
  ordered d q' p'' cmd' hd hcmd := by
    have := i.ordered d q'
    grind
  distinct := by
    rw [haccepted, List.map_append, List.nodup_append]
    -- A call whose command was accepted before is not in this phase.
    have hnew : c ∉ r.accepted.map Prod.fst := by
      simpa using fun cmd' => i.not_accepted h hp
    exact ⟨i.distinct, List.nodup_singleton c, by grind⟩
  stopped d hmem := by
    have := i.stopped d
    grind
  final := by
    -- Had a stop been accepted, the session would be stopped.
    rw [haccepted, List.dropLast_concat]
    intro x hx hstop
    have := i.stopped x.1 (hstop ▸ hx)
    grind

theorem Ordered.step (h : Step a r r') (i : Ordered r) : Ordered r' := by
  cases h with
  | invoke q h =>
    obtain ⟨carried, ordered, distinct, stopped, final⟩ := i
    exact ⟨by grind, by grind, distinct, stopped, final⟩
  | acceptStep id h hparse hready =>
    have hready := Session.ready_ok_iff.mp hready
    exact i.accept h (by simp [Phase.Carries]) hready.2.1 (by exact ⟨hparse, rfl⟩) (by rfl) rfl
      (fun _ => rfl) rfl nofun
  | acceptReset h hready =>
    have hready := Session.ready_ok_iff.mp hready
    exact i.accept h (by simp [Phase.Carries]) hready.2.1 (by trivial) (by rfl) rfl (fun _ => rfl)
      rfl nofun
  | acceptStop h hhalt =>
    obtain ⟨-, hready, rfl⟩ := Session.halt_ok_iff.mp hhalt
    exact i.accept h (by simp [Phase.Carries]) hready (by trivial) (by rfl) rfl (fun _ => rfl) rfl
      fun _ => rfl
  | misparse h | enter h | refuse h | refuseStop h | enterStop h | read h | release h | deliver h
  | respond h =>
    exact i.move h (by grind) (by grind) (fun _ => rfl) rfl rfl
  | launch | begin | again | settle | measure | store | reset | publish | close | exit =>
    exact ⟨i.carried, i.ordered, i.distinct, i.stopped, i.final⟩

/-! ## The order of hand-overs -/

/-- The commands that were accepted and not received: that of the holder of the send lock, and
    then a stop that waits for the lock. -/
structure Queued (front : Option (CallId × Command)) (last : Option CallId) (r : Runner) : Prop where
  split : r.accepted = r.received ++ front.toList ++ last.toList.map (·, .stop)
  front : ∀ c cmd, front = some (c, cmd) ↔ (r.calls c).map Call.phase = some (.sending cmd)
  last : ∀ c q, r.calls c = some ⟨q, .due⟩ → last = some c

/-- A session that is not stopped has accepted no stop. -/
theorem Queued.last_none (j : Ordered r) (k : Queued front last r) (hready : r.session.stopped = false) :
    last = none := by
  cases last with
  | none => rfl
  | some d =>
    have hmem : (d, Command.stop) ∈ r.accepted := by simp [k.split]
    simp [j.stopped d hmem] at hready

/-- Only the holder of the send lock sends. -/
theorem Queued.front_holds (i : Locked r) (k : Queued front last r) (hfront : front = some (c, cmd)) :
    r.sender = some c := by
  obtain ⟨⟨q, p⟩, hc, rfl⟩ := Option.map_eq_some_iff.mp ((k.front c cmd).mp hfront)
  exact (i.holds c q _ hc).mp rfl

/-- Nobody sends while the holder of the send lock looks at the session. -/
theorem Queued.front_none (i : Locked r) (k : Queued front last r) (h : r.calls c = some ⟨q, .admitted⟩) :
    front = none := by
  have hc := (i.holds c q _ h).mp rfl
  have hfront := k.front c
  rcases front with _ | ⟨d, cmd⟩
  · rfl
  · obtain rfl : d = c := Option.some.inj ((k.front_holds i rfl).symm.trans hc)
    grind

/-- A command that is accepted goes to the front. -/
theorem Queued.accept (i : Locked r) (j : Ordered r) (k : Queued front last r)
    (h : r.calls c = some ⟨q, .admitted⟩) (hready : r.session.stopped = false)
    (hcalls : ∀ d, r'.calls d = r.move c q (.sending cmd) d)
    (haccepted : r'.accepted = r.accepted ++ [(c, cmd)]) (hreceived : r'.received = r.received) :
    Queued (some (c, cmd)) none r' := by
  obtain rfl := k.last_none j hready
  obtain rfl := k.front_none i h
  have split := k.split
  have hnobody := k.front
  refine ⟨by simp [haccepted, hreceived, split], fun d cmd' => ?_, fun d q' hd => ?_⟩
  · rw [hcalls]
    grind
  · have := k.last d q'
    grind

theorem Queued.step (h : Step a r r') (i : Locked r) (j : Ordered r) (k : Queued front last r) :
    ∃ front' last', Queued front' last' r' := by
  obtain ⟨split, hfront, hlast⟩ := id k
  cases h with
  | acceptStep id h hparse hready =>
    exact ⟨_, _, k.accept i j h (Session.ready_ok_iff.mp hready).2.1 (fun _ => rfl) rfl rfl⟩
  | acceptReset h hready =>
    exact ⟨_, _, k.accept i j h (Session.ready_ok_iff.mp hready).2.1 (fun _ => rfl) rfl rfl⟩
  | @acceptStop _ c s h hhalt =>
    obtain rfl := k.last_none j (Session.halt_ok_iff.mp hhalt).2.1
    refine ⟨front, some c, by simp [split], ?_, ?_⟩ <;> grind
  | @enterStop _ c q h hfree =>
    obtain rfl := hlast c q h
    -- The lock is free, so no command is before the stop.
    have hnobody : front = none := by
      rcases front with _ | ⟨d, cmd⟩
      · rfl
      · simp [k.front_holds i rfl] at hfree
    refine ⟨some (c, .stop), none, by simp [split, hnobody], ?_, ?_⟩ <;> grind
  | @deliver _ c q cmd h hw hopen =>
    have hc : front = some (c, cmd) := by grind
    refine ⟨none, last, by simp [split, hc], fun d cmd' => ?_, by grind⟩
    grind [hfront d cmd']
  | launch | begin | again | settle | measure | store | reset | publish | close | exit =>
    exact ⟨front, last, split, hfront, hlast⟩
  | _ => exact ⟨front, last, split, by grind, by grind⟩

end Runner

end RefineCheck
