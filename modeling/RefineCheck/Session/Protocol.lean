/-
  RefineCheck.Session.Protocol

  A session that any number of calls use at once. A single worker owns the verifier. Calls that
  need it take turns at a send lock: whoever holds it looks at the session, hands a command to the
  worker and waits for the response. A stop marks the session first and queues for the lock
  afterwards, so it can come between the acceptance of a command and its hand-over.

  What is done under the lock of the session is one step here, and so is a hand-over between a
  call and the worker.
-/

import RefineCheck.Session

namespace RefineCheck

/-- One round of the steps of a job: unless the run is canceled, a step and its check. There is no
    conclusion yet if another round follows. -/
def Verifier.attempt (inner : Nat) (canceled : Bool) (job : Job) (start : Nat) :
    VerifyM (Option Conclusion) := do
  if canceled then VerifyM.fail .canceled
  prepare inner job.property
  let conclusion ← conclude job.property
  let made := (← get).counters.refinements - start
  let limits : Limits := { refinements := job.maxRefinements }
  return if conclusion.isKnown || limits.reached made then some conclusion else none

/-! ## Calls -/

/-- Tells calls apart. -/
abbrev CallId := Nat

namespace Runner

/-- What a call asks for. -/
inductive Request
  | step (text : String) (maxRefinements : Int)
  | reset
  | stop
  | status

/-- Whether the call takes the send lock before it looks at the session. -/
def Request.Sendable : Request → Prop
  | .step text _ => ∃ p, Property.parse text = .ok p
  | .reset => True
  | .stop | .status => False

/-- What the worker is asked to do. -/
inductive Command
  | step (id : String) (job : Job)
  | reset
  | stop

/-- What a call returns. -/
inductive Answer
  | run (id : String)
  | done
  | refused (cause : SessionError)
  | status (s : Status)

/-- What a call returns when the worker responds to its command. -/
def Command.answer : Command → Answer
  | .step id _ => .run id
  | .reset | .stop => .done

/-- How far a call got. -/
inductive Phase
  | called
  /-- It took the send lock and looks at the session next. -/
  | admitted
  /-- It stopped the session and needs the send lock next. -/
  | due
  | sending (cmd : Command)
  | awaiting (cmd : Command)
  /-- It gives up the send lock next. -/
  | leaving (answer : Answer)
  | returned (answer : Answer)

/-- A request with how far it has come. -/
structure Call where
  request : Request
  phase : Phase

/-! ## The worker -/

/-- How the worker uses the verifier. -/
inductive Use
  | step (job : Job)
  | reset
  | stats

/-- The uses that carry out a command. -/
def Command.uses : Command → List Use
  | .step _ job => [.step job, .stats]
  | .reset => [.reset, .stats]
  | .stop => []

/-- What the worker does next. -/
inductive Worker
  /-- Takes a command, or ends if none can come. -/
  | idle
  | responding (cmd : Command)
  /-- Makes the run cancelable. -/
  | launching (id : String) (job : Job)
  | starting (id : String) (job : Job)
  /-- Makes another round, after a number of refinements in earlier runs. -/
  | running (id : String) (job : Job) (start : Nat)
  | measuring (id : String) (job : Job) (refinements : Nat) (outcome : Except RunError Conclusion)
  | storing (id : String) (job : Job) (refinements : Nat) (outcome : Except RunError Conclusion)
      (stats : Verifier.Stats)
  | resetting
  | publishing
  /-- Closes the channel of commands. -/
  | closing
  | finished

/-- What the worker does first about a command. A step is responded to before it runs. -/
def Command.begin : Command → Worker
  | .step id job => .responding (.step id job)
  | .reset => .resetting
  | .stop => .closing

/-- What the worker does after its response. -/
def Command.proceed : Command → Worker
  | .step id job => .launching id job
  | .reset | .stop => .idle

end Runner

/-! ## The steps of all -/

/-- A session with its calls and its worker. The last five fields record what happened. -/
structure Runner where
  session : Session
  /-- Whether the run is canceled, while it can be. -/
  context : Option Bool := none
  /-- Whether the channel of commands is closed. -/
  closed : Bool := false
  /-- The call that holds the send lock. -/
  sender : Option CallId := none
  worker : Runner.Worker := .idle
  calls : CallId → Option Runner.Call := fun _ => none
  /-- The commands in the order the session took them, with their calls. -/
  accepted : List (CallId × Runner.Command) := []
  /-- The commands in the order the worker took them. -/
  received : List (CallId × Runner.Command) := []
  /-- The call whose command the worker took last. -/
  serving : CallId := 0
  uses : List (CallId × Runner.Use) := []
  /-- The calls whose runs have stored their results. -/
  stored : List CallId := []

namespace Runner

/-- A started session that nobody has called. -/
def start (v : Verifier) : Runner := { session := Session.start { verifier := v } }

/-- The calls after one of them got to a phase. -/
def move (r : Runner) (c : CallId) (q : Request) (p : Phase) : CallId → Option Call :=
  fun d => if d = c then some ⟨q, p⟩ else r.calls d

/-- Who takes a step. -/
inductive Actor
  | call (c : CallId)
  /-- A call and the worker. -/
  | handover (c : CallId)
  | worker

/-- A step of one of the calls, of the worker, or of both. -/
inductive Step : Actor → Runner → Runner → Prop
  | invoke {r c} (q : Request) (h : r.calls c = none) :
      Step (.call c) r { r with calls := r.move c q .called }
  -- A text is parsed before any lock is taken, and a call for what does not parse ends there.
  | misparse {r c text limit cause} (h : r.calls c = some ⟨.step text limit, .called⟩)
      (hparse : Property.parse text = .error cause) :
      Step (.call c) r { r with
        calls := r.move c (.step text limit) (.returned (.refused (.parse text cause))) }
  | enter {r c q} (h : r.calls c = some ⟨q, .called⟩) (hq : q.Sendable) (hfree : r.sender = none) :
      Step (.call c) r { r with sender := some c, calls := r.move c q .admitted }
  -- Under the send lock, the session either takes the command, which is sent next, or refuses it.
  | acceptStep {r c text limit p} (id : String)
      (h : r.calls c = some ⟨.step text limit, .admitted⟩) (hparse : Property.parse text = .ok p)
      (hready : r.session.ready = .ok ()) :
      Step (.call c) r { r with
        session := r.session.accept id p limit
        calls := r.move c (.step text limit) (.sending (.step id ⟨p, limit⟩))
        accepted := r.accepted ++ [(c, .step id ⟨p, limit⟩)] }
  | acceptReset {r c} (h : r.calls c = some ⟨.reset, .admitted⟩) (hready : r.session.ready = .ok ()) :
      Step (.call c) r { r with
        calls := r.move c .reset (.sending .reset)
        accepted := r.accepted ++ [(c, .reset)] }
  | refuse {r c q cause} (h : r.calls c = some ⟨q, .admitted⟩) (hready : r.session.ready = .error cause) :
      Step (.call c) r { r with calls := r.move c q (.leaving (.refused cause)) }
  -- A stop needs no send lock to stop the session. It cancels the run that can be canceled already.
  | acceptStop {r c s} (h : r.calls c = some ⟨.stop, .called⟩) (hhalt : r.session.halt = .ok s) :
      Step (.call c) r { r with
        session := s
        context := r.context.map fun _ => true
        calls := r.move c .stop .due
        accepted := r.accepted ++ [(c, .stop)] }
  | refuseStop {r c cause} (h : r.calls c = some ⟨.stop, .called⟩)
      (hhalt : r.session.halt = .error cause) :
      Step (.call c) r { r with calls := r.move c .stop (.returned (.refused cause)) }
  | enterStop {r c q} (h : r.calls c = some ⟨q, .due⟩) (hfree : r.sender = none) :
      Step (.call c) r { r with sender := some c, calls := r.move c q (.sending .stop) }
  | read {r c} (h : r.calls c = some ⟨.status, .called⟩) :
      Step (.call c) r { r with calls := r.move c .status (.returned (.status r.session.status)) }
  | release {r c q answer} (h : r.calls c = some ⟨q, .leaving answer⟩) :
      Step (.call c) r { r with sender := none, calls := r.move c q (.returned answer) }
  -- Nobody buffers a command or a response: both sides take the step together.
  | deliver {r c q cmd} (h : r.calls c = some ⟨q, .sending cmd⟩) (hw : r.worker = .idle)
      (hopen : r.closed = false) :
      Step (.handover c) r { r with
        worker := cmd.begin
        calls := r.move c q (.awaiting cmd)
        received := r.received ++ [(c, cmd)]
        serving := c }
  | respond {r c q cmd cmd'} (h : r.calls c = some ⟨q, .awaiting cmd⟩)
      (hw : r.worker = .responding cmd') :
      Step (.handover c) r { r with
        worker := cmd'.proceed
        calls := r.move c q (.leaving cmd.answer) }
  -- The session may have been stopped since the run was accepted; then the run is canceled at once.
  | launch {r id job} (hw : r.worker = .launching id job) :
      Step .worker r { r with context := some r.session.stopped, worker := .starting id job }
  | begin {r id job} (hw : r.worker = .starting id job) :
      Step .worker r { r with
        worker := .running id job r.session.verifier.counters.refinements
        uses := r.uses ++ [(r.serving, .step job)] }
  | again {r id job start v} (inner : Nat) (hw : r.worker = .running id job start)
      (hrun : (Verifier.attempt inner (r.context == some true) job start).run.run r.session.verifier =
        (.ok none, v)) :
      Step .worker r { r with session := { r.session with verifier := v } }
  -- A round may take as long as it needs, so running out of fuel is no end of it.
  | settle {r id job start result v refinements outcome w} (inner : Nat)
      (hw : r.worker = .running id job start)
      (hrun : (Verifier.attempt inner (r.context == some true) job start).run.run r.session.verifier =
        (result.map some, v))
      (hends : result ≠ .error .exhausted)
      (hsettle : Session.settle ⟨v.counters.refinements - start, result⟩ v = (refinements, outcome, w)) :
      Step .worker r { r with
        session := { r.session with verifier := w }
        worker := .measuring id job refinements outcome }
  | measure {r id job refinements outcome} (hw : r.worker = .measuring id job refinements outcome) :
      Step .worker r { r with
        worker := .storing id job refinements outcome r.session.verifier.stats
        uses := r.uses ++ [(r.serving, .stats)] }
  | store {r id job refinements outcome stats}
      (hw : r.worker = .storing id job refinements outcome stats) :
      Step .worker r { r with
        session := r.session.store refinements outcome stats
        context := none
        worker := .idle
        stored := r.stored ++ [r.serving] }
  | reset {r} (hw : r.worker = .resetting) :
      Step .worker r { r with
        session := { r.session with verifier := r.session.verifier.reset }
        worker := .publishing
        uses := r.uses ++ [(r.serving, .reset)] }
  | publish {r} (hw : r.worker = .publishing) :
      Step .worker r { r with
        session := r.session.forget
        worker := .responding .reset
        uses := r.uses ++ [(r.serving, .stats)] }
  | close {r} (hw : r.worker = .closing) :
      Step .worker r { r with closed := true, worker := .responding .stop }
  | exit {r} (hw : r.worker = .idle) (hclosed : r.closed = true) :
      Step .worker r { r with worker := .finished }

/-- What any number of steps leads to. -/
inductive Steps : Runner → Runner → Prop
  | refl (r : Runner) : Steps r r
  | tail {r₁ r₂ r₃ : Runner} {a : Actor} (h : Steps r₁ r₂) (hstep : Step a r₂ r₃) : Steps r₁ r₃

/-- What the calls and the worker lead to after the start, with a verifier. -/
def Reachable (v : Verifier) (r : Runner) : Prop := Steps (start v) r

end Runner

end RefineCheck
