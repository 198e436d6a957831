/-
  RefineCheck.Session

  A verifier that works in the background. A session takes one run at a time, answers
  questions about the current or the last one, and can be stopped, which cancels the run
  before its next step.
-/

import RefineCheck.Property.Parser
import RefineCheck.Text.Columns
import RefineCheck.Verifier.Verdict

namespace RefineCheck

/-! ## Runs -/

/-- Why a session refuses a command. -/
inductive SessionError
  | notStarted
  | stopped
  | running
  /-- The text of a property that does not parse. -/
  | parse (text : String) (cause : ParseError)

/-- The text of the failure. -/
def SessionError.message : SessionError → String
  | .notStarted => "runner: the runner has not been started"
  | .stopped => "runner: the runner has been stopped"
  | .running => "runner: a verification is already running"
  | .parse text cause => cause.message text

/-- Why a run ended without a conclusion. -/
inductive RunError
  | failure (cause : Failure)
  /-- An invariant was violated; the verifier was reset. -/
  | panicked (cause : Fault)
  | exhausted
deriving DecidableEq, Repr

/-- The text of the failure. -/
def RunError.message : RunError → String
  | .failure cause => cause.message
  | .panicked cause => "runner: verification panicked: " ++ cause.message
  | .exhausted => "runner: verification exhausted"

/-- What a run is asked to do. -/
structure Job where
  property : Property
  maxRefinements : Int

/-! ## Status -/

/-- What is known of the current or the last run. -/
structure Status where
  running : Bool := false
  /-- The identifier of the run, if there was one. -/
  run : Option String := none
  property : String := ""
  refinements : Nat := 0
  outcome : Option (Except RunError Conclusion) := none
  stats : Verifier.Stats := ⟨{}, 0, 0, ""⟩

namespace Status

/-- The identifier of no run. -/
def noRun : String := "00000000-0000-0000-0000-000000000000"

/-- The verdict of a run that gave one. -/
def conclusion? (s : Status) : Option Conclusion :=
  match s.outcome with
  | some (.ok c) => some c
  | _ => none

/-- The failure of a run that failed. -/
def error? (s : Status) : Option RunError :=
  match s.outcome with
  | some (.error e) => some e
  | _ => none

/-- The line of the report for the outcome, if the run is over. -/
def outcomeLine (s : Status) : String :=
  match s.outcome with
  | some (.error e) => "Error:\t" ++ e.message ++ "\n"
  | some (.ok c) => "Conclusion:\t" ++ c.response ++ "\n"
  | none => ""

/-- The columns of the report. -/
def layout : Text.Columns.Layout := ⟨4, 1⟩

/-- The report in aligned columns. -/
def text (s : Status) : String :=
  Text.Columns.align layout <|
    "Run:\t" ++ s.run.getD noRun ++ "\nProperty:\t" ++ s.property ++ "\nRunning:\t" ++
      toString s.running ++ "\nRefinements:\t" ++ toString s.refinements ++ "\n" ++ s.outcomeLine ++
      "States:\t" ++ toString s.stats.finalStates ++ "\nTransitions:\t" ++
      toString s.stats.finalTransitions ++ "\n"

end Status

/-! ## Sessions -/

/-- A verifier that serves one run at a time. -/
structure Session where
  verifier : Verifier
  started : Bool := false
  stopped : Bool := false
  /-- The run that is under way. -/
  pending : Option Job := none
  status : Status := {}

namespace Session

/-- Whether a command can be given. -/
def ready (s : Session) : Except SessionError Unit :=
  if !s.started then .error .notStarted
  else if s.stopped then .error .stopped
  else if s.pending.isSome then .error .running
  else .ok ()

/-- Starts the session; a started one stays as it is. -/
def start (s : Session) : Session := { s with started := true }

/-- The session with a run of steps on a property accepted under an identifier. -/
def accept (s : Session) (id : String) (p : Property) (maxRefinements : Int) : Session :=
  { s with
    pending := some ⟨p, maxRefinements⟩
    status := { running := true, run := some id, property := p.text, stats := s.status.stats } }

/-- Accepts a run of steps on a property under an identifier. -/
def step (s : Session) (id text : String) (maxRefinements : Int) : Except SessionError Session := do
  let p ← (Property.parse text).mapError (.parse text)
  s.ready
  return s.accept id p maxRefinements

/-- What is reported of steps that ended, and the verifier after them. An invariant that is violated
    resets the verifier. -/
def settle (progress : Verifier.Progress) (w : Verifier) : Nat × Except RunError Conclusion × Verifier :=
  match progress.result with
  | .ok c => (progress.refinements, .ok c, w)
  | .error (.failure cause) => (progress.refinements, .error (.failure cause), w)
  | .error (.fault cause) => (0, .error (.panicked cause), w.reset)
  | .error .exhausted => (progress.refinements, .error .exhausted, w)

/-- Carries out the steps of a job. -/
def perform (v : Verifier) (fuel : Nat) (interrupted : Counters → Bool) (job : Job) :
    Nat × Except RunError Conclusion × Verifier :=
  let (progress, w) := v.step fuel ⟨job.maxRefinements, interrupted⟩ job.property
  settle progress w

/-- Stores the result of the run that is under way. -/
def store (s : Session) (refinements : Nat) (outcome : Except RunError Conclusion)
    (stats : Verifier.Stats) : Session :=
  { s with
    pending := none
    status := { s.status with running := false, refinements, outcome := some outcome, stats } }

/-- Ends the run that is under way, unless it is interrupted first. -/
def finishUnless (s : Session) (fuel : Nat) (interrupted : Counters → Bool) : Session :=
  match s.pending with
  | none => s
  | some job =>
    let (refinements, outcome, verifier) := perform s.verifier fuel interrupted job
    { s with verifier }.store refinements outcome verifier.stats

/-- Ends the run that is under way. -/
def finish (s : Session) (fuel : Nat) : Session := s.finishUnless fuel fun _ => false

/-- Whether the run that is under way asks the system for states. -/
def callsSystem (s : Session) (fuel : Nat) : Bool :=
  match s.pending with
  | none => false
  | some job =>
    let (_, w) := s.verifier.step fuel ⟨job.maxRefinements, fun _ => false⟩ job.property
    w.counters.generatedStates != s.verifier.counters.generatedStates

/-- The session with no more commands accepted. -/
def halt (s : Session) : Except SessionError Session := do
  if !s.started then throw .notStarted
  if s.stopped then throw .stopped
  return { s with stopped := true }

/-- Stops the session. The run that is under way ends with the step in which it first asks the
    system for states. -/
def stop (s : Session) (fuel : Nat) : Except SessionError Session := do
  let s ← s.halt
  let before := s.verifier.counters.generatedStates
  return s.finishUnless fuel fun c => c.generatedStates != before

/-- Forgets the last run. -/
def forget (s : Session) : Session := { s with status := { stats := s.verifier.stats } }

/-- Discards the space, the precisions and the statistics. -/
def reset (s : Session) : Except SessionError Session := do
  s.ready
  return { s with verifier := s.verifier.reset }.forget

end Session

end RefineCheck
