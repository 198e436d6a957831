/-
  RefineCheck.Service

  A session behind a request interface: requests with named fields, replies that report the
  status, and failures with a code for their kind.
-/

import RefineCheck.Session
import RefineCheck.Text.Decimal

namespace RefineCheck.Service

/-! ## Description -/

/-- The full name of the service. -/
def name : String := "gomck.Verification"

/-- The methods of the service. -/
def methods : List String := ["Reset", "Status", "Step"]

/-- The file that describes the interface. -/
def metadata : String := "gomck/verification.proto"

/-! ## Failures -/

/-- The status codes of a failed request. -/
inductive Code
  | invalidArgument | failedPrecondition | unavailable | internal
deriving DecidableEq, Repr

/-- A failed request. -/
structure Error where
  code : Code
  message : String
deriving DecidableEq, Repr

/-- The reply to a command that the session refuses. -/
def Error.ofSession (e : SessionError) : Error :=
  let code := match e with
    | .parse _ _ => .invalidArgument
    | .running => .failedPrecondition
    | .notStarted | .stopped => .unavailable
  ⟨code, e.message⟩

/-! ## Requests -/

/-- The value of a field of a request. -/
inductive Argument
  | text (s : String)
  | number (x : Text.Decimal)
  | other

/-- The fields of a request by their names. -/
abbrev Request := List (String × Argument)

/-- The request to step on a property. -/
def stepRequest (property : String) (maxRefinements : Int) : Request :=
  [("property", .text property), ("maxRefinements", .number ⟨maxRefinements, 0⟩)]

/-- The property that a request asks about; an empty one counts as missing. -/
def property? (r : Request) : Option String :=
  match r.lookup "property" with
  | some (.text s) => if s.isEmpty then none else some s
  | _ => none

/-- The largest number of refinements, none if it is negative. What is no number counts as zero. -/
def maxRefinements (r : Request) : Int :=
  match r.lookup "maxRefinements" with
  | none => -1
  | some (.number x) => x.toInt64
  | some _ => 0

/-- Starts a run under an identifier. -/
def step (s : Session) (id : String) (r : Request) : Except Error Session :=
  match property? r with
  | none => .error ⟨.invalidArgument, "service: the request has no property"⟩
  | some text => (s.step id text (maxRefinements r)).mapError .ofSession

/-- Forgets all that was verified. -/
def reset (s : Session) : Except Error Session := s.reset.mapError .ofSession

/-! ## Reports -/

/-- The status of the last run as it is reported. -/
structure Report where
  /-- The identifier of the run, empty if there was none. -/
  run : String
  property : String
  running : Bool
  refinements : Nat
  /-- Whether the run concluded that the property holds. -/
  holds : Bool
  /-- Empty while running and if the run failed. -/
  conclusion : String
  /-- Empty unless the run failed. -/
  failure : String
  states : Nat
  transitions : Nat
deriving DecidableEq, Repr

namespace Report

/-- The report of a session; a session without a run reports none. -/
def ofStatus (s : Status) : Report where
  run := if s.property.isEmpty then "" else s.run.getD Status.noRun
  property := s.property
  running := s.running
  refinements := s.refinements
  holds := (s.conclusion?.map Conclusion.holds).getD false
  conclusion := (s.conclusion?.map Conclusion.response).getD ""
  failure := (s.error?.map RunError.message).getD ""
  states := s.stats.finalStates
  transitions := s.stats.finalTransitions

/-- The report in one line. -/
def text (r : Report) : String :=
  if r.run.isEmpty then "No verification has been run"
  else if r.running then s!"Run {r.run}: verifying {r.property}, {r.states} states"
  else if !r.failure.isEmpty then
    s!"Run {r.run}: verifying {r.property} failed after {r.refinements} refinements: {r.failure}"
  else
    s!"Run {r.run}: {r.conclusion} after {r.refinements} refinements. {r.states} states, " ++
      s!"{r.transitions} transitions"

end Report

/-- What the session reports. -/
def status (s : Session) : Report := .ofStatus s.status

end RefineCheck.Service
