/-
  RefineCheck.Verifier

  Verification by abstraction refinement: what a verifier holds, the ways it can stop, and
  its statistics. The space of a system is generated under two precisions. The input
  precision of a node says which bits of its inputs are told apart, the step precision which
  bits of its successors are kept.
-/

import RefineCheck.Checker
import RefineCheck.Precision
import RefineCheck.TransitionSystem

namespace RefineCheck

/-! ## Failures -/

/-- Why a verification ends without a verdict. -/
inductive Failure
  /-- No refinement can decide the property. -/
  | incomplete
  /-- The inherent property was asked for although it is assumed. -/
  | inherentAssumed
  /-- The system can panic, so no other property is verified. -/
  | inherentPanic (message : String)
  /-- The system failed when it was asked about marks at a node. -/
  | system (node : NodeId) (cause : Fault)
  /-- The system failed for some of the inputs at a node. -/
  | generation (node : NodeId) (causes : List Fault)
  /-- The property names what the states do not have. -/
  | check (cause : CheckError)
  | canceled
deriving DecidableEq, Repr

namespace Failure

/-- The text of a fault that the system raised at a node. -/
def systemMessage (node : NodeId) (cause : Fault) : String :=
  "framework: system panicked at node " ++ NodeId.text node ++ ": " ++ cause.message

/-- The text of the failure. -/
def message : Failure → String
  | .incomplete => "framework: incomplete verification"
  | .inherentAssumed => "framework: cannot verify the inherent property while assuming it"
  | .inherentPanic message => "framework: inherent panic: " ++ message
  | .system node cause => systemMessage node cause
  | .generation node causes =>
    s!"framework: {causes.length} errors occurred generating successors of node " ++
      NodeId.text node ++ ": " ++ "; ".intercalate (causes.map (systemMessage node))
  | .check cause => cause.message
  | .canceled => "context canceled"

end Failure

/-- How a computation ends early. -/
inductive Stop
  | failure (cause : Failure)
  | fault (cause : Fault)
  /-- The fuel did not suffice. -/
  | exhausted
deriving DecidableEq, Repr

/-! ## Verifiers -/

/-- How a verifier is set up. -/
structure Options where
  /-- Whether successors lose every bit that the step precision does not keep. -/
  decay : Bool := false
  /-- Whether the system is taken never to panic. -/
  assumeInherent : Bool := false
  /-- The precision of the inputs of nodes that were never refined, if not the coarsest. -/
  inputPrecision : Option RecordMark := none

/-- What was done since the last reset. -/
structure Counters where
  refinements : Nat := 0
  generatedStates : Nat := 0
  generatedTransitions : Nat := 0
deriving DecidableEq, Repr

/-- A system with what was generated and checked of it, and how precisely. -/
structure Verifier where
  system : TransitionSystem
  assumeInherent : Bool
  space : Space := .empty
  checker : Checker := .empty
  inputPrecision : Precision RecordMark
  stepPrecision : Precision StateMark
  /-- Whether the space is generated. -/
  valid : Bool := false
  /-- Why the last unknown property, given by its key, is unknown. -/
  pending : Option (String × Culprit) := none
  counters : Counters := {}

namespace Verifier

/-- A verifier that has generated nothing yet. -/
def ofSystem (system : TransitionSystem) (options : Options) : Except Fault Verifier := do
  let coarsest ← RecordMark.unmarked system.inputTemplate
  let kept ←
    if options.decay then StateMark.unmarked system.stateTemplate
    else StateMark.all system.stateTemplate 0
  return {
    system
    assumeInherent := options.assumeInherent
    inputPrecision := ⟨options.inputPrecision.getD coarsest, {}⟩
    stepPrecision := ⟨kept, {}⟩ }

/-- Discards the space, the precisions and the counts. -/
def reset (v : Verifier) : Verifier where
  system := v.system
  assumeInherent := v.assumeInherent
  checker := v.checker.purge
  inputPrecision := v.inputPrecision.reset
  stepPrecision := v.stepPrecision.reset

/-- Discards the space, and with it the precisions, which refer to its nodes. -/
def invalidate (v : Verifier) : Verifier := { v.reset with counters := v.counters }

/-- The meaning of the nearest certain panic, or nothing. -/
def panicMessage (v : Verifier) : String :=
  match v.space.panic? with
  | some code => v.system.messageOf code
  | none => ""

/-! ## Statistics -/

/-- The counters with the present size of the space. -/
structure Stats where
  counters : Counters
  finalStates : Nat
  finalTransitions : Nat
  /-- The meaning of the nearest certain panic, or nothing. -/
  panicMessage : String
deriving DecidableEq, Repr

/-- What the verifier reports of itself. -/
def stats (v : Verifier) : Stats where
  counters := v.counters
  finalStates := v.space.numStates
  finalTransitions := v.space.numTransitions
  panicMessage := v.panicMessage

end Verifier

/-- Changes a verifier; what was changed stays changed after a failure. -/
abbrev VerifyM := ExceptT Stop (StateM Verifier)

namespace VerifyM

/-- A fault of the system or the checker ends the call. -/
def raise {α : Type} (x : Except Fault α) : VerifyM α :=
  match x with
  | .ok a => return a
  | .error cause => throw (.fault cause)

/-- Ends the call with a failure. -/
def fail {α : Type} (cause : Failure) : VerifyM α := throw (.failure cause)

/-- Invalidates the space if a computation fails, except for an incomplete verification, which
    leaves a sound space. -/
def guarded {α : Type} (x : VerifyM α) : VerifyM α := do
  try x
  catch stop =>
    match stop with
    | .failure .incomplete => throw stop
    | .failure _ => do
      modify Verifier.invalidate
      throw stop
    | .fault _ | .exhausted => throw stop

end VerifyM

end RefineCheck
