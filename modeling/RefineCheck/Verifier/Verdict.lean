/-
  RefineCheck.Verifier.Verdict

  The refinement loop: generate the space, check the property, and while it is unknown refine
  along the culprit. Every loop takes fuel; running out of it is told apart from failing.
-/

import RefineCheck.Verifier.Refinement

namespace RefineCheck.Verifier

/-- Removes states that became unreachable, once there are many. -/
def collectGarbage : VerifyM Unit :=
  modify fun v =>
    let (space, removed) := v.space.collect
    { v with space, checker := v.checker.removeStates removed }

/-- Generates the space if it is not, else refines it if the property was left unknown. -/
def prepare (fuel : Nat) (p : Property) : VerifyM Unit := do
  let v ← get
  if !v.valid then
    discard (VerifyM.guarded (regenerate fuel root))
    modify fun v => { v with valid := true }
  else
    match v.pending with
    | some (key, culprit) =>
      if key = p.key then
        set { v with pending := none }
        VerifyM.guarded (refine fuel culprit fuel)
        collectGarbage
    | none => return

/-- Checks the property on the space, and keeps the culprit if it is unknown. -/
def conclude (p : Property) : VerifyM Conclusion := do
  let v ← get
  let (result, checker) := v.checker.check v.space p
  set { v with checker }
  match result with
  | .error (.fault cause) => throw (.fault cause)
  | .error cause => VerifyM.fail (.check cause)
  | .ok (.known value) => return .known value
  | .ok (.unknown culprit) =>
    modify fun v => { v with pending := some (p.key, culprit) }
    return .unknown culprit
  | .ok .notCheckable => throw (.fault (.notLeftTotal p.text))

/-- When a search for a verdict is given up. -/
structure Limits where
  /-- The largest number of refinements; a negative one stands for no limit. -/
  refinements : Int := -1
  /-- Whether to stop before the next step, from the counts so far. -/
  interrupted : Counters → Bool := fun _ => false

/-- Whether as many refinements as allowed were made. -/
def Limits.reached (limits : Limits) (made : Nat) : Bool :=
  0 ≤ limits.refinements && limits.refinements ≤ made

/-- Steps until the property is known or the limit of refinements, counted from a number on, is
    reached. -/
def pursue (inner : Nat) (limits : Limits) (p : Property) (start : Nat) : (fuel : Nat) → VerifyM Conclusion
  | 0 => throw .exhausted
  | fuel + 1 => do
    if limits.interrupted (← get).counters then VerifyM.fail .canceled
    prepare inner p
    let conclusion ← conclude p
    let made := (← get).counters.refinements - start
    if conclusion.isKnown || limits.reached made then return conclusion
    else pursue inner limits p start fuel

/-- The outcome of steps with the number of refinements that were made. -/
structure Progress where
  refinements : Nat
  result : Except Stop Conclusion

/-- Steps until the property is known or a limit is reached. -/
def step (v : Verifier) (fuel : Nat) (limits : Limits) (p : Property) : Progress × Verifier :=
  let start := v.counters.refinements
  let (result, w) := (pursue fuel limits p start fuel).run.run v
  (⟨w.counters.refinements - start, result⟩, w)

/-- Generates the space again from a node on, and tells whether it changed. -/
def regenerateFrom (fuel : Nat) (node : NodeId) : VerifyM Bool := do
  let changed ← VerifyM.guarded (regenerate fuel node)
  modify fun v => { v with valid := true }
  return changed

/-- Refines until the property is known, unless it is interrupted first. -/
def decideUnless (fuel : Nat) (interrupted : Counters → Bool) (p : Property) : VerifyM Bool := do
  return (← pursue fuel { interrupted } p (← get).counters.refinements fuel).holds

/-- Refines until the property is known. -/
def decide (fuel : Nat) (p : Property) : VerifyM Bool := decideUnless fuel (fun _ => false) p

/-- Verifies a property, unless it is interrupted first. Unless the inherent property is assumed it is
    verified before any other. -/
def verifyUnless (fuel : Nat) (interrupted : Counters → Bool) (p : Property) : VerifyM Bool := do
  if (← get).assumeInherent then
    if p.isInherent then VerifyM.fail .inherentAssumed
  else if !p.isInherent then
    let safe ← decideUnless fuel interrupted .inherent
    if !safe then VerifyM.fail (.inherentPanic (← get).panicMessage)
  decideUnless fuel interrupted p

/-- Verifies a property. -/
def verify (fuel : Nat) (p : Property) : VerifyM Bool := verifyUnless fuel (fun _ => false) p

end RefineCheck.Verifier
