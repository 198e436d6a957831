/-
  RefineCheck.Verifier.Generation

  Generation of the space from a node on: the successors of each node for every input that
  its input precision tells apart, in breadth-first order, up to nodes that are explored.
-/

import RefineCheck.Verifier

namespace RefineCheck.Verifier

/-- The records from one on that a mark tells apart, in the order of their enumeration. -/
def enumerate (mark : RecordMark) : (fuel : Nat) → Record → Except Stop (List Record)
  | 0, _ => throw .exhausted
  | fuel + 1, input => do
    match mark.advance input with
    | .error cause => throw (.fault cause)
    | .ok (false, _) => return [input]
    | .ok (true, next) => return input :: (← enumerate mark fuel next)

/-- The state after a node for an input, which loses what the step precision does not keep. -/
def successor (v : Verifier) (stepMark : StateMark) (current : Option State) (input : Record) :
    Except Fault State := do
  let state ← match current with
    | none => v.system.init input
    | some state => v.system.next state.result input
  stepMark.decay state

/-- The faults among results. -/
def faults {α : Type} (results : List (Except Fault α)) : List Fault :=
  results.filterMap fun
    | .ok _ => none
    | .error cause => some cause

/-- The inputs that are told apart at a node with the states they lead to. -/
def successors (v : Verifier) (fuel : Nat) (node : NodeId) : Except Stop (List (Record × State)) := do
  let lift {α : Type} (x : Except Fault α) : Except Stop α := x.mapError .fault
  let inputMark ← lift (v.inputPrecision.get v.space node)
  let stepMark ← lift (v.stepPrecision.get v.space node)
  let inputs ← enumerate inputMark fuel (← lift inputMark.first)
  let current ← if node = root then pure none else some <$> lift (v.space.state node)
  let results := inputs.map fun input => (v.successor stepMark current input).map (input, ·)
  if (faults results).isEmpty then lift (results.mapM id)
  else throw (.failure (.generation node (faults results)))

/-- What the expansion of a node adds. -/
structure Expansion where
  added : List StateId
  /-- Whether the node has other successors than before. -/
  changed : Bool

/-- Replaces the successors of a node. -/
def expand (fuel : Nat) (node : NodeId) : VerifyM Expansion := do
  modify fun v => { v with counters.generatedStates := v.counters.generatedStates + 1 }
  let (space, removed) ← VerifyM.raise ((← get).space.clearStep node)
  modify fun v => { v with space }
  let steps ← liftM ((← get).successors fuel node)
  let (space, added) ← VerifyM.raise <|
    steps.foldlM (fun (space, added) (input, state) => do
      let (space, id, inserted) ← Space.addStep space node state input
      return (space, if inserted then added ++ [id] else added)) ((← get).space, [])
  modify fun v => { v with
    space
    counters.generatedTransitions := v.counters.generatedTransitions + steps.length }
  return ⟨added, removed != space.next node⟩

/-- Expands the nodes of a queue and all that become reachable from them without being explored. -/
def explore (inner : Nat) : (fuel : Nat) → (queue : List NodeId) → (added : List StateId) →
    (changed : List NodeId) → VerifyM (List StateId × List NodeId)
  | _, [], added, changed => return (added, changed)
  | 0, _ :: _, _, _ => throw .exhausted
  | fuel + 1, node :: queue, added, changed => do
    if (← get).space.isExplored node then explore inner fuel queue added changed
    else
      let e ← expand inner node
      let space := (← get).space
      explore inner fuel (queue ++ (space.next node).filter fun id => !space.isExplored id)
        (added ++ e.added) (if e.changed then changed ++ [node] else changed)

/-- Generates the space anew from a node on, and tells whether the successors of some node changed.
    The node itself is expanded again, other explored nodes are kept. -/
def regenerate (fuel : Nat) (node : NodeId) : VerifyM Bool := do
  let e ← expand fuel node
  let space := (← get).space
  let (added, changed) ← explore fuel fuel
    ((space.next node).filter fun id => !space.isExplored id) e.added (if e.changed then [node] else [])
  modify fun v => { v with checker := v.checker.declareRegeneration added changed }
  VerifyM.raise (← get).space.assertLeftTotal
  return !changed.isEmpty

end RefineCheck.Verifier
