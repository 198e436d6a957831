/-
  RefineCheck.Verifier.Refinement

  Refinement along a culprit. The path is walked backwards from the state in which an atomic
  property is unknown, asking the system at each step which bits are to blame. A step whose
  decay lost them is refined first, else the inputs of the most important step.
-/

import RefineCheck.Verifier.Generation

namespace RefineCheck.Verifier

/-- The importance of what a property itself asks for. -/
def leastImportance : Nat := 1

/-- The mark of all that an atomic property reads. -/
def culpritMark (template : Record) (a : Atomic) : Except Fault StateMark := do
  let mark ← StateMark.unmarked template
  if a.name = panicField then
    return { mark with panic := ← Marking.all panicWidth leastImportance }
  match template.field? a.name with
  | none => throw (.culpritField a.name)
  | some field =>
    match field.content, a.index with
    | .scalar value, _ =>
      let bits ← Marking.all value.width leastImportance
      return { mark with result := ← mark.result.joinBits a.name bits }
    | .array _ memory, none =>
      let all ← MemoryMark.all memory.indexWidth memory.elementWidth leastImportance
      return { mark with result := ← mark.result.joinArray a.name all }
    | .array _ memory, some i =>
      let unmarked ← MemoryMark.unmarked memory.indexWidth memory.elementWidth
      let one ← unmarked.withElement i (← Marking.all memory.elementWidth leastImportance)
      return { mark with result := ← mark.result.joinArray a.name one }

/-- A more precise mark of a node. -/
inductive Improvement
  | step (node : NodeId) (mark : StateMark)
  | input (node : NodeId) (mark : RecordMark)

/-- The marks that a mark after a node asks for: of the state at the node, unless it is the root,
    and of the input. -/
def marksAt (v : Verifier) (node : NodeId) (input : Record) (later : StateMark) :
    Except Fault (Option RecordMark × RecordMark) := do
  if node = root then return (none, ← v.system.refineInit input later)
  else
    let (before, mark) ← v.system.refineNext (← v.space.state node).result input later
    return (some before, mark)

/-- The more important of two marks of inputs; of equally important ones the second. -/
def preferred (best : Option (NodeId × RecordMark)) (node : NodeId) (mark : RecordMark) :
    NodeId × RecordMark :=
  match best with
  | some (n, m) => if m.importance ≤ mark.importance then (node, mark) else (n, m)
  | none => (node, mark)

/-- Walks edges backwards. A refinement of the step precision is taken at once, the best one of the
    input precision at the end. -/
def improvement? (v : Verifier) :
    (edges : List (NodeId × StateId)) → (later : StateMark) → (best : Option (NodeId × RecordMark)) →
      Except Stop (Option Improvement)
  | [], _, best => return best.map fun (node, mark) => .input node mark
  | (node, state) :: edges, later, best => do
    let lift {α : Type} (x : Except Fault α) : Except Stop α := x.mapError .fault
    match ← lift ((← lift (v.stepPrecision.get v.space node)).refine? later) with
    | some mark => return some (.step node mark)
    | none =>
      let input ← match v.space.input? node state with
        | some input => pure input
        | none => throw (.fault (.culpritEdge (NodeId.text node) state))
      let (before, inputMark) ← (v.marksAt node input later).mapError fun cause =>
        .failure (.system node cause)
      let refined ← lift ((← lift (v.inputPrecision.get v.space node)).refine? inputMark)
      let best := match refined with
        | some mark => some (preferred best node mark)
        | none => best
      match before with
      | none => return best.map fun (node, mark) => .input node mark
      | some before =>
        -- a state that has successors did not panic, so its panic code is not asked for
        improvement? v edges ⟨⟨panicWidth, .unmarked panicWidth⟩, before⟩ best

/-- The edges of a path from the root on, the last one first. -/
def edgesBack (path : List StateId) : List (NodeId × StateId) := ((root :: path).zip path).reverse

/-- Refines one mark and generates the space again from its node on. Tells whether the space
    changed. -/
def refineOnce (fuel : Nat) (culprit : Culprit) : VerifyM Bool := do
  let v ← get
  let mark ← VerifyM.raise (culpritMark v.system.stateTemplate culprit.atomic)
  match ← liftM (v.improvement? (edgesBack culprit.path) mark none) with
  | none => VerifyM.fail .incomplete
  | some (.step node mark) =>
    let stepPrecision ← VerifyM.raise (v.stepPrecision.insert v.space node mark)
    modify fun v => { v with stepPrecision }
    regenerate fuel node
  | some (.input node mark) =>
    let inputPrecision ← VerifyM.raise (v.inputPrecision.insert v.space node mark)
    modify fun v => { v with inputPrecision }
    regenerate fuel node

/-- Refines along a culprit until the space changes. -/
def refine (inner : Nat) (culprit : Culprit) : (fuel : Nat) → VerifyM Unit
  | 0 => throw .exhausted
  | fuel + 1 => do
    if ← refineOnce inner culprit then
      modify fun v => { v with counters.refinements := v.counters.refinements + 1 }
    else refine inner culprit fuel

end RefineCheck.Verifier
