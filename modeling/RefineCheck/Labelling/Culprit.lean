/-
  RefineCheck.Labelling.Culprit

  Why a property is unknown: a path through the space to a state in which one of its atomic
  properties is unknown. The path follows the unknown labels backwards in time, so it ends.
-/

import RefineCheck.Labelling

namespace RefineCheck

/-- A path from an initial state to a state in which an atomic property is unknown. -/
structure Culprit where
  /-- The states before the last one. -/
  earlier : List StateId
  state : StateId
  atomic : Atomic
deriving DecidableEq, Repr

namespace Culprit

/-- The states from the first to the one where the atomic property is unknown. -/
def path (c : Culprit) : List StateId := c.earlier ++ [c.state]

/-- The atomic property with the path to it. -/
def text (c : Culprit) : String :=
  "Culprit: " ++ c.atomic.text ++ ". Path: \n" ++
    String.join (c.path.map fun id => s!"-> {id} \n")

end Culprit

namespace Labelling

/-- The last entry of a fixed point in a state before a time. -/
def entryBefore (l : Labelling) (id bound : Nat) (state : StateId) :
    Except Fault { e : History.Entry // e.time < bound } :=
  match found : (l.history id).before? bound state with
  | some e => .ok ⟨e, History.time_lt_of_before? found⟩
  | none => .error (.noHistory state bound)

/-- The value of a formula in a state as it was before a time. Variables and fixed points have it
    from their history. -/
def valueBefore (s : Space) (l : Labelling) (bound : Nat) :
    Formula → StateId → Except Fault Valuation
  | .const value, _ => return .ofBool value
  | .atom a, state => do
    match a.evaluate (← s.state state) with
    | .ok value => return .ofKleene value
    | .error cause => throw (.failsAfterValidation a.text cause.message)
  | .and f g, state => do
    let left ← valueBefore s l bound f state
    return left.and (← valueBefore s l bound g state)
  | .or f g, state => do
    let left ← valueBefore s l bound f state
    return left.or (← valueBefore s l bound g state)
  | .next paths f, state => do
    return paths.combine (← (s.next state).mapM (valueBefore s l bound f))
  | .fix id _ _ _, state | .var id _, state => do
    return (← l.entryBefore id bound state).val.label.valuation
  | .shared id f, state =>
    match (l.labelsOf id)[state]? with
    | some label => return label.valuation
    | none => valueBefore s l bound f state

/-- The first element with a property that may fail to be decided. -/
def findM? {α : Type} (holds : α → Except Fault Bool) : List α → Except Fault (Option α)
  | [] => return none
  | a :: rest => do if ← holds a then return some a else findM? holds rest

/-- Follows the unknown value of a formula down to an atomic property. Passing a fixed point or a
    variable leads to the iteration that computed the value, which is earlier. -/
def deduce (s : Space) (l : Labelling) (bound : Nat) (f : Formula) (earlier : List StateId)
    (state : StateId) : Except Fault Culprit := do
  let isUnknown (g : Formula) (n : StateId) : Except Fault Bool :=
    return (← l.valueBefore s bound g n).isUnknown
  let refuse : Except Fault Culprit := throw (.notUnknown f.toProperty.text state)
  match f with
  | .const _ => refuse
  | .atom a => return ⟨earlier, state, a⟩
  | .and g h | .or g h =>
    if ← isUnknown g state then deduce s l bound g earlier state
    else if ← isUnknown h state then deduce s l bound h earlier state
    else refuse
  | .next _ g =>
    match ← findM? (isUnknown g) (s.next state) with
    | some n => deduce s l bound g (earlier ++ [state]) n
    | none => refuse
  | .fix id _ _ g =>
    let ⟨e, _⟩ ← l.entryBefore id bound state
    deduce s l e.time g earlier state
  | .var id _ =>
    let ⟨e, _⟩ ← l.entryBefore id bound state
    match l.formula.body? id with
    | some g => deduce s l e.time g earlier state
    | none => refuse
  | .shared _ g => deduce s l bound g earlier state
termination_by (bound, sizeOf f)

end Labelling

end RefineCheck
