/-
  RefineCheck.Checker

  Checking of properties on spaces. A checker remembers the labelling of every property it
  was asked about, and is told of each change of the space.
-/

import RefineCheck.Labelling.Culprit

namespace RefineCheck

open Std (TreeMap)

/-- The text of the failure; an invalid atomic property is named first. -/
def CheckError.message : CheckError → String
  | .invalid a cause => "checking: atomic property " ++ a.text ++ ": " ++ cause.message
  | .lookup cause => cause.message
  | .fault cause => cause.message

/-! ## Conclusions -/

/-- The result of checking a property on a space. -/
inductive Conclusion
  /-- The property has this value in every run that the space stands for. -/
  | known (value : Bool)
  /-- The space is too coarse to decide the property. -/
  | unknown (culprit : Culprit)
  /-- Some path ends, so the property has no meaning. -/
  | notCheckable
deriving DecidableEq, Repr

namespace Conclusion

/-- Whether the verdict is a truth value. -/
def isKnown : Conclusion → Bool
  | .known _ => true
  | .unknown _ | .notCheckable => false

/-- The truth value of a known verdict; every other verdict does not hold. -/
def holds : Conclusion → Bool
  | .known value => value
  | .unknown _ | .notCheckable => false

/-- The sentence that a report prints for the verdict. -/
def response : Conclusion → String
  | .known true => "Property holds"
  | .known false => "Property does not hold"
  | .unknown culprit => "Property is unknown. " ++ culprit.text
  | .notCheckable => "State space is not left-total"

end Conclusion

/-! ## One property -/

namespace Labelling

/-- Later than any time of a history. -/
def endOfTime (l : Labelling) : Nat := l.time + 1

/-- The conjunction over the initial states. An indefinite one is blamed on the first initial state
    in which the property is unknown. -/
def conclude (s : Space) (l : Labelling) (labels : Labels) : Except Fault Conclusion := do
  let verdict := Paths.all.combine (s.initialStates.map labels.valuation)
  match verdict.toBool? with
  | some value => return .known value
  | none =>
    match s.initialStates.find? fun id => (labels.valuation id).isUnknown with
    | some id => return .unknown (← l.deduce s l.endOfTime l.formula [] id)
    | none => throw (.noUnknownState l.property.text verdict.text)

/-- Checks the property on a space, labelling what has no label yet. -/
def check (s : Space) : LabelM Conclusion := do
  if !s.isLeftTotal then return .notCheckable
  modify (settle s)
  let f := (← get).formula
  (s.initialStates.take 1).forM (validate s f)
  let region := s.reachable.filter fun n => n != root
  let labels ← label s region f {} region {}
  raise ((← get).conclude s labels)

end Labelling

/-! ## Checkers -/

/-- The labellings of the checked properties by their keys. -/
structure Checker where
  labellings : TreeMap String Labelling := {}

namespace Checker

/-- The checker that has seen no property. -/
def empty : Checker := {}

/-- The keys of the checked properties in increasing order. -/
def properties (c : Checker) : List String := c.labellings.keys

/-- Applies a change to every labelling. -/
def map (c : Checker) (f : Labelling → Labelling) : Checker :=
  ⟨c.labellings.map fun _ l => f l⟩

/-- Declares new states, and nodes whose successors changed. -/
def declareRegeneration (c : Checker) (new : List StateId) (changed : List NodeId) : Checker :=
  c.map fun l => l.declare (new ++ changed.filter fun n => n != root)

/-- Declares states that were removed from the space. -/
def removeStates (c : Checker) (states : List StateId) : Checker :=
  c.map fun l => l.removeStates states

/-- Forgets every label. -/
def purge (c : Checker) : Checker := c.map Labelling.clear

/-- Checks a property on a space. -/
def check (c : Checker) (s : Space) (p : Property) : Except CheckError Conclusion × Checker :=
  let known : Except Fault Labelling := match c.labellings[p.key]? with
    | some l => .ok l
    | none => Labelling.ofProperty p
  match known with
  | .error cause => (.error (.fault cause), c)
  | .ok l =>
    let (result, l) := (Labelling.check s).run.run l
    (result, ⟨c.labellings.insert p.key l⟩)

end Checker

end RefineCheck
