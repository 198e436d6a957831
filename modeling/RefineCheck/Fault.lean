/-
  RefineCheck.Fault

  The ways an operation can be used against its contract, and the text that reports
  each of them.
-/

import RefineCheck.Text.Quoted

namespace RefineCheck

open RefineCheck.Text (quote hexText)

/-- A violated precondition or invariant. -/
inductive Fault
  /-- A word wider than any value may be. -/
  | widthLimit (width : Nat)
  /-- Two operands of different widths. -/
  | widthMismatch (a b : Nat)
  /-- A three-valued word with a bit that is neither zero nor one. -/
  | missingBits (zeros ones width : Nat)
  /-- A three-valued word and a split range with no common member. -/
  | disjoint (bits ranges : String)
  /-- Two descriptions of a panic code with no common member. -/
  | disjointPanic
  /-- An array index past the last one. -/
  | indexRange (index last : Nat)
  /-- An index range that ends before it starts. -/
  | emptyRange (first last : Nat)
  /-- Two arrays of different sizes used together. -/
  | sizeMismatch (a b : Nat)
  /-- An index of another width than the array's. -/
  | indexWidth (used width : Nat)
  /-- An element of another width than the array's. -/
  | elementWidth (used width : Nat)
  /-- A field used as a single value although it is an array. -/
  | fieldIsArray (name : String)
  /-- A field used as an array although it is a single value. -/
  | fieldNotArray (name : String)
  /-- A field set to a value of another width. -/
  | fieldWidth (name : String) (width used : Nat)
  /-- Two fields of one name. -/
  | duplicateField (name : String)
  /-- A field a record does not have. -/
  | noField (name : String)
  /-- Two records of different sizes used together. -/
  | recordSizes (a b : Nat)
  /-- Two records with different fields at one position. -/
  | recordFields (a b : String)
  /-- A field mark used as the mark of a single value although it marks an array. -/
  | markIsArray (name : String)
  /-- A field mark used as the mark of an array although it marks a single value. -/
  | markNotArray (name : String)
  /-- Two record marks of different sizes used together. -/
  | markSizes (a b : Nat)
  /-- A variable that occurs with the opposite polarity of its fixed point. -/
  | oppositePolarity (name : String)
  /-- A variable that no fixed point binds. -/
  | freeVariable (name : String)
  /-- A positive normal form with a negation. -/
  | negationRemains (property : String)
  /-- A property with an operator that its canonical form does not have. -/
  | notCanonical (property : String)
  /-- A state a space does not store. -/
  | notStored (state : Nat)
  /-- A node without a successor. -/
  | deadEnd (node : String)
  /-- A state without a value before a time. -/
  | noHistory (state time : Nat)
  /-- A property followed as unknown although it is not. -/
  | notUnknown (property : String) (state : Nat)
  /-- A fixed point that still changes after the rounds it is given. -/
  | unsettled (fixedPoint : Nat)
  /-- An indefinite verdict without a state to blame. -/
  | noUnknownState (property verdict : String)
  /-- An atomic property that fails after it was found to be valid. -/
  | failsAfterValidation (atomic reason : String)
  /-- A culprit that names a field the states do not have. -/
  | culpritField (name : String)
  /-- A culprit path that takes a step the space does not have. -/
  | culpritEdge (source : String) (target : Nat)
  /-- A space that is incomplete after it was generated. -/
  | notLeftTotal (property : String)
  /-- A failure a system raises with its own text. -/
  | raised (text : String)
deriving DecidableEq, Repr

/-- The text that reports a fault. -/
def Fault.message : Fault → String
  | .widthLimit w => s!"bitvector: width {w} exceeds the maximum of 64"
  | .widthMismatch a b => s!"bitvector: mismatched widths {a} and {b}"
  | .missingBits z o w =>
    "bitvector: three-valued bit-vector with bits neither zero nor one (zeros " ++ hexText z ++
      ", ones " ++ hexText o ++ s!", width {w})"
  | .disjoint bits ranges =>
    s!"bitvector: combining {bits} with {ranges} leaves neither half populated"
  | .disjointPanic => "bitvector: combined panic meet is empty"
  | .indexRange i last => s!"array: index {i} out of range [0, {last}]"
  | .emptyRange first last => s!"array: empty index range [{first}, {last}]"
  | .sizeMismatch a b => s!"array: zipping arrays with last indices {a} and {b}"
  | .indexWidth used w => s!"array: index of width {used} used with index width {w}"
  | .elementWidth used w => s!"array: element of width {used} used with element width {w}"
  | .fieldIsArray name => "machine: field " ++ quote name ++ " is an array"
  | .fieldNotArray name => "machine: field " ++ quote name ++ " is not an array"
  | .fieldWidth name w used =>
    "machine: field " ++ quote name ++ s!" of width {w} set to a value of width {used}"
  | .duplicateField name => "machine: duplicate field " ++ quote name
  | .noField name => "machine: record has no field " ++ quote name
  | .recordSizes a b => s!"machine: records with {a} and {b} fields"
  | .recordFields a b => "machine: records with fields " ++ quote a ++ " and " ++ quote b
  | .markIsArray name => "machine: mark of field " ++ quote name ++ " is an array mark"
  | .markNotArray name => "machine: mark of field " ++ quote name ++ " is not an array mark"
  | .markSizes a b => s!"machine: marks with {a} and {b} fields"
  | .oppositePolarity name =>
    s!"property: variable {name} occurs with the opposite polarity of its fixed point"
  | .freeVariable name => s!"checking: free variable {name}"
  | .negationRemains p => s!"property: negation remains in positive normal form {p}"
  | .notCanonical p => s!"checking: unexpected property {p} in canonical form"
  | .notStored id => s!"space: state {id} is not stored"
  | .deadEnd node => s!"space: node {node} has no successor"
  | .noHistory id time => s!"checking: no history entry of state {id} before time {time}"
  | .notUnknown p id => s!"checking: property {p} is not unknown in state {id}"
  | .unsettled id => s!"checking: fixed point {id} does not settle in the rounds it is given"
  | .noUnknownState p verdict =>
    s!"checking: property {p} has valuation {verdict} without an unknown initial state"
  | .failsAfterValidation atomic reason =>
    s!"checking: atomic property {atomic} failed after validation: {reason}"
  | .culpritField name => "framework: culprit field " ++ quote name ++ " is not in the state"
  | .culpritEdge source target =>
    s!"framework: culprit path has no edge from {source} to {target}"
  | .notLeftTotal p => s!"framework: state space is not left-total after generation for {p}"
  | .raised text => text

end RefineCheck
