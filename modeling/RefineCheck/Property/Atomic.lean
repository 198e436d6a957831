/-
  RefineCheck.Property.Atomic

  The value of an atomic property in an abstract state: true or false if the comparison has
  that outcome for every member of the value it reads, unknown otherwise.
-/

import RefineCheck.Kleene
import RefineCheck.Property
import RefineCheck.State

namespace RefineCheck.Atomic

/-- The constant as a word of the width, if the width can represent it as an unsigned or as a
    signed number. -/
def fit? (constant : Int) (w : Nat) : Option (BitVec w) :=
  if 0 ≤ constant then
    if constant ≤ Word.last w then some (BitVec.ofInt w constant) else none
  else if w = 0 ∨ constant < -(Word.card (w - 1) : Int) then none
  else some (BitVec.ofInt w constant)

/-- Equality of a value with the constant. -/
def equals (constant : Int) (value : Value) : Kleene :=
  match fit? constant value.width with
  | none => .ff
  | some x =>
    if value.val.has x then if value.val.word?.isSome then .tt else .unknown
    else .ff

/-- The outcome of an ordering comparison of every number between two bounds with the constant. -/
def order (comparison : Comparison) (lowest highest constant : Int) : Kleene :=
  let decided (always never : Bool) : Kleene := if always then .tt else if never then .ff else .unknown
  match comparison with
  | .lt => decided (highest < constant) (constant ≤ lowest)
  | .le => decided (highest ≤ constant) (constant < lowest)
  | .gt => decided (constant < lowest) (highest ≤ constant)
  | .ge => decided (constant ≤ lowest) (highest < constant)
  | .eq | .ne => .unknown

/-- The value of the comparison in a state. -/
def evaluate (a : Atomic) (s : State) : Except LookupError Kleene := do
  let (value, declared) ← s.lookup a.name a.index
  match a.comparison with
  | .eq => return equals a.constant value
  | .ne => return (equals a.constant value).not
  | comparison =>
    match if a.forced = .signless then declared else a.forced with
    | .unsigned => return order comparison value.lower value.upper a.constant
    | .signed => return order comparison value.val.smin.toInt value.val.smax.toInt a.constant
    | .signless => throw (.signednessUnknown a.name)

end RefineCheck.Atomic
