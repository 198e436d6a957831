/-
  RefineCheck.TransitionSystem

  Transition systems over abstract values. The forward functions give the first and the
  next state for an input, the backward functions say which bits of their arguments made
  marked bits of the result imprecise.
-/

import RefineCheck.State

namespace RefineCheck

/-- A transition system interpreted over abstract values. Any of its functions may fail. -/
structure TransitionSystem where
  inputTemplate : Record
  stateTemplate : Record
  init : (input : Record) → Except Fault State
  next : (state input : Record) → Except Fault State
  /-- The mark of the input that a mark of the first state asks for. -/
  refineInit : (input : Record) → (later : StateMark) → Except Fault RecordMark
  /-- The marks of the state and of the input that a mark of the next state asks for. -/
  refineNext : (state input : Record) → (later : StateMark) → Except Fault (RecordMark × RecordMark)
  /-- What a panic code of the system means, or nothing. -/
  panicMessage : Nat → String

namespace TransitionSystem

/-- What the codes raised by division and remainder mean. -/
def builtinMessage? : Nat → Option String
  | 1 => some "attempt to divide by zero"
  | 2 => some "attempt to calculate the remainder with a divisor of zero"
  | _ => none

/-- What a panic code means, whoever raised it. -/
def messageOf (system : TransitionSystem) (code : Nat) : String :=
  match builtinMessage? code with
  | some message => message
  | none =>
    let message := system.panicMessage code
    if message.isEmpty then s!"panic with code {code}" else message

end TransitionSystem

end RefineCheck
