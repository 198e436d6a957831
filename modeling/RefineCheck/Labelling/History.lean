/-
  RefineCheck.Labelling.History

  The values that a fixed point takes in each state while it is iterated, in the order of
  the times they were computed at.
-/

import Std.Data.TreeMap
import RefineCheck.Fault
import RefineCheck.Kleene

namespace RefineCheck

open Std (TreeMap)

/-- The value of a property in a state, with the successors that determined it if it is about
    successors. -/
structure Label where
  valuation : Valuation
  witnesses : List Nat := []
deriving DecidableEq, Repr

/-- A label with the time it was computed at. -/
structure History.Entry where
  time : Nat
  label : Label
deriving DecidableEq, Repr

/-- The labels of each state, with increasing times. -/
structure History where
  states : TreeMap Nat (List History.Entry) := {}

namespace History

/-- The history of a fixed point that was never computed. -/
def empty : History := {}

/-- The number of states with an entry. -/
def size (h : History) : Nat := h.states.size

/-- The entries of a state, the earliest first. -/
def entries (h : History) (state : Nat) : List Entry := h.states.getD state []

/-- Records a label; what the state had at the same time or later is replaced. -/
def insert (h : History) (time state : Nat) (label : Label) : History :=
  let kept := (h.entries state).takeWhile fun e => e.time < time
  ⟨h.states.insert state (kept ++ [⟨time, label⟩])⟩

/-- The last entry of a state strictly before a time. -/
def before? (h : History) (time state : Nat) : Option Entry :=
  ((h.entries state).takeWhile fun e => e.time < time).getLast?

/-- An entry before a time has an earlier time. -/
theorem time_lt_of_before? {h : History} {time state : Nat} {e : Entry}
    (found : h.before? time state = some e) : e.time < time := by
  have mem := List.mem_of_getLast? found
  have all := List.all_eq_true.1 (List.all_takeWhile (l := h.entries state)) e mem
  simpa using all

/-- The last label of a state. -/
def last? (h : History) (state : Nat) : Option Label :=
  ((h.entries state).getLast?).map Entry.label

/-- Forgets every label of these states. -/
def removeStates (h : History) (states : List Nat) : History :=
  ⟨states.foldl (fun m s => m.erase s) h.states⟩

end History

end RefineCheck
