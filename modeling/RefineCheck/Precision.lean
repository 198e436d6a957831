/-
  RefineCheck.Precision

  Marks assigned to the nodes of a space, with a default for all others. A state is at
  least as precise as every state with a mark of its own that covers it.
-/

import RefineCheck.Space

namespace RefineCheck

open Std (TreeMap)

/-- Marks that can be joined and refined. -/
class Refinable (M : Type) where
  join : M → M → Except Fault M
  /-- The mark with one more bit of the offer, if the offer has one. -/
  refine? : M → (offer : M) → Except Fault (Option M)

instance : Refinable RecordMark where
  join := RecordMark.join
  refine? := RecordMark.refine?

instance : Refinable StateMark where
  join := StateMark.join
  refine? := StateMark.refine?

/-- The mark of a node, with the state that the node was when it got it. -/
structure Precision.Entry (M : Type) where
  mark : M
  state : Option State

/-- A mark for every node, where the nodes that were refined have their own. -/
structure Precision (M : Type) where
  default : M
  entries : TreeMap NodeId (Precision.Entry M) := {}

namespace Precision

variable {M : Type}

/-- How many nodes have an entry. -/
def size (p : Precision M) : Nat := p.entries.size

/-- The nodes with marks of their own, in increasing order. -/
def nodes (p : Precision M) : List NodeId := p.entries.keys

/-- The mark of the node itself. -/
def own (p : Precision M) (n : NodeId) : M := ((p.entries[n]?).map Entry.mark).getD p.default

/-- The mark of a node joined with those of all other states that cover it. -/
def get [Refinable M] (p : Precision M) (s : Space) (n : NodeId) : Except Fault M := do
  if n = root then return p.own n
  let state ← s.state n
  p.entries.toList.foldlM (fun mark (other, e) => do
    match e.state with
    | none => return mark
    | some covering =>
      if other = n then return mark
      else if ← covering.contains state then Refinable.join mark e.mark
      else return mark) (p.own n)

/-- Gives a node a mark of its own. -/
def insert (p : Precision M) (s : Space) (n : NodeId) (mark : M) : Except Fault (Precision M) := do
  let state ← if n = root then pure none else some <$> s.state n
  return { p with entries := p.entries.insert n ⟨mark, state⟩ }

/-- Refines the mark of a node by an offer, if the offer refines it. -/
def refine? [Refinable M] (p : Precision M) (s : Space) (n : NodeId) (offer : M) :
    Except Fault (Option (Precision M)) := do
  match ← Refinable.refine? (← p.get s n) offer with
  | none => return none
  | some mark => return some (← p.insert s n mark)

/-- Forgets the marks of all nodes. -/
def reset (p : Precision M) : Precision M := { p with entries := {} }

end Precision

end RefineCheck
