/-
  RefineCheck.Space

  Abstract state spaces: graphs from a root through stored states. States are stored once
  for each key, and each edge keeps the input it was first generated with.
-/

import Std.Data.TreeMap
import Std.Data.TreeSet
import RefineCheck.Space.Walk
import RefineCheck.State

namespace RefineCheck

open Std (TreeMap TreeSet)

/-- The number of a stored state. Numbers start at one, increase and are never used again. -/
abbrev StateId := Nat

/-- Either the root, which comes before the initial states, or a state. -/
abbrev NodeId := Nat

/-- The node that comes before the initial states. -/
def root : NodeId := 0

/-- The node as messages name it. -/
def NodeId.text (n : NodeId) : String := if n = root then "root" else toString n

/-- The states found so far with the edges between them and the inputs of these. -/
structure Space where
  states : TreeMap StateId State := {}
  /-- The stored states by their keys. -/
  ids : TreeMap String StateId := {}
  nextId : StateId := 1
  /-- The input of each edge, by its source and its target. -/
  successors : TreeMap NodeId (TreeMap StateId Record) := {}
  predecessors : TreeMap StateId (TreeSet NodeId) := {}
  /-- The number of stored states from which on unreachable ones are removed. -/
  sweepThreshold : Nat := 32

namespace Space

/-- The space without states. -/
def empty : Space := {}

/-! ## Reading -/

/-- Whether a state is stored under the number. -/
def contains (s : Space) (id : StateId) : Bool := s.states.contains id

/-- The state with this number, which must be stored. -/
def state (s : Space) (id : StateId) : Except Fault State :=
  match s.states[id]? with
  | some state => .ok state
  | none => .error (.notStored id)

/-- Fails for a state that is not stored. -/
def checkNode (s : Space) (n : NodeId) : Except Fault Unit :=
  if n = root || s.contains n then .ok () else .error (.notStored n)

/-- All stored states in increasing order. -/
def stateIds (s : Space) : List StateId := s.states.keys

/-- How many states are stored. -/
def numStates (s : Space) : Nat := s.states.size

/-- The number of edges, those from the root included. -/
def numTransitions (s : Space) : Nat :=
  s.successors.foldl (fun n _ edges => n + edges.size) 0

/-- The direct successors of a node in increasing order. -/
def next (s : Space) (n : NodeId) : List StateId := (s.successors.getD n {}).keys

/-- The direct predecessors of a state in increasing order, the root first. -/
def previous (s : Space) (id : StateId) : List NodeId := (s.predecessors.getD id {}).toList

/-- The successors of the root. -/
def initialStates (s : Space) : List StateId := s.next root

/-- Whether a node has an outgoing edge. -/
def isExplored (s : Space) (n : NodeId) : Bool := !(s.next n).isEmpty

/-- The input an edge was first generated with, if there is such an edge. -/
def input? (s : Space) (source : NodeId) (target : StateId) : Option Record :=
  (s.successors.getD source {})[target]?

/-! ## Reachability -/

theorem nodup_next (s : Space) (n : NodeId) : (s.next n).Nodup := TreeMap.nodup_keys

theorem nodup_previous (s : Space) (n : NodeId) : (s.previous n).Nodup :=
  TreeSet.distinct_toList.imp Std.ReflCmp.ne_of_cmp_ne_eq

/-- What follows from an entry of a map that is empty by default. -/
theorem exists_getElem?_of_mem {V α : Type} {m : TreeMap NodeId V} {n : NodeId} {default : V}
    {elements : V → List α} {x : α} (h : x ∈ elements (m.getD n default))
    (hdefault : elements default = []) : ∃ entry, m[n]? = some entry ∧ x ∈ elements entry := by
  rw [TreeMap.getD_eq_getD_getElem?] at h
  cases hentry : m[n]? with
  | none => simp [hentry, hdefault] at h
  | some entry => exact ⟨entry, rfl, by simpa [hentry] using h⟩

/-- The edges of a space. -/
def forwards (s : Space) : Adjacency where
  next := s.next
  nodes := s.successors.toList.flatMap fun e => e.2.keys
  nodup := s.nodup_next
  mem_nodes h := by
    obtain ⟨edges, hedges, hm⟩ := exists_getElem?_of_mem h rfl
    exact List.mem_flatMap.2 ⟨_, TreeMap.mem_toList_iff_getElem?_eq_some.2 hedges, hm⟩

/-- The edges of a space between states, against their direction. -/
def backwards (s : Space) : Adjacency where
  next id := (s.previous id).filter fun n => n != root
  nodes := s.predecessors.toList.flatMap fun e => e.2.toList
  nodup id := (s.nodup_previous id).filter _
  mem_nodes h := by
    obtain ⟨sources, hsources, hm⟩ := exists_getElem?_of_mem (List.mem_filter.1 h).1 rfl
    exact List.mem_flatMap.2 ⟨_, TreeMap.mem_toList_iff_getElem?_eq_some.2 hsources, hm⟩

/-- The nodes that can be reached from the root, the nearest first. -/
def reachable (s : Space) : List NodeId := s.forwards.walk [root] (TreeSet.ofList [root])

/-- The nearest node without a successor. -/
def deadEnd? (s : Space) : Option NodeId := s.reachable.find? fun n => !s.isExplored n

/-- Whether every reachable node has a successor. -/
def isLeftTotal (s : Space) : Bool := s.deadEnd?.isNone

/-- Fails at the first node without a successor. -/
def assertLeftTotal (s : Space) : Except Fault Unit :=
  match s.deadEnd? with
  | some n => .error (.deadEnd (NodeId.text n))
  | none => .ok ()

/-- The panic code of the nearest state that certainly panics. -/
def panic? (s : Space) : Option Nat :=
  s.reachable.findSome? fun n => do
    let state ← s.states[n]?
    let code ← state.panic.number?
    if code = noPanic then none else some code

/-! ## Growth -/

/-- Stores a state unless one of its key is stored, and tells whether it was new. -/
def addState (s : Space) (state : State) : Space × StateId × Bool :=
  match s.ids[state.key]? with
  | some id => (s, id, false)
  | none =>
    let id := s.nextId
    ({ s with
      states := s.states.insert id state
      ids := s.ids.insert state.key id
      nextId := id + 1
      predecessors := s.predecessors.insert id {} }, id, true)

/-- Adds an edge, unless there is one already, whose input then stays. -/
def addEdge (s : Space) (source : NodeId) (target : StateId) (input : Record) : Space :=
  let edges := s.successors.getD source {}
  if edges.contains target then s
  else { s with
    successors := s.successors.insert source (edges.insert target input)
    predecessors := s.predecessors.insert target ((s.predecessors.getD target {}).insert source) }

/-- Adds an edge from a node to a state, which is stored if it is new. -/
def addStep (s : Space) (source : NodeId) (state : State) (input : Record) :
    Except Fault (Space × StateId × Bool) := do
  s.checkNode source
  let (s, id, inserted) := s.addState state
  return (s.addEdge source id input, id, inserted)

/-! ## Removal -/

/-- Forgets that a node comes before some states. -/
def dropPredecessor (s : Space) (n : NodeId) (targets : List StateId) : Space :=
  { s with predecessors := targets.foldl (fun p id =>
      match p[id]? with
      | some sources => p.insert id (sources.erase n)
      | none => p) s.predecessors }

/-- Removes the edges that leave a node, and gives its former successors. States stay stored even
    if nothing leads to them. -/
def clearStep (s : Space) (n : NodeId) : Except Fault (Space × List StateId) := do
  s.checkNode n
  let removed := s.next n
  let s := s.dropPredecessor n removed
  return ({ s with successors := s.successors.erase n }, removed)

/-- Removes a state with its edges. -/
def removeState (s : Space) (id : StateId) : Space :=
  match s.states[id]? with
  | none => s
  | some state =>
    let s := s.dropPredecessor id (s.next id)
    { s with
      states := s.states.erase id
      ids := s.ids.erase state.key
      successors := s.successors.erase id
      predecessors := s.predecessors.erase id }

/-- Removes every state that cannot be reached from the root, and gives the removed ones. -/
def sweep (s : Space) : Space × List StateId :=
  let kept : TreeSet NodeId := TreeSet.ofList s.reachable
  let removed := s.stateIds.filter fun id => !kept.contains id
  (removed.foldl removeState s, removed)

/-- Sweeps once enough states are stored; the next time is when half as many again are. -/
def collect (s : Space) : Space × List StateId :=
  if s.numStates < s.sweepThreshold then (s, [])
  else
    let (s, removed) := s.sweep
    ({ s with sweepThreshold := max (s.numStates * 3 / 2) s.sweepThreshold }, removed)

end Space

end RefineCheck
