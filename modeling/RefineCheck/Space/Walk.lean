/-
  RefineCheck.Space.Walk

  Breadth-first walks. The nodes of a graph are numbers, and its edges lead to finitely many of
  them, so that every walk comes to an end.
-/

import Std.Data.TreeSet

namespace RefineCheck

open Std (TreeSet)

/-- The successors of numbered nodes, which are all among finitely many ones. -/
structure Adjacency where
  next : Nat → List Nat
  /-- The nodes that edges lead to. -/
  nodes : List Nat
  nodup (n : Nat) : (next n).Nodup
  mem_nodes {n m : Nat} : m ∈ next n → m ∈ nodes

namespace Adjacency

/-- The successors of a node that a walk has not seen. -/
def fresh (g : Adjacency) (seen : TreeSet Nat) (node : Nat) : List Nat :=
  (g.next node).filter fun n => !seen.contains n

/-- How many nodes a walk has not seen. -/
def unseen (g : Adjacency) (seen : TreeSet Nat) : Nat :=
  (g.nodes.filter fun n => !seen.contains n).length

theorem mem_fresh {g : Adjacency} {seen : TreeSet Nat} {node n : Nat} :
    n ∈ g.fresh seen node ↔ n ∈ g.next node ∧ seen.contains n = false := by
  rw [fresh, List.mem_filter, Bool.not_eq_true']

theorem nodup_fresh (g : Adjacency) (seen : TreeSet Nat) (node : Nat) :
    (g.fresh seen node).Nodup :=
  (g.nodup node).filter _

/-- What the queue of a walk gains is what there is less to see. -/
theorem length_fresh_add_unseen_le (g : Adjacency) (seen : TreeSet Nat) (node : Nat) :
    (g.fresh seen node).length + g.unseen (seen.insertMany (g.fresh seen node)) ≤
      g.unseen seen := by
  generalize hfresh : g.fresh seen node = fresh
  have hnodup : fresh.Nodup := hfresh ▸ g.nodup_fresh seen node
  have hsub : fresh ⊆ (g.nodes.filter fun n => !seen.contains n).filter (fresh.contains ·) := by
    intro n hn
    obtain ⟨hnext, hunseen⟩ := mem_fresh.1 (hfresh ▸ hn)
    rw [List.mem_filter, List.mem_filter, hunseen]
    exact ⟨⟨g.mem_nodes hnext, rfl⟩, List.contains_iff_mem.2 hn⟩
  have hrest : (g.nodes.filter fun n => !(seen.insertMany fresh).contains n) =
      (g.nodes.filter fun n => !seen.contains n).filter (fun n => !fresh.contains n) := by
    rw [List.filter_filter]
    refine List.filter_congr fun n _ => ?_
    rw [TreeSet.contains_insertMany_list, Bool.not_or, Bool.and_comm]
  have hsplit := (g.nodes.filter fun n => !seen.contains n).length_eq_countP_add_countP
    (fresh.contains ·)
  have hle := hnodup.length_le_of_subset hsub
  rw [List.countP_eq_length_filter, List.countP_eq_length_filter] at hsplit
  simp only [Bool.not_eq_true, Bool.decide_eq_false] at hsplit
  rw [unseen, unseen, hrest]
  omega

/-- Each step of a walk leaves less in the queue and to see. -/
theorem measure_lt (g : Adjacency) (queue : List Nat) (seen : TreeSet Nat) (node : Nat) :
    (queue ++ g.fresh seen node).length + g.unseen (seen.insertMany (g.fresh seen node)) <
      (node :: queue).length + g.unseen seen := by
  have hless := g.length_fresh_add_unseen_le seen node
  rw [List.length_append, List.length_cons]
  omega

/-- The nodes reached from a queue of seen nodes, in breadth-first order. -/
def walk (g : Adjacency) : (queue : List Nat) → (seen : TreeSet Nat) → List Nat
  | [], _ => []
  | node :: queue, seen =>
    let fresh := g.fresh seen node
    node :: g.walk (queue ++ fresh) (seen.insertMany fresh)
termination_by queue seen => queue.length + g.unseen seen
decreasing_by exact g.measure_lt queue seen node

/-- A walk that asks a visitor at each node. The visitor changes a value, and the walk goes on until
    the visitor is done. -/
def visit {σ : Type} (g : Adjacency) (visitor : Nat → σ → ForInStep σ) :
    (queue : List Nat) → (seen : TreeSet Nat) → σ → σ
  | [], _, a => a
  | node :: queue, seen, a =>
    match visitor node a with
    | .done a => a
    | .yield a =>
      let fresh := g.fresh seen node
      g.visit visitor (queue ++ fresh) (seen.insertMany fresh) a
termination_by queue seen _ => queue.length + g.unseen seen
decreasing_by exact g.measure_lt queue seen node

end Adjacency

end RefineCheck
