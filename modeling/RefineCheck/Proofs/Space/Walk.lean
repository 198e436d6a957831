/-
  RefineCheck.Proofs.Space.Walk

  A walk visits exactly the nodes that can be reached, each of them once.
-/

import Mathlib
import RefineCheck.Space

namespace RefineCheck

open Std (TreeSet)
open Relation (ReflTransGen)

/-- One step from a node to one of its successors. -/
abbrev Step (next : NodeId → List NodeId) (n m : NodeId) : Prop := m ∈ next n

/-- Closed sets keep what can be reached from their members. -/
theorem mem_of_reach {next : NodeId → List NodeId} {S : Set NodeId}
    (hS : ∀ n ∈ S, ∀ m ∈ next n, m ∈ S) {n m : NodeId} (h : ReflTransGen (Step next) n m)
    (hn : n ∈ S) : m ∈ S := by
  induction h with
  | refl => exact hn
  | tail _ hstep ih => exact hS _ ih _ hstep

/-- What a walk from a queue visits. -/
structure Visits (g : Adjacency) (queue : List NodeId) (seen : TreeSet NodeId)
    (visited : List NodeId) : Prop where
  queue_subset : ∀ n ∈ queue, n ∈ visited
  closed : ∀ n ∈ visited, ∀ m ∈ g.next n, seen.contains m = true ∨ m ∈ visited
  reached : ∀ n ∈ visited, ∃ q ∈ queue, ReflTransGen (Step g.next) q n
  first_time : ∀ n ∈ visited, n ∈ queue ∨ seen.contains n = false
  nodup : visited.Nodup

theorem Visits.nil (g : Adjacency) (seen : TreeSet NodeId) : Visits g [] seen [] :=
  ⟨by simp, by simp, by simp, by simp, List.nodup_nil⟩

section Fresh

variable {g : Adjacency} {seen : TreeSet NodeId} {node n : NodeId}

theorem contains_insertMany {fresh : List NodeId} :
    (seen.insertMany fresh).contains n = true ↔ seen.contains n = true ∨ n ∈ fresh := by
  rw [TreeSet.contains_insertMany_list, Bool.or_eq_true, List.contains_iff_mem]

/-- A walk visits the node at the head of its queue, and then what it visits from the rest of the
    queue and the successors that are new. -/
theorem Visits.cons {queue visited : List NodeId}
    (h : Visits g (queue ++ g.fresh seen node) (seen.insertMany (g.fresh seen node)) visited)
    (hqueue : node ∉ queue) (hnode : seen.contains node = true) :
    Visits g (node :: queue) seen (node :: visited) where
  queue_subset n hn := by
    rcases List.mem_cons.1 hn with rfl | hn
    · exact List.mem_cons_self
    · exact List.mem_cons_of_mem _ (h.queue_subset n (List.mem_append_left _ hn))
  closed n hn m hm := by
    have hfresh (hf : m ∈ g.fresh seen node) : m ∈ node :: visited :=
      List.mem_cons_of_mem _ (h.queue_subset m (List.mem_append_right _ hf))
    rcases List.mem_cons.1 hn with rfl | hn
    · cases hs : seen.contains m with
      | true => exact .inl rfl
      | false => exact .inr (hfresh (Adjacency.mem_fresh.2 ⟨hm, hs⟩))
    · rcases h.closed n hn m hm with hs | hv
      · exact (contains_insertMany.1 hs).imp_right hfresh
      · exact .inr (List.mem_cons_of_mem _ hv)
  reached n hn := by
    rcases List.mem_cons.1 hn with rfl | hn
    · exact ⟨n, List.mem_cons_self, .refl⟩
    · obtain ⟨q, hq, hreach⟩ := h.reached n hn
      rcases List.mem_append.1 hq with hq | hq
      · exact ⟨q, List.mem_cons_of_mem _ hq, hreach⟩
      · exact ⟨node, List.mem_cons_self, .head (Adjacency.mem_fresh.1 hq).1 hreach⟩
  first_time n hn := by
    rcases List.mem_cons.1 hn with rfl | hn
    · exact .inl List.mem_cons_self
    · rcases h.first_time n hn with hq | hs
      · rcases List.mem_append.1 hq with hq | hq
        · exact .inl (List.mem_cons_of_mem _ hq)
        · exact .inr (Adjacency.mem_fresh.1 hq).2
      · refine .inr (Bool.eq_false_iff.2 fun hseen => ?_)
        rw [contains_insertMany.2 (.inl hseen)] at hs
        cases hs
  nodup := by
    -- the node has been seen, and what comes later is in the queue or has not
    refine List.nodup_cons.2 ⟨fun hn => ?_, h.nodup⟩
    rcases h.first_time node hn with hq | hs
    · rcases List.mem_append.1 hq with hq | hq
      · exact hqueue hq
      · rw [(Adjacency.mem_fresh.1 hq).2] at hnode
        cases hnode
    · rw [contains_insertMany.2 (.inl hnode)] at hs
      cases hs

end Fresh

/-- A walk from nodes that have been seen visits what can be reached from them. -/
theorem Adjacency.visits_walk (g : Adjacency) {queue : List NodeId} {seen : TreeSet NodeId}
    (hseen : ∀ n ∈ queue, seen.contains n = true) (hqueue : queue.Nodup) :
    Visits g queue seen (g.walk queue seen) := by
  induction queue, seen using Adjacency.walk.induct g with
  | case1 seen =>
    rw [walk]
    exact .nil g seen
  | case2 node queue seen fresh ih =>
    obtain ⟨hnotin, hqueue⟩ := List.nodup_cons.1 hqueue
    have hseen' := fun n hn => hseen n (List.mem_cons_of_mem _ hn)
    rw [walk]
    refine (ih (fun n hn => ?_) ?_).cons hnotin (hseen node List.mem_cons_self)
    · exact contains_insertMany.2 ((List.mem_append.1 hn).imp_left (hseen' n))
    · refine hqueue.append (g.nodup_fresh seen node) fun n hn hf => ?_
      have hs := hseen' n hn
      rw [(mem_fresh.1 hf).2] at hs
      cases hs

end RefineCheck
