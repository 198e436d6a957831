/-
  RefineCheck.Proofs.Space.Distance

  A walk visits nodes in the order of their distance. At any time its queue holds nodes of two
  neighbouring distances, those of the lower one first, and every node that is not seen yet lies
  further away.
-/

import RefineCheck.Proofs.Space.Graph

namespace RefineCheck

open Std (TreeSet)
open Relation (ReflTransGen)

/-- Whether a number of steps leads from one node to another. -/
inductive Arrives (next : NodeId → List NodeId) (start : NodeId) : Nat → NodeId → Prop
  | here : Arrives next start 0 start
  | step {k : Nat} {n m : NodeId} : Arrives next start k n → m ∈ next n →
    Arrives next start (k + 1) m

/-- The least number of steps from one node to another, which is infinite if there are none. -/
noncomputable def distance (next : NodeId → List NodeId) (start n : NodeId) : ℕ∞ :=
  ⨅ k ∈ {k | Arrives next start k n}, (k : ℕ∞)

section Distance

variable {next : NodeId → List NodeId} {start n m : NodeId} {k : Nat}

theorem Arrives.distance_le (h : Arrives next start k n) : distance next start n ≤ k :=
  biInf_le _ h

/-- A finite distance is the length of some way. -/
theorem exists_arrives (h : distance next start n ≤ k) :
    ∃ j ≤ k, distance next start n = j ∧ Arrives next start j n := by
  have hsome : ∃ j, Arrives next start j n := by
    by_contra hnone
    have htop : distance next start n = ⊤ := iInf₂_eq_top.2 fun j hj => absurd ⟨j, hj⟩ hnone
    rw [htop] at h
    exact absurd h (by simp)
  classical
  have hleast : (Nat.find hsome : ℕ∞) ≤ distance next start n :=
    le_iInf₂ fun j hj => Nat.cast_le.2 (Nat.find_le hj)
  have heq := le_antisymm (Nat.find_spec hsome).distance_le hleast
  exact ⟨Nat.find hsome, by rwa [heq, Nat.cast_le] at h, heq, Nat.find_spec hsome⟩

theorem distance_self : distance next start start = 0 :=
  le_antisymm Arrives.here.distance_le bot_le

theorem eq_of_distance_le_zero (h : distance next start n ≤ (0 : Nat)) : n = start := by
  obtain ⟨j, hj, -, harrives⟩ := exists_arrives h
  obtain rfl := Nat.le_zero.1 hj
  cases harrives
  rfl

/-- A step leads at most one further away. -/
theorem distance_le_of_step (hn : distance next start n = k) (hm : m ∈ next n) :
    distance next start m ≤ (k + 1 : Nat) := by
  obtain ⟨j, hj, -, harrives⟩ := exists_arrives (le_of_eq hn)
  exact (harrives.step hm).distance_le.trans (Nat.cast_le.2 (Nat.succ_le_succ hj))

/-- Before a node that is not the start comes one that is one closer. -/
theorem exists_closer (h : distance next start m = (k + 1 : Nat)) :
    ∃ n, distance next start n = k ∧ m ∈ next n := by
  obtain ⟨j, -, heq, harrives⟩ := exists_arrives (le_of_eq h)
  obtain rfl : j = k + 1 := Nat.cast_inj.1 (heq.symm.trans h)
  obtain _ | ⟨hn, hm⟩ := harrives
  refine ⟨_, le_antisymm hn.distance_le (not_lt.1 fun hlt => ?_), hm⟩
  obtain ⟨i, -, hi, -⟩ := exists_arrives hlt.le
  rw [hi, Nat.cast_lt] at hlt
  have hle := distance_le_of_step hi hm
  rw [h, Nat.cast_le] at hle
  omega

end Distance

/-! ## Fronts -/

/-- The queue of a walk: first the near nodes at some distance, then the far ones one step further.
    Of the nodes at the distance of the far ones, those that are not queued follow a near one. -/
structure Front (next : NodeId → List NodeId) (start : NodeId) (k : Nat)
    (near far : List NodeId) (seen : TreeSet NodeId) : Prop where
  near_eq : ∀ n ∈ near, distance next start n = k
  far_eq : ∀ n ∈ far, distance next start n = (k + 1 : Nat)
  far_seen : ∀ n ∈ far, seen.contains n = true
  seen_of_le : ∀ n, distance next start n ≤ k → seen.contains n = true
  le_or_far : ∀ n, seen.contains n = true → distance next start n ≤ k ∨ n ∈ far
  coming : ∀ m, distance next start m = (k + 1 : Nat) → m ∈ far ∨ ∃ n ∈ near, m ∈ next n

section Fronts

variable {next : NodeId → List NodeId} {start node : NodeId} {k : Nat}
  {near far : List NodeId} {seen : TreeSet NodeId}

/-- A walk starts at the only node at distance zero. -/
theorem front_start (next : NodeId → List NodeId) (start : NodeId) :
    Front next start 0 [start] [] (TreeSet.ofList [start]) where
  near_eq n hn := List.mem_singleton.1 hn ▸ distance_self
  far_eq n hn := by cases hn
  far_seen n hn := by cases hn
  seen_of_le n hn := by simp [eq_of_distance_le_zero hn]
  le_or_far n hn := by
    obtain rfl : start = n := by simpa using hn
    exact .inl (le_of_eq distance_self)
  coming m hm := by
    obtain ⟨n, hn, hstep⟩ := exists_closer hm
    obtain rfl := eq_of_distance_le_zero (le_of_eq hn)
    exact .inr ⟨n, List.mem_singleton_self n, hstep⟩

/-- Once the near nodes have been visited, the far ones are the near ones of the next front. -/
theorem Front.advance (h : Front next start k [] far seen) :
    Front next start (k + 1) far [] seen where
  near_eq := h.far_eq
  far_eq n hn := by cases hn
  far_seen n hn := by cases hn
  seen_of_le n hn := by
    obtain ⟨j, hj, heq, -⟩ := exists_arrives hn
    rcases Nat.le_succ_iff.1 hj with hj | rfl
    · exact h.seen_of_le n (heq ▸ Nat.cast_le.2 hj)
    · exact h.far_seen n ((h.coming n heq).resolve_right (by simp))
  le_or_far n hn := by
    refine .inl ?_
    rcases h.le_or_far n hn with hle | hfar
    · exact hle.trans (Nat.cast_le.2 (Nat.le_succ k))
    · exact le_of_eq (h.far_eq n hfar)
  coming m hm := by
    obtain ⟨n, hn, hstep⟩ := exists_closer hm
    exact .inr ⟨n, (h.coming n hn).resolve_right (by simp), hstep⟩

/-- The successors of a visited node that are seen for the first time join the far ones. -/
theorem Front.visit (h : Front next start k (node :: near) far seen) {fresh : List NodeId}
    (hfresh : ∀ n, n ∈ fresh ↔ n ∈ next node ∧ seen.contains n = false) :
    Front next start k near (far ++ fresh) (seen.insertMany fresh) := by
  have hnode : distance next start node = k := h.near_eq node List.mem_cons_self
  have hfar : ∀ n ∈ fresh, distance next start n = (k + 1 : Nat) := by
    intro n hn
    obtain ⟨hstep, hunseen⟩ := (hfresh n).1 hn
    obtain ⟨j, hj, heq, -⟩ := exists_arrives (distance_le_of_step hnode hstep)
    rcases Nat.le_succ_iff.1 hj with hj | rfl
    · rw [h.seen_of_le n (heq ▸ Nat.cast_le.2 hj)] at hunseen
      cases hunseen
    · exact heq
  refine ⟨fun n hn => h.near_eq n (List.mem_cons_of_mem _ hn), ?_, ?_,
    fun n hn => contains_insertMany.2 (.inl (h.seen_of_le n hn)), ?_, ?_⟩
  · exact List.forall_mem_append.2 ⟨h.far_eq, hfar⟩
  · intro n hn
    exact contains_insertMany.2 ((List.mem_append.1 hn).imp_left (h.far_seen n))
  · intro n hn
    rcases contains_insertMany.1 hn with hn | hn
    · exact (h.le_or_far n hn).imp_right (List.mem_append_left _)
    · exact .inr (List.mem_append_right _ hn)
  · intro m hm
    rcases h.coming m hm with hm | ⟨n, hn, hstep⟩
    · exact .inl (List.mem_append_left _ hm)
    rcases List.mem_cons.1 hn with rfl | hn
    · -- a successor of the visited node is queued now, if it was not before
      cases hs : seen.contains m with
      | false => exact .inl (List.mem_append_right _ ((hfresh m).2 ⟨hstep, hs⟩))
      | true =>
        refine .inl (List.mem_append_left _ ((h.le_or_far m hs).resolve_left fun hle => ?_))
        rw [hm, Nat.cast_le] at hle
        omega
    · exact .inr ⟨n, hn, hstep⟩

/-- The next node to visit is a near one of this front or of the one after it. -/
theorem Front.next_visited {queue : List NodeId} (h : Front next start k near far seen)
    (hqueue : near ++ far = node :: queue) :
    ∃ k' near' far', k ≤ k' ∧ near' ++ far' = queue ∧
      Front next start k' (node :: near') far' seen := by
  cases near with
  | cons n near =>
    obtain ⟨rfl, rfl⟩ := List.cons.inj hqueue
    exact ⟨k, near, far, le_rfl, rfl, h⟩
  | nil =>
    rw [List.nil_append] at hqueue
    subst hqueue
    exact ⟨k + 1, queue, [], Nat.le_succ k, List.append_nil queue, h.advance⟩

/-- From a front on, a walk never comes closer. -/
theorem Front.walk_ordered {g : Adjacency} (h : Front g.next start k near far seen) :
    (∀ n ∈ g.walk (near ++ far) seen, (k : ℕ∞) ≤ distance g.next start n) ∧
      (g.walk (near ++ far) seen).Pairwise
        fun n m => distance g.next start n ≤ distance g.next start m := by
  generalize hqueue : near ++ far = queue
  induction queue, seen using Adjacency.walk.induct g generalizing k near far with
  | case1 seen => simp [Adjacency.walk]
  | case2 node queue seen fresh =>
    rename_i ih
    obtain ⟨k', near', far', hle, rfl, hfront⟩ := h.next_visited hqueue
    have hnode : distance g.next start node = k' := hfront.near_eq node List.mem_cons_self
    obtain ⟨hbound, hordered⟩ := ih (hfront.visit fun _ => Adjacency.mem_fresh)
      (List.append_assoc near' far' _).symm
    rw [Adjacency.walk, List.forall_mem_cons, List.pairwise_cons]
    refine ⟨⟨?_, fun n hn => (Nat.cast_le.2 hle).trans (hbound n hn)⟩, fun n hn => ?_, hordered⟩
    · exact (Nat.cast_le.2 hle).trans (le_of_eq hnode.symm)
    · exact (le_of_eq hnode).trans (hbound n hn)

end Fronts

namespace Space

/-- The least number of steps from the root to a node. -/
noncomputable def distance (s : Space) (n : NodeId) : ℕ∞ := RefineCheck.distance s.next root n

/-- The reachable nodes are listed in the order of their distance. -/
theorem reachable_ordered (s : Space) :
    s.reachable.Pairwise fun n m => s.distance n ≤ s.distance m :=
  (front_start s.next root).walk_ordered (g := s.forwards) |>.2

end Space

end RefineCheck
