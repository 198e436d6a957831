/-
  RefineCheck.Proofs.Verifier.Grounded

  How the edges of a space agree with the precisions, whatever the system does. The successors of a
  node are those that are computed for it now, unless a state with a mark of its own covers the
  node: a more precise mark of that state counts for the node as well, but generation goes on from
  that state only.
-/

import Mathlib
import RefineCheck.Proofs.Precision
import RefineCheck.Proofs.Verifier.Loop

namespace RefineCheck

/-! ## Covered nodes -/

namespace Precision

variable {M : Type} {q : Precision M} {s s' : Space} {n k : NodeId} {e : Entry M}

/-- Whether an entry has a state that is not found to leave out another one. -/
def Entry.MayCover (e : Entry M) (st : State) : Prop :=
  ∃ covering, e.state = some covering ∧ covering.contains st ≠ .ok false

/-- Whether the mark of some other node may count for a stored node. -/
def CoversElsewhere (q : Precision M) (s : Space) (n : NodeId) : Prop :=
  ∃ k e st, q.entries[k]? = some e ∧ k ≠ n ∧ s.states[n]? = some st ∧ e.MayCover st

/-- The states of the entries are those of their nodes, as long as these are stored. -/
def Recorded (q : Precision M) (s : Space) : Prop :=
  ∀ k e st, q.entries[k]? = some e → e.state = some st →
    k ≠ root ∧ k < s.nextId ∧ ∀ st', s.states[k]? = some st' → st' = st

theorem recorded_reset (q : Precision M) (s : Space) : q.reset.Recorded s := by
  intro k e st he
  simp [reset] at he

/-- Nodes that are stored later have new numbers. -/
theorem Recorded.mono (h : q.Recorded s) (hle : s.nextId ≤ s'.nextId)
    (hnew : ∀ {k st}, s'.states[k]? = some st → s.states[k]? = some st ∨ s.nextId ≤ k) :
    q.Recorded s' := by
  intro k e st he hst
  obtain ⟨hroot, hlt, hsame⟩ := h k e st he hst
  refine ⟨hroot, hlt.trans_le hle, fun st' hst' => ?_⟩
  rcases hnew hst' with hold | hge
  · exact hsame st' hold
  · exact absurd hlt (not_lt.2 hge)

/-- A new entry has the state of its node. -/
theorem Recorded.insert (hq : q.Recorded s) (hs : s.Valid) {m : M} {q' : Precision M}
    (h : q.insert s n m = .ok q') : q'.Recorded s := by
  obtain ⟨state, rfl, hstate⟩ := insert_eq_ok h
  intro k e st he hst
  rw [entries_withEntry] at he
  split at he
  · rename_i hk
    obtain rfl := Option.some.inj he
    have hstored := hstate hst
    subst hk
    refine ⟨(hs.stored hstored).1, (hs.stored hstored).2, fun st' hst' => ?_⟩
    exact Option.some.inj (hst'.symm.trans hstored)
  · exact hq k e st he hst

theorem own_insert {m : M} {q' : Precision M} (h : q.insert s k m = .ok q') (hne : n ≠ k) :
    q'.own n = q.own n := by
  obtain ⟨state, rfl, -⟩ := insert_eq_ok h
  rw [own, own, entries_withEntry, if_neg hne]
  rfl

/-- A state that has an entry keeps what it covers when it gets a new mark. -/
theorem coversElsewhere_insert (hq : q.Recorded s) {m : M} {q' : Precision M}
    (h : q.insert s k m = .ok q') (hcovers : q.CoversElsewhere s n) : q'.CoversElsewhere s n := by
  obtain ⟨j, e, st, he, hj, hst, covering, hcovering, hcontains⟩ := hcovers
  by_cases hjk : j = k
  · subst hjk
    obtain ⟨hroot, -, hsame⟩ := hq j e covering he hcovering
    cases hstate : s.states[j]? with
    | none =>
      rw [insert, if_neg hroot, Space.state, hstate] at h
      cases h
    | some st' =>
      rw [insert_of_state hroot hstate] at h
      obtain rfl := Except.ok.inj h
      obtain rfl := hsame st' hstate
      refine ⟨j, ⟨m, some st'⟩, st, ?_, hj, hst, st', rfl, hcontains⟩
      rw [entries_withEntry, if_pos rfl]
  · obtain ⟨state, rfl, -⟩ := insert_eq_ok h
    refine ⟨j, e, st, ?_, hj, hst, covering, hcovering, hcontains⟩
    rw [entries_withEntry, if_neg hjk]
    exact he

variable [Refinable M]

/-- A node that no other entry covers has its own mark. -/
theorem get_of_not_coversElsewhere (hn : n = root ∨ s.contains n = true)
    (h : ¬ q.CoversElsewhere s n) : q.get s n = .ok (q.own n) := by
  by_cases hroot : n = root
  · rw [hroot]
    rfl
  obtain ⟨st, hst⟩ := Space.contains_iff.1 (hn.resolve_left hroot)
  rw [get_of_state hroot hst]
  -- no entry changes the mark, so the fold ends with the one it starts from
  have hskip (entry : NodeId × Entry M) (hentry : entry ∈ q.entries.toList) (m : M) :
      joinCovering n st m entry = .ok m := by
    rw [joinCovering.eq_def]
    split
    · rfl
    · rename_i covering hcovering
      split
      · rfl
      · rename_i hne
        have hfalse : covering.contains st = .ok false := by
          by_contra hcontains
          refine h ⟨entry.1, entry.2, st, ?_, hne, hst, covering, hcovering, hcontains⟩
          exact Std.TreeMap.mem_toList_iff_getElem?_eq_some.1 hentry
        rw [hfalse, ok_bind]
        rfl
  have hfold (entries : List (NodeId × Entry M)) (hsub : ∀ x ∈ entries, x ∈ q.entries.toList) (m : M) :
      entries.foldlM (joinCovering n st) m = .ok m := by
    induction entries with
    | nil => rfl
    | cons entry entries ih =>
      rw [List.forall_mem_cons] at hsub
      rw [List.foldlM_cons, hskip entry hsub.1, ok_bind]
      exact ih hsub.2
  exact hfold _ (fun _ hx => hx) _

/-- A new mark of one node leaves the marks of those that nothing covers. -/
theorem get_insert_of_not_coversElsewhere (hn : n = root ∨ s.contains n = true)
    (hq : q.Recorded s) {m : M} {q' : Precision M} (h : q.insert s k m = .ok q') (hne : n ≠ k)
    (hcovers : ¬ q'.CoversElsewhere s n) : q'.get s n = q.get s n := by
  rw [get_of_not_coversElsewhere hn hcovers, own_insert h hne,
    get_of_not_coversElsewhere hn fun hold => hcovers (coversElsewhere_insert hq h hold)]

end Precision

namespace Verifier

open VerifyM (Ensures)

variable {v w : Verifier} {node n : NodeId} {fuel : Nat} {steps : List (Record × State)}
  {e : Expansion}

/-- Whether a mark of some other node may count for a node. -/
def CoveredElsewhere (v : Verifier) (n : NodeId) : Prop :=
  v.inputPrecision.CoversElsewhere v.space n ∨ v.stepPrecision.CoversElsewhere v.space n

/-- Whether the states after a node are those that are computed for it under the precisions as they
    are now. States are told apart by their keys. -/
def Current (v : Verifier) (n : NodeId) : Prop :=
  ∃ fuel steps, v.successors fuel n = .ok steps ∧
    State.key '' v.space.targets n = {key | ∃ step ∈ steps, step.2.key = key}

theorem Current.of_same (h : v.Current n) (htargets : w.space.targets n = v.space.targets n)
    (hsucc : ∀ fuel, w.successors fuel n = v.successors fuel n) : w.Current n := by
  obtain ⟨fuel, steps, hsteps, hkeys⟩ := h
  exact ⟨fuel, steps, (hsucc fuel).trans hsteps, htargets ▸ hkeys⟩

/-- A node that was just expanded has the successors that are computed for it. -/
theorem Expands.current (h : Expands v node steps e w) (hs : v.space.Valid) (hnode : v.HasNode node)
    (hsucc : v.successors fuel node = .ok steps) : w.Current node := by
  refine ⟨fuel, steps, ?_, Set.ext fun key => ⟨?_, ?_⟩⟩
  · rw [h.frame.successors (Space.states_of_kept hs h.valid h.kept hnode), hsucc]
  · rintro ⟨st, ⟨m, hm, hst⟩, rfl⟩
    obtain ⟨step, hstep, st', hst', hkey⟩ := h.next_node.1 hm
    obtain rfl := Option.some.inj (hst.symm.trans hst')
    exact ⟨step, hstep, hkey.symm⟩
  · rintro ⟨step, hstep, rfl⟩
    obtain ⟨m, st, hst, hkey⟩ := h.stored step hstep
    exact ⟨st, ⟨m, h.next_node.2 ⟨step, hstep, st, hst, hkey⟩, hst⟩, hkey⟩

/-! ## Spaces that agree with the precisions -/

/-- A verifier whose nodes have the successors that are computed for them, except those that another
    state covers, and possibly one that is about to be expanded. -/
structure Grounded (v : Verifier) (except : Option NodeId) : Prop where
  space_valid : v.space.Valid
  inputs : v.inputPrecision.Recorded v.space
  steps : v.stepPrecision.Recorded v.space
  current {n : NodeId} : some n ≠ except → v.space.next n ≠ [] → ¬ v.CoveredElsewhere n →
    v.Current n

theorem Grounded.but (hv : v.Grounded none) (node : NodeId) : v.Grounded (some node) :=
  ⟨hv.space_valid, hv.inputs, hv.steps, fun _ => hv.current nofun⟩

/-- Expanding a node settles it. -/
theorem Grounded.expands (hv : v.Grounded (some node)) (hnode : v.HasNode node)
    (hsucc : v.successors fuel node = .ok steps) (h : Expands v node steps e w) :
    w.Grounded none := by
  have hin : w.inputPrecision = v.inputPrecision := by rw [h.frame]
  have hstep : w.stepPrecision = v.stepPrecision := by rw [h.frame]
  have hnew {k : NodeId} {st : State} (hst : w.space.states[k]? = some st) :
      v.space.states[k]? = some st ∨ v.space.nextId ≤ k := (h.new hst).imp_right fun h => h.2.2
  refine ⟨h.valid, hin ▸ hv.inputs.mono h.nextId_le hnew, hstep ▸ hv.steps.mono h.nextId_le hnew,
    fun {n} _ hne hcovered => ?_⟩
  by_cases hn : n = node
  · exact hn ▸ h.current hv.space_valid hnode hsucc
  · have hnext := h.next_other hn
    rw [hnext] at hne
    obtain ⟨m, hm⟩ := List.exists_mem_of_ne_nil _ hne
    have hstate := Space.states_of_kept hv.space_valid h.valid h.kept (hv.space_valid.source hm)
    have hold : ¬ v.CoveredElsewhere n := by
      simpa only [CoveredElsewhere, Precision.CoversElsewhere, hin, hstep, hstate] using hcovered
    have hcurrent := hv.current (fun h => hn (Option.some.inj h)) hne hold
    exact hcurrent.of_same (Space.targets_of_kept hv.space_valid h.kept hnext)
      (h.frame.successors hstate)

/-- A more precise mark of one node leaves the others as they are, unless it counts for them. -/
theorem Grounded.refined (hv : v.Grounded none) {i : Improvement} (h : v.Refined i w) :
    w.Grounded (some i.node) := by
  -- it suffices that a node that no other mark covers afterwards has the marks it had
  have hsame {w : Verifier} (hframe : w =
      { v with inputPrecision := w.inputPrecision, stepPrecision := w.stepPrecision })
      (hcovered : ∀ {n}, n = root ∨ v.space.contains n = true → n ≠ i.node → ¬ w.CoveredElsewhere n →
        ¬ v.CoveredElsewhere n ∧ w.inputPrecision.get v.space n = v.inputPrecision.get v.space n ∧
          w.stepPrecision.get v.space n = v.stepPrecision.get v.space n) :
      ∀ {n}, some n ≠ some i.node → w.space.next n ≠ [] → ¬ w.CoveredElsewhere n → w.Current n := by
    intro n hn hne hnot
    have hspace : w.space = v.space := by rw [hframe]
    rw [hspace] at hne
    obtain ⟨m, hm⟩ := List.exists_mem_of_ne_nil _ hne
    obtain ⟨hold, hin, hstep⟩ := hcovered (hv.space_valid.source hm)
      (fun h => hn (congrArg some h)) hnot
    refine (hv.current nofun hne hold).of_same (by rw [hspace]) ?_
    exact successors_congr (by rw [hframe]) (by rw [hspace, hin]) (by rw [hspace, hstep])
      (by rw [hspace])
  cases h with
  | step himproves hinsert =>
    refine ⟨hv.space_valid, hv.inputs, hv.steps.insert hv.space_valid hinsert, hsame rfl ?_⟩
    intro n hn hne hcovered
    obtain ⟨hin, hstep⟩ := not_or.1 hcovered
    refine ⟨not_or.2 ⟨hin, fun hold => hstep (Precision.coversElsewhere_insert hv.steps hinsert hold)⟩,
      rfl, Precision.get_insert_of_not_coversElsewhere hn hv.steps hinsert hne hstep⟩
  | input himproves hinsert =>
    refine ⟨hv.space_valid, hv.inputs.insert hv.space_valid hinsert, hv.steps, hsame rfl ?_⟩
    intro n hn hne hcovered
    obtain ⟨hin, hstep⟩ := not_or.1 hcovered
    refine ⟨not_or.2 ⟨fun hold => hin (Precision.coversElsewhere_insert hv.inputs hinsert hold), hstep⟩,
      Precision.get_insert_of_not_coversElsewhere hn hv.inputs hinsert hne hin, rfl⟩

/-- Removing states that cannot be reached leaves the successors of all others. -/
theorem Grounded.collected (hv : v.Grounded none) : v.collected.Grounded none := by
  have hswept := Space.swept_collect hv.space_valid
  have hnew {k : NodeId} {st : State} (hst : v.collected.space.states[k]? = some st) :
      v.space.states[k]? = some st ∨ v.space.nextId ≤ k := .inl (hswept.states_subset hst)
  refine ⟨hswept.valid, hv.inputs.mono hswept.nextId_eq.ge hnew,
    hv.steps.mono hswept.nextId_eq.ge hnew, fun {n} _ hne hcovered => ?_⟩
  have hn : n ∉ v.space.collect.2 := fun hmem => hne (hswept.next_gone hmem)
  have hstate : v.collected.space.states[n]? = v.space.states[n]? := hswept.states_kept hn
  have hold : ¬ v.CoveredElsewhere n := by
    rw [CoveredElsewhere, Precision.CoversElsewhere, Precision.CoversElsewhere, hstate] at hcovered
    exact hcovered
  have hcurrent := hv.current nofun (hswept.next_kept hn ▸ hne) hold
  exact hcurrent.of_same (hswept.targets_kept hn)
    (successors_congr rfl (get_congr _ hstate) (get_congr _ hstate) hstate)

/-! ## Generation -/

/-- Whether every node has a successor. -/
def Total (v : Verifier) : Prop := ∀ n, v.HasNode n → v.space.next n ≠ []

theorem Total.isLeftTotal (h : v.Total) (hs : v.space.Valid) : v.space.isLeftTotal = true := by
  refine Space.isLeftTotal_iff.2 fun n hn => h n ?_
  by_cases hroot : n = root
  · exact .inl hroot
  · exact .inr (hs.contains_of_reachable hn hroot)

theorem Total.assertLeftTotal (h : v.Total) (hs : v.space.Valid) :
    v.space.assertLeftTotal = .ok () := by
  have htotal := h.isLeftTotal hs
  rw [Space.isLeftTotal, Option.isNone_iff_eq_none] at htotal
  rw [Space.assertLeftTotal, htotal]

theorem Total.collected (h : v.Total) (hs : v.space.Valid) : v.collected.Total := by
  have hswept := Space.swept_collect hs
  intro n hn
  have hkept : n ∉ v.space.collect.2 := by
    intro hmem
    rcases hn with rfl | hc
    · exact absurd rfl (hs.contains_lt (hswept.unreachable hmem).1).1
    · obtain ⟨st, hst⟩ := Space.contains_iff.1 hc
      exact absurd ((hswept.states_gone hmem).symm.trans hst) nofun
  have hnode : v.HasNode n := hn.imp_right fun hc => by
    obtain ⟨st, hst⟩ := Space.contains_iff.1 hc
    exact Space.contains_iff.2 ⟨st, hswept.states_subset hst⟩
  exact (hswept.next_kept hkept).symm ▸ h n hnode

/-- Nothing but the space, what is known of properties and the counts changed. -/
def Rebuilt (v w : Verifier) : Prop :=
  w = { v with space := w.space, checker := w.checker, counters := w.counters }

theorem SameBut.rebuilt (h : v.SameBut w) (checker : Checker) : v.Rebuilt { w with checker } := by
  rw [SameBut] at h
  rw [Rebuilt, h]

/-- Generating from the only node without successors on gives every node its successors, and a
    generation that reports no change leaves all edges. It can fail because of the system only, and
    finds no node without successors at its end. -/
theorem Grounded.regenerate (hv : v.Grounded (some node))
    (hdead : ∀ n, v.HasNode n → v.space.next n = [] → n = node) (fuel : Nat) :
    Ensures (regenerate fuel node) v
      (fun b w => w.Grounded none ∧ w.Total ∧ v.Rebuilt w ∧
        (b = false → ∀ n, w.space.next n = v.space.next n))
      (fun stop w => ¬ stop.Spatial ∧ v.Rebuilt w ∧ stop ≠ .failure .incomplete) := by
  by_cases hnode : v.HasNode node
  · have hsucc {u : Verifier} {n : NodeId} {stop : Stop} (h : u.successors fuel n = .error stop) :
        ¬ stop.Spatial ∧ stop ≠ .failure .incomplete := by
      refine ⟨(stop_of_successors h).1, fun hstop => ?_⟩
      obtain ⟨causes, hcauses⟩ := (stop_of_successors h).2 _ hstop
      cases hcauses
    -- the only node without successors is the one that gets them first
    have htotal {u : Verifier} {added changed} (hu : Renewed (Grounded · none) v node u added changed) :
        u.Total := by
      intro n hn hnext
      rcases hu.frontier hn hnext with ⟨hold, hnone⟩ | hmem
      · exact hu.node_explored (hdead n hold hnone ▸ hnext)
      · cases hmem
    refine (ensures_regenerate (I := (Grounded · none)) ?_ hv.space_valid hnode
      fun hsucc he => hv.expands hnode hsucc he).imp ?_ ?_
    · intro v w n steps e hu _ hn _ hsucc he
      exact (hu.but n).expands hn hsucc he
    · rintro b w ⟨u, added, changed, hu, rfl, rfl, -⟩
      have hground := hu.invariant
      refine ⟨⟨hground.space_valid, hground.inputs, hground.steps, fun hn hne hcovered => ?_⟩,
        fun n hn => htotal hu n hn, hu.frame.rebuilt _, fun hsame n => ?_⟩
      · exact (hground.current hn hne hcovered).of_same rfl
          (successors_congr rfl rfl rfl rfl)
      · -- a node whose edges differ is among the changed ones
        by_contra hne
        have hmem := hu.changed hne
        rw [Bool.not_eq_false', List.isEmpty_iff] at hsame
        rw [hsame] at hmem
        cases hmem
    · rintro stop w (⟨hframe, hstop⟩ | ⟨hframe, rfl | ⟨u, n, -, -, -, -, hstop⟩⟩ |
        ⟨u, added, changed, cause, hu, rfl, hassert, rfl⟩)
      · exact ⟨(hsucc hstop).1, hframe.rebuilt w.checker, (hsucc hstop).2⟩
      · exact ⟨id, hframe.rebuilt w.checker, nofun⟩
      · exact ⟨(hsucc hstop).1, hframe.rebuilt w.checker, (hsucc hstop).2⟩
      · rw [(htotal hu).assertLeftTotal hu.valid] at hassert
        cases hassert
  · obtain ⟨w, hw, hframe, -⟩ := exec_regenerate_of_not_hasNode hnode fuel
    exact .of_error hw ⟨id, hframe.rebuilt w.checker, nofun⟩

end Verifier

end RefineCheck
