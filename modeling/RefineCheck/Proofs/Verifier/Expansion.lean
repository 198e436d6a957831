/-
  RefineCheck.Proofs.Verifier.Expansion

  Expansion and generation, whatever the system returns and whatever the precisions are. Expanding a
  node gives it the successors that are computed for it and changes nothing else. A generation
  expands one node after the other until every node it met has successors.
-/

import Mathlib
import RefineCheck.Proofs.Checker.Incremental
import RefineCheck.Proofs.Fault
import RefineCheck.Proofs.Verifier.Run

namespace RefineCheck

open Relation (ReflTransGen)

/-- The state after a state for an input, which loses what a mark does not keep. -/
def TransitionSystem.advance (system : TransitionSystem) (stepMark : StateMark)
    (current : Option State) (input : Record) : Except Fault State := do
  let state ← match current with
    | none => system.init input
    | some state => system.next state.result input
  stepMark.decay state

theorem Verifier.successor_eq (v : Verifier) (stepMark : StateMark) (current : Option State)
    (input : Record) : v.successor stepMark current input = v.system.advance stepMark current input :=
  rfl

/-! ## Inputs of edges -/

namespace Space

variable {s s' : Space} {node n m : NodeId}

/-- Adding a step leaves the inputs of all edges that there are. -/
theorem input?_addStep {state : State} {input r : Record} {id : StateId} {inserted : Bool}
    (h : s.addStep node state input = .ok (s', id, inserted)) (hr : s'.input? n m = some r) :
    s.input? n m = some r ∨ r = input := by
  simp only [addStep, bind_eq_ok, pure_eq_ok] at h
  obtain ⟨-, -, h⟩ := h
  have hstored : (s.addState state).1.successors = s.successors := by
    rw [addState]
    split <;> rfl
  obtain ⟨rfl, -⟩ := Prod.mk.inj h
  rw [addEdge, input?] at hr
  split at hr
  · rw [hstored] at hr
    exact .inl hr
  · rw [hstored, Std.TreeMap.getD_insert] at hr
    split at hr
    · rename_i hn
      obtain rfl := Std.LawfulEqCmp.compare_eq_iff_eq.1 hn
      rw [Std.TreeMap.getElem?_insert] at hr
      split at hr
      · exact .inr (Option.some.inj hr).symm
      · exact .inl hr
    · exact .inl hr

theorem getElem?_of_erase {edges : Std.TreeMap NodeId (Std.TreeMap StateId Record)} {r : Record}
    (h : ((edges.erase node).getD n {})[m]? = some r) : (edges.getD n {})[m]? = some r := by
  rw [Std.TreeMap.getD_erase] at h
  split at h
  · simp at h
  · exact h

theorem input?_clearStep {removed : List StateId} {r : Record}
    (h : s.clearStep node = .ok (s', removed)) (hr : s'.input? n m = some r) :
    s.input? n m = some r := by
  simp only [clearStep, bind_eq_ok, pure_eq_ok] at h
  obtain ⟨-, -, h⟩ := h
  obtain ⟨rfl, -⟩ := Prod.mk.inj h
  exact getElem?_of_erase hr

theorem input?_collect {r : Record} (hr : s.collect.1.input? n m = some r) :
    s.input? n m = some r := by
  have hone {s : Space} {id : StateId} (hr : (s.removeState id).input? n m = some r) :
      s.input? n m = some r := by
    rw [removeState] at hr
    split at hr
    · exact hr
    · exact getElem?_of_erase hr
  have hall (removed : List StateId) {s : Space}
      (hr : (removed.foldl removeState s).input? n m = some r) : s.input? n m = some r := by
    induction removed generalizing s with
    | nil => exact hr
    | cons id removed ih => exact hone (ih hr)
  rw [collect] at hr
  split at hr
  · exact hr
  · exact hall _ hr

end Space

/-! ## Adding the successors of a node -/

namespace Space

variable {s s' : Space} {node n m : NodeId} {st : State}

theorem Valid.states_root (hs : s.Valid) : s.states[root]? = none := by
  cases h : s.states[root]? with
  | none => rfl
  | some st => exact absurd rfl (hs.stored h).1

/-- The states after a node. -/
def targets (s : Space) (n : NodeId) : Set State := {st | ∃ m ∈ s.next n, s.states[m]? = some st}

/-- Adds an edge for one step, and remembers the state if it is new. -/
def addOne (node : NodeId) (acc : Space × List StateId) (step : Record × State) :
    Except Fault (Space × List StateId) := do
  let (space, id, inserted) ← Space.addStep acc.1 node step.2 step.1
  return (space, if inserted then acc.2 ++ [id] else acc.2)

/-- What adding steps from a node does. -/
structure Grown (s : Space) (node : NodeId) (steps : List (Record × State))
    (added : List StateId) (s' : Space) (added' : List StateId) : Prop where
  valid : s'.Valid
  run {Good : State → Prop} : (∀ step ∈ steps, Good step.2) → ReflTransGen (Mutates Good) s s'
  kept {n : NodeId} {st : State} : s.states[n]? = some st → s'.states[n]? = some st
  new {n : NodeId} {st : State} : s'.states[n]? = some st →
    s.states[n]? = some st ∨ n ∈ added' ∧ n ∈ s'.next node ∧ s.nextId ≤ n
  nextId_le : s.nextId ≤ s'.nextId
  added_subset {n : NodeId} : n ∈ added → n ∈ added'
  stored : ∀ step ∈ steps, ∃ (m : NodeId) (st : State), s'.states[m]? = some st ∧ st.key = step.2.key
  next_other {n : NodeId} : n ≠ node → s'.next n = s.next n
  next_node {m : NodeId} : m ∈ s'.next node ↔ m ∈ s.next node ∨
    ∃ step ∈ steps, ∃ st, s'.states[m]? = some st ∧ st.key = step.2.key
  inputs {n m : NodeId} {r : Record} : s'.input? n m = some r →
    s.input? n m = some r ∨ ∃ step ∈ steps, r = step.1

theorem Built.run {Good : State → Prop} (h : s.Built Good) (hrun : ReflTransGen (Mutates Good) s s') :
    s'.Built Good := by
  induction hrun with
  | refl => exact h
  | tail _ hstep ih => exact hstep.built ih

theorem addStep_ok (hnode : node = root ∨ s.contains node = true) (state : State)
    (input : Record) : ∃ s' id inserted, s.addStep node state input = .ok (s', id, inserted) := by
  rw [addStep, checkNode_ok_iff.2 hnode]
  exact ⟨_, _, _, rfl⟩

theorem Grown.nil (hs : s.Valid) (added : List StateId) : Grown s node [] added s added where
  valid := hs
  run _ := .refl
  kept h := h
  new := .inl
  nextId_le := le_rfl
  added_subset h := h
  stored _ h := absurd h List.not_mem_nil
  next_other _ := rfl
  next_node := by simp
  inputs := .inl

/-- One step, and then the others. A later step whose state has the same key finds the state that is
    stored, so that nothing the first step did is undone. -/
theorem Grown.cons {s₁ : Space} {step : Record × State} {steps : List (Record × State)}
    {id : StateId} {inserted : Bool} {added added' : List StateId}
    (hadd : s.addStep node step.2 step.1 = .ok (s₁, id, inserted))
    (h₁ : Added s node step.2 s₁ id inserted)
    (h : Grown s₁ node steps (if inserted then added ++ [id] else added) s' added') :
    Grown s node (step :: steps) added s' added' where
  valid := h.valid
  run hgood := by
    rw [List.forall_mem_cons] at hgood
    exact .head (.addStep hgood.1 hadd) (h.run hgood.2)
  kept hst := h.kept (h₁.kept hst)
  new {n st} hst := by
    rcases h.new hst with hst | ⟨hmem, hnext, hle⟩
    · rcases h₁.new hst with hst | ⟨rfl, -, hins⟩
      · exact .inl hst
      · refine .inr ⟨h.added_subset ?_, h.next_node.2 (.inl (h₁.next_source.2 (.inl rfl))),
          h₁.fresh hins⟩
        rw [if_pos hins]
        exact List.mem_append_right _ (List.mem_singleton_self _)
    · exact .inr ⟨hmem, hnext, h₁.nextId_le.trans hle⟩
  nextId_le := h₁.nextId_le.trans h.nextId_le
  added_subset {n} hn := by
    refine h.added_subset ?_
    split
    · exact List.mem_append_left _ hn
    · exact hn
  stored := by
    obtain ⟨st, hst, hkey⟩ := h₁.state_id
    exact List.forall_mem_cons.2 ⟨⟨id, st, h.kept hst, hkey⟩, h.stored⟩
  next_other hn := (h.next_other hn).trans (h₁.next_other hn)
  next_node {m} := by
    obtain ⟨st, hst, hkey⟩ := h₁.state_id
    -- keys tell states apart, so that the state of this step is the only one with its key
    have hid : m = id ↔ ∃ st, s'.states[m]? = some st ∧ st.key = step.2.key := by
      constructor
      · rintro rfl
        exact ⟨st, h.kept hst, hkey⟩
      · rintro ⟨st', hst', hkey'⟩
        exact h.valid.eq_of_key hst' (h.kept hst) (hkey'.trans hkey.symm)
    rw [h.next_node, h₁.next_source, List.exists_mem_cons_iff, hid]
    exact or_assoc.trans or_left_comm
  inputs {n m r} hr := by
    rw [List.exists_mem_cons_iff]
    rcases h.inputs hr with hr | hlater
    · exact (input?_addStep hadd hr).imp_right .inl
    · exact .inr (.inr hlater)

theorem grown_addSteps (hs : s.Valid) (hnode : node = root ∨ s.contains node = true)
    (steps : List (Record × State)) (added : List StateId) :
    ∃ s' added', steps.foldlM (addOne node) (s, added) = .ok (s', added') ∧
      Grown s node steps added s' added' := by
  induction steps generalizing s added with
  | nil => exact ⟨s, added, rfl, .nil hs added⟩
  | cons step steps ih =>
    obtain ⟨s₁, id, inserted, hadd⟩ := addStep_ok hnode step.2 step.1
    have h₁ := added_of_addStep hs hadd
    have hnode₁ : node = root ∨ s₁.contains node = true := by
      refine hnode.imp_right fun hc => ?_
      obtain ⟨st, hst⟩ := contains_iff.1 hc
      exact contains_iff.2 ⟨st, h₁.kept hst⟩
    obtain ⟨s', added', hrest, h⟩ := ih h₁.valid hnode₁ (if inserted then added ++ [id] else added)
    refine ⟨s', added', ?_, .cons hadd h₁ h⟩
    have hone : addOne node (s, added) step =
        .ok (s₁, if inserted then added ++ [id] else added) := by
      rw [addOne, hadd]
      rfl
    rw [List.foldlM_cons, hone]
    exact hrest

theorem clearStep_ok (hnode : node = root ∨ s.contains node = true) :
    ∃ s', s.clearStep node = .ok (s', s.next node) := by
  rw [clearStep, checkNode_ok_iff.2 hnode]
  exact ⟨_, rfl⟩

theorem states_of_kept (hs : s.Valid) (hs' : s'.Valid)
    (hkept : ∀ {m : NodeId} {st : State}, s.states[m]? = some st → s'.states[m]? = some st)
    (hn : n = root ∨ s.contains n = true) : s'.states[n]? = s.states[n]? := by
  rcases hn with rfl | hc
  · rw [hs.states_root, hs'.states_root]
  · obtain ⟨st, hst⟩ := contains_iff.1 hc
    rw [hst, hkept hst]

/-- The states after a node stay the same as long as its edges do. -/
theorem targets_of_kept (hs : s.Valid)
    (hkept : ∀ {m : NodeId} {st : State}, s.states[m]? = some st → s'.states[m]? = some st)
    (hnext : s'.next n = s.next n) : s'.targets n = s.targets n := by
  ext st
  refine ⟨fun ⟨m, hm, hst⟩ => ?_, fun ⟨m, hm, hst⟩ => ⟨m, hnext ▸ hm, hkept hst⟩⟩
  rw [hnext] at hm
  obtain ⟨st', hst'⟩ := contains_iff.1 (hs.target hm)
  obtain rfl := Option.some.inj ((hkept hst').symm.trans hst)
  exact ⟨m, hm, hst'⟩

theorem Swept.targets_kept {removed : List StateId} (h : Swept s s' removed) (hn : n ∉ removed) :
    s'.targets n = s.targets n := by
  ext st
  refine ⟨fun ⟨m, hm, hst⟩ => ⟨m, h.next_kept hn ▸ hm, h.states_subset hst⟩, ?_⟩
  rintro ⟨m, hm, hst⟩
  rw [← h.next_kept hn] at hm
  obtain ⟨st', hst'⟩ := contains_iff.1 (h.valid.target hm)
  obtain rfl := Option.some.inj ((h.states_subset hst').symm.trans hst)
  exact ⟨m, hm, hst'⟩

theorem next_empty (n : NodeId) : empty.next n = [] :=
  List.eq_nil_iff_forall_not_mem.2 fun m hm => by simp [mem_next, empty] at hm

theorem not_mem_next_of_input? (h : s.input? n m = none) : m ∉ s.next n := by
  rw [mem_next_iff_input?, h]
  rintro ⟨_, hinput⟩
  cases hinput

theorem isExplored_iff : s.isExplored n = true ↔ s.next n ≠ [] := by
  rw [isExplored, Bool.not_eq_true', List.isEmpty_eq_false_iff]

end Space

/-! ## Successors -/

namespace Verifier

variable {v w : Verifier} {node : NodeId} {fuel : Nat} {stepMark : StateMark}
  {current : Option State} {steps : List (Record × State)} {stop : Stop}

/-- The root, or a state that is stored. -/
def HasNode (v : Verifier) (n : NodeId) : Prop := n = root ∨ v.space.contains n = true

/-- The steps for some inputs, unless one of them fails. -/
def gather (v : Verifier) (stepMark : StateMark) (current : Option State) (node : NodeId)
    (inputs : List Record) : Except Stop (List (Record × State)) :=
  let results := inputs.map fun input => (v.successor stepMark current input).map (input, ·)
  if (faults results).isEmpty then (results.mapM id).mapError .fault
  else throw (.failure (.generation node (faults results)))

theorem mapM_of_faults {f : Record → Except Fault State} {inputs : List Record}
    (h : faults (inputs.map fun input => (f input).map (input, ·)) = []) :
    ∃ steps, (inputs.map fun input => (f input).map (input, ·)).mapM id = .ok steps ∧
      steps.map Prod.fst = inputs ∧ ∀ step ∈ steps, f step.1 = .ok step.2 := by
  induction inputs with
  | nil => exact ⟨[], rfl, rfl, fun _ h => absurd h List.not_mem_nil⟩
  | cons input inputs ih =>
    rw [List.map_cons, faults, List.filterMap_cons] at h
    cases hf : f input with
    | error cause =>
      rw [hf] at h
      cases h
    | ok state =>
      rw [hf] at h
      obtain ⟨steps, hsteps, hinputs, hall⟩ := ih h
      refine ⟨(input, state) :: steps, ?_, ?_, List.forall_mem_cons.2 ⟨hf, hall⟩⟩
      · rw [List.map_cons, List.mapM_cons, hf, id]
        show (Except.ok (input, state) >>= _) = _
        rw [ok_bind, hsteps]
        rfl
      · rw [List.map_cons, hinputs]

theorem gather_spec (v : Verifier) (stepMark : StateMark) (current : Option State) (node : NodeId)
    (inputs : List Record) :
    (∃ causes, v.gather stepMark current node inputs = .error (.failure (.generation node causes))) ∨
    ∃ steps, v.gather stepMark current node inputs = .ok steps ∧ steps.map Prod.fst = inputs ∧
      ∀ step ∈ steps, v.successor stepMark current step.1 = .ok step.2 := by
  rw [gather]
  split
  · rename_i hempty
    obtain ⟨steps, hsteps, hspec⟩ := mapM_of_faults (List.isEmpty_iff.1 hempty)
    refine .inr ⟨steps, ?_, hspec⟩
    rw [hsteps]
    rfl
  · exact .inl ⟨_, rfl⟩

/-- The state of a node; the root has none. -/
def stateAt (v : Verifier) (node : NodeId) : Except Fault (Option State) :=
  if node = root then .ok none else some <$> v.space.state node

/-- How the successors of a node come about. -/
theorem successors_eq_bind (v : Verifier) (fuel : Nat) (node : NodeId) :
    v.successors fuel node = (do
      let inputMark ← (v.inputPrecision.get v.space node).mapError .fault
      let stepMark ← (v.stepPrecision.get v.space node).mapError .fault
      let inputs ← enumerate inputMark fuel (← inputMark.first.mapError .fault)
      let current ← (v.stateAt node).mapError .fault
      v.gather stepMark current node inputs) := by
  have hcurrent : (v.stateAt node).mapError Stop.fault =
      if node = root then pure none else some <$> (v.space.state node).mapError Stop.fault := by
    rw [stateAt]
    split
    · rfl
    · cases v.space.state node <;> rfl
  rw [hcurrent]
  simp only [successors]
  split <;> rfl

theorem get_congr {M : Type} [Refinable M] (q : Precision M)
    (hstate : w.space.states[node]? = v.space.states[node]?) :
    q.get w.space node = q.get v.space node := by
  rw [Precision.get, Precision.get, Space.state, Space.state, hstate]

/-- The successors of a node depend on its state and on its marks only. -/
theorem successors_congr (hsystem : w.system = v.system)
    (hinput : w.inputPrecision.get w.space node = v.inputPrecision.get v.space node)
    (hstep : w.stepPrecision.get w.space node = v.stepPrecision.get v.space node)
    (hstate : w.space.states[node]? = v.space.states[node]?) (fuel : Nat) :
    w.successors fuel node = v.successors fuel node := by
  have hcurrent : w.stateAt node = v.stateAt node := by
    rw [stateAt, stateAt, Space.state, Space.state, hstate]
  have hsuccessor : w.successor = v.successor := by
    funext stepMark current input
    rw [successor_eq, successor_eq, hsystem]
  have hgather : w.gather = v.gather := by
    unfold gather
    rw [hsuccessor]
  simp only [successors_eq_bind, hinput, hstep, hcurrent, hgather]

theorem enumerate_ne_nil {mark : RecordMark} {input : Record} {inputs : List Record}
    (h : enumerate mark fuel input = .ok inputs) : inputs ≠ [] := by
  cases fuel with
  | zero => cases h
  | succ fuel =>
    rw [enumerate] at h
    split at h
    · cases h
    · obtain rfl := Except.ok.inj h
      exact List.cons_ne_nil _ _
    · obtain ⟨rest, -, h⟩ := bind_eq_ok.1 h
      obtain rfl := Except.ok.inj h
      exact List.cons_ne_nil _ _

theorem stop_of_enumerate {mark : RecordMark} {input : Record}
    (h : enumerate mark fuel input = .error stop) :
    ¬ stop.Spatial ∧ ∀ cause, stop ≠ .failure cause := by
  induction fuel generalizing input with
  | zero =>
    obtain rfl := Except.error.inj h
    exact ⟨id, fun _ h => by cases h⟩
  | succ fuel ih =>
    rw [enumerate] at h
    split at h
    · rename_i cause hcause
      obtain rfl := Except.error.inj h
      exact ⟨mark.tame_advance input cause hcause, fun _ h => by cases h⟩
    · cases h
    · rcases bind_eq_error.1 h with h | ⟨_, _, h⟩
      · exact ih h
      · cases h

/-- A node for which successors are computed has some. -/
theorem successors_ne_nil (h : v.successors fuel node = .ok steps) : steps ≠ [] := by
  rw [successors_eq_bind] at h
  simp only [bind_eq_ok] at h
  obtain ⟨inputMark, -, stepMark, -, first, -, inputs, hinputs, current, -, h⟩ := h
  rcases v.gather_spec stepMark current node inputs with ⟨causes, hfailure⟩ | ⟨steps', hsteps, hfst, -⟩
  · rw [hfailure] at h
    cases h
  · obtain rfl := Except.ok.inj (h.symm.trans hsteps)
    rintro rfl
    exact enumerate_ne_nil hinputs hfst.symm

/-- How the successors of a node can fail to be computed: the marks do not fit, the fuel does not
    suffice, or the system fails. -/
theorem stop_of_successors (h : v.successors fuel node = .error stop) :
    ¬ stop.Spatial ∧ ∀ cause, stop = .failure cause → ∃ causes, cause = .generation node causes := by
  have hlift {α : Type} {x : Except Fault α} (hx : Tame x) (h : x.mapError Stop.fault = .error stop) :
      ¬ stop.Spatial ∧ ∀ cause, stop = .failure cause → ∃ causes, cause = .generation node causes := by
    obtain ⟨cause, hcause, rfl⟩ := mapError_eq_error h
    exact ⟨hx cause hcause, fun _ h => by cases h⟩
  rw [successors_eq_bind] at h
  simp only [bind_eq_error] at h
  rcases h with h | ⟨inputMark, -, h | ⟨stepMark, -, h | ⟨first, -, h | ⟨inputs, -, h⟩⟩⟩⟩
  · exact hlift (Precision.tame_get RecordMark.tame_join _ _ _) h
  · exact hlift (Precision.tame_get StateMark.tame_join _ _ _) h
  · exact hlift inputMark.tame_first h
  · exact ⟨(stop_of_enumerate h).1, fun cause hcause => absurd hcause ((stop_of_enumerate h).2 cause)⟩
  · rcases h with h | ⟨current, -, h⟩
    · refine hlift ?_ h
      rw [stateAt]
      split
      · exact tame_ok _
      · exact (v.space.tame_state node).bind fun _ => tame_pure _
    · rcases v.gather_spec stepMark current node inputs with ⟨causes, hfailure⟩ | ⟨steps, hsteps, -⟩
      · rw [hfailure] at h
        obtain rfl := Except.error.inj h
        exact ⟨id, fun cause hcause => ⟨causes, (Stop.failure.inj hcause).symm⟩⟩
      · rw [hsteps] at h
        cases h

/-! ## Expansion of a node -/

/-- Nothing but the space and the counts changed. -/
def SameBut (v w : Verifier) : Prop := w = { v with space := w.space, counters := w.counters }

theorem SameBut.trans {v₁ : Verifier} (h : v.SameBut v₁) (h' : v₁.SameBut w) : v.SameBut w := by
  rw [SameBut] at h h'
  rw [SameBut, h', h]

theorem SameBut.successors (h : v.SameBut w)
    (hstate : w.space.states[node]? = v.space.states[node]?) (fuel : Nat) :
    w.successors fuel node = v.successors fuel node := by
  have hsystem : w.system = v.system := by rw [h]
  have hinput : w.inputPrecision = v.inputPrecision := by rw [h]
  have hstep : w.stepPrecision = v.stepPrecision := by rw [h]
  exact successors_congr hsystem (hinput ▸ get_congr _ hstate) (hstep ▸ get_congr _ hstate) hstate fuel

/-- What the expansion of a node does, given the steps that are computed for it. -/
structure Expands (v : Verifier) (node : NodeId) (steps : List (Record × State)) (e : Expansion)
    (w : Verifier) : Prop where
  frame : v.SameBut w
  valid : w.space.Valid
  run {Good : State → Prop} : (∀ step ∈ steps, Good step.2) →
    ReflTransGen (Space.Mutates Good) v.space w.space
  kept {n : NodeId} {st : State} : v.space.states[n]? = some st → w.space.states[n]? = some st
  new {n : NodeId} {st : State} : w.space.states[n]? = some st →
    v.space.states[n]? = some st ∨ n ∈ e.added ∧ n ∈ w.space.next node ∧ v.space.nextId ≤ n
  nextId_le : v.space.nextId ≤ w.space.nextId
  next_other {n : NodeId} : n ≠ node → w.space.next n = v.space.next n
  changed : w.space.next node ≠ v.space.next node → e.changed = true
  stored : ∀ step ∈ steps, ∃ (m : NodeId) (st : State),
    w.space.states[m]? = some st ∧ st.key = step.2.key
  next_node {m : NodeId} : m ∈ w.space.next node ↔
    ∃ step ∈ steps, ∃ st, w.space.states[m]? = some st ∧ st.key = step.2.key
  explored : w.space.next node ≠ []
  inputs {n m : NodeId} {r : Record} : w.space.input? n m = some r →
    v.space.input? n m = some r ∨ ∃ step ∈ steps, r = step.1

open VerifyM (Ensures exec exec_bind_ok exec_bind_error)

/-- Clearing the edges of a node and adding its steps again expands it. -/
theorem Expands.of_grown {fuel : Nat} {s₁ : Space} {added : List StateId}
    (hclear : v.space.clearStep node = .ok (s₁, v.space.next node))
    (hcleared : Space.Cleared v.space node s₁) (hgrown : Space.Grown s₁ node steps [] w.space added)
    (hsucc : v.successors fuel node = .ok steps) (hframe : v.SameBut w) :
    Expands v node steps ⟨added, v.space.next node != w.space.next node⟩ w := by
  have hnext {m : NodeId} : m ∈ w.space.next node ↔
      ∃ step ∈ steps, ∃ st, w.space.states[m]? = some st ∧ st.key = step.2.key := by
    rw [hgrown.next_node, hcleared.next_node]
    simp
  exact {
    frame := hframe
    valid := hgrown.valid
    run := fun hgood => .head (.clearStep hclear) (hgrown.run hgood)
    kept := fun hst => hgrown.kept (hcleared.states_eq ▸ hst)
    new := fun hst => by
      rw [← hcleared.states_eq, ← hcleared.nextId_eq]
      exact hgrown.new hst
    nextId_le := hcleared.nextId_eq ▸ hgrown.nextId_le
    next_other := fun hn => (hgrown.next_other hn).trans (hcleared.next_other hn)
    changed := fun hne => bne_iff_ne.2 hne.symm
    stored := hgrown.stored
    next_node := hnext
    explored := by
      obtain ⟨step, hstep⟩ := List.exists_mem_of_ne_nil _ (successors_ne_nil hsucc)
      obtain ⟨m, st, hst, hkey⟩ := hgrown.stored step hstep
      exact List.ne_nil_of_mem (hnext.2 ⟨step, hstep, st, hst, hkey⟩)
    inputs := fun hr => (hgrown.inputs hr).imp_left (Space.input?_clearStep hclear) }

/-- The expansion of a node that is stored goes as far as its successors can be computed. -/
theorem expand_cases (hs : v.space.Valid) (hnode : v.HasNode node) (fuel : Nat) :
    (∃ stop w, v.successors fuel node = .error stop ∧ exec (expand fuel node) v = (.error stop, w) ∧
      v.SameBut w) ∨
    ∃ steps e w, v.successors fuel node = .ok steps ∧ exec (expand fuel node) v = (.ok e, w) ∧
      Expands v node steps e w := by
  obtain ⟨s₁, hclear⟩ := Space.clearStep_ok hnode
  obtain ⟨hcleared, -⟩ := Space.cleared_of_clearStep hs hclear
  set v₁ : Verifier := { v with
    space := s₁
    counters.generatedStates := v.counters.generatedStates + 1 } with hv₁
  have hnode₁ : v₁.HasNode node := hnode.imp_right fun hc => by
    rw [Space.contains_iff] at hc ⊢
    exact hcleared.states_eq ▸ hc
  have hstate : v₁.space.states[node]? = v.space.states[node]? := by rw [← hcleared.states_eq]
  have hframe : v.SameBut v₁ := rfl
  have hsame : v₁.successors fuel node = v.successors fuel node := hframe.successors hstate fuel
  have hrun {r : Except Stop (List (Record × State))} (hr : v.successors fuel node = r) :
      exec (liftM (v₁.successors fuel node) : VerifyM _) v₁ = (r, v₁) := by
    rw [hsame, hr]
    exact VerifyM.exec_liftM r v₁
  rw [expand, exec_bind_ok (VerifyM.exec_modify _ v), exec_bind_ok (VerifyM.exec_get _)]
  show (∃ stop w, _ ∧ exec (VerifyM.raise (v.space.clearStep node) >>= _) _ = _ ∧ _) ∨ _
  rw [hclear, exec_bind_ok (VerifyM.exec_raise_ok _ _), exec_bind_ok (VerifyM.exec_modify _ _),
    exec_bind_ok (VerifyM.exec_get _)]
  cases hsucc : v.successors fuel node with
  | error stop => exact .inl ⟨stop, v₁, rfl, exec_bind_error (hrun hsucc), hframe⟩
  | ok steps =>
    obtain ⟨s₂, added, hfold, hgrown⟩ := Space.grown_addSteps hcleared.valid hnode₁ steps []
    rw [exec_bind_ok (hrun hsucc), exec_bind_ok (VerifyM.exec_get _)]
    set v₂ : Verifier := { v₁ with
      space := s₂
      counters.generatedTransitions := v₁.counters.generatedTransitions + steps.length } with hv₂
    have hexpands : Expands v node steps ⟨added, v.space.next node != s₂.next node⟩ v₂ :=
      .of_grown (w := v₂) hclear hcleared hgrown hsucc rfl
    refine .inr ⟨steps, _, v₂, rfl, ?_, hexpands⟩
    show exec (VerifyM.raise (steps.foldlM (Space.addOne node) (s₁, [])) >>= _) v₁ = _
    rw [hfold, exec_bind_ok (VerifyM.exec_raise_ok _ _), exec_bind_ok (VerifyM.exec_modify _ _)]
    rfl

theorem HasNode.of_kept {n : NodeId} (hn : v.HasNode n)
    (hkept : ∀ {m : NodeId} {st : State}, v.space.states[m]? = some st →
      w.space.states[m]? = some st) : w.HasNode n :=
  hn.imp_right fun hc => by
    obtain ⟨st, hst⟩ := Space.contains_iff.1 hc
    exact Space.contains_iff.2 ⟨st, hkept hst⟩

/-! ## Generation from a node on -/

/-- What expanding nodes one after the other has done so far, with the nodes still to expand. -/
structure Spread (v w : Verifier) (queue : List NodeId) (added : List StateId)
    (changed : List NodeId) : Prop where
  frame : v.SameBut w
  valid : w.space.Valid
  kept {n : NodeId} {st : State} : v.space.states[n]? = some st → w.space.states[n]? = some st
  new {n : NodeId} {st : State} : w.space.states[n]? = some st →
    v.space.states[n]? = some st ∨ n ∈ added ∧ v.space.nextId ≤ n
  nextId_le : v.space.nextId ≤ w.space.nextId
  changed {n : NodeId} : w.space.next n ≠ v.space.next n → n ∈ changed
  explored {n : NodeId} : v.space.next n ≠ [] → w.space.next n ≠ []
  queued {n : NodeId} : n ∈ queue → w.HasNode n
  frontier {n : NodeId} : w.HasNode n → w.space.next n = [] →
    v.HasNode n ∧ v.space.next n = [] ∨ n ∈ queue

theorem spread_start (hs : v.space.Valid) (hnode : v.HasNode node) : Spread v v [node] [] [] where
  frame := rfl
  valid := hs
  kept h := h
  new := .inl
  nextId_le := le_rfl
  changed h := absurd rfl h
  explored h := h
  queued h := List.mem_singleton.1 h ▸ hnode
  frontier hn hnext := .inl ⟨hn, hnext⟩

/-- A node of the queue that has successors need not be expanded. -/
theorem Spread.skip {v₁ : Verifier} {queue : List NodeId} {added : List StateId}
    {changed : List NodeId} (h : Spread v₁ v (node :: queue) added changed)
    (hexplored : v.space.next node ≠ []) : Spread v₁ v queue added changed :=
  { h with
    queued hn := h.queued (List.mem_cons_of_mem _ hn)
    frontier := fun {n} hn hnext => (h.frontier hn hnext).imp_right fun hmem => by
      rcases List.mem_cons.1 hmem with rfl | hmem
      · exact absurd hnext hexplored
      · exact hmem }

/-- Expanding a node of the queue. -/
theorem Spread.expand {v₁ : Verifier} {queue : List NodeId} {added : List StateId}
    {changed : List NodeId} {e : Expansion} (h : Spread v₁ v (node :: queue) added changed)
    (he : Expands v node steps e w) :
    Spread v₁ w (queue ++ (w.space.next node).filter fun id => !w.space.isExplored id)
      (added ++ e.added) (if e.changed then changed ++ [node] else changed) := by
  refine ⟨h.frame.trans he.frame, he.valid, fun hst => he.kept (h.kept hst), fun hst => ?_,
    h.nextId_le.trans he.nextId_le, fun {n} hne => ?_, fun {n} hne => ?_, fun {n} hn => ?_,
    fun {n} hn hnext => ?_⟩
  · rcases he.new hst with hst | ⟨hmem, -, hle⟩
    · exact (h.new hst).imp_right (And.imp_left (List.mem_append_left _))
    · exact .inr ⟨List.mem_append_right _ hmem, h.nextId_le.trans hle⟩
  · by_cases hold : v.space.next n = v₁.space.next n
    · obtain rfl : n = node := by
        by_contra hn
        exact hne ((he.next_other hn).trans hold)
      rw [if_pos (he.changed fun heq => hne (heq.trans hold))]
      exact List.mem_append_right _ (List.mem_singleton_self _)
    · split
      · exact List.mem_append_left _ (h.changed hold)
      · exact h.changed hold
  · by_cases hn : n = node
    · exact hn ▸ he.explored
    · exact he.next_other hn ▸ h.explored hne
  · rcases List.mem_append.1 hn with hn | hn
    · exact (h.queued (List.mem_cons_of_mem _ hn)).of_kept he.kept
    · exact .inr (he.valid.target (List.mem_filter.1 hn).1)
  · have hne : n ≠ node := by
      rintro rfl
      exact he.explored hnext
    -- a node without successors was there before, or the expansion has just led to it
    have hold : v.HasNode n ∨ n ∈ w.space.next node := by
      rcases hn with rfl | hc
      · exact .inl (.inl rfl)
      · obtain ⟨st, hst⟩ := Space.contains_iff.1 hc
        exact (he.new hst).imp (fun hst => .inr (Space.contains_iff.2 ⟨st, hst⟩)) fun h => h.2.1
    rcases hold with hold | hmem
    · refine (h.frontier hold ((he.next_other hne).symm.trans hnext)).imp_right fun hmem => ?_
      exact List.mem_append_left _ ((List.mem_cons.1 hmem).resolve_left hne)
    · refine .inr (List.mem_append_right _ (List.mem_filter.2 ⟨hmem, ?_⟩))
      rw [Space.isExplored, hnext]
      rfl

/-- What keeps a condition while nodes are expanded with some fuel. -/
def Invariant (fuel : Nat) (I : Verifier → Prop) : Prop :=
  ∀ {v w : Verifier} {node : NodeId} {steps : List (Record × State)} {e : Expansion}, I v →
    v.space.Valid → v.HasNode node → v.space.next node = [] → v.successors fuel node = .ok steps →
    Expands v node steps e w → I w

/-- How a generation ends early: the fuel does not suffice, or the successors of some node cannot be
    computed. -/
def Halted (I : Verifier → Prop) (v₁ : Verifier) (fuel : Nat) (stop : Stop) (w : Verifier) : Prop :=
  v₁.SameBut w ∧ (stop = .exhausted ∨ ∃ (v : Verifier) (n : NodeId), I v ∧ v₁.SameBut v ∧
    v.space.Valid ∧ v.HasNode n ∧ v.successors fuel n = .error stop)

/-- Exploring goes on until the queue is empty. -/
theorem Spread.explore {I : Verifier → Prop} {v₁ : Verifier} {inner : Nat} (hI : Invariant inner I)
    (fuel : Nat) {queue : List NodeId} {added : List StateId} {changed : List NodeId}
    (h : Spread v₁ v queue added changed) (hv : I v) :
    Ensures (explore inner fuel queue added changed) v
      (fun r w => Spread v₁ w [] r.1 r.2 ∧ I w) (Halted I v₁ inner) := by
  induction fuel generalizing v queue added changed with
  | zero =>
    cases queue with
    | nil => exact .of_pure ⟨h, hv⟩
    | cons node queue => exact .of_throw ⟨h.frame, .inl rfl⟩
  | succ fuel ih =>
    cases queue with
    | nil => exact .of_pure ⟨h, hv⟩
    | cons node queue =>
      rw [Verifier.explore]
      refine .bind_get ?_
      -- a node may be queued twice and expanded meanwhile
      by_cases hexplored : v.space.isExplored node = true
      · rw [if_pos hexplored]
        exact ih (h.skip (Space.isExplored_iff.1 hexplored)) hv
      · rw [if_neg hexplored]
        have hnode := h.queued List.mem_cons_self
        have hnext : v.space.next node = [] := by
          by_contra hne
          exact hexplored (Space.isExplored_iff.2 hne)
        rcases expand_cases h.valid hnode inner with
          ⟨stop, w, hsucc, hw, hframe⟩ | ⟨steps, e, w, hsucc, hw, he⟩
        · refine .bind (P := fun _ _ => False) (.of_error hw ?_) False.elim
          exact ⟨h.frame.trans hframe, .inr ⟨v, node, hv, h.frame, h.valid, hnode, hsucc⟩⟩
        · refine .bind (P := fun e' w' => e' = e ∧ w' = w) (.of_ok hw ⟨rfl, rfl⟩) ?_
          rintro _ _ ⟨rfl, rfl⟩
          exact .bind_get (ih (h.expand he) (hI hv h.valid hnode hnext hsucc he))

/-- A verifier that has declared the changes of a generation. -/
def declare (v : Verifier) (added : List StateId) (changed : List NodeId) : Verifier :=
  { v with checker := v.checker.declareRegeneration added changed }

/-- What a generation from a node on has done before it declares its changes. -/
structure Renewed (I : Verifier → Prop) (v : Verifier) (node : NodeId) (w : Verifier)
    (added : List StateId) (changed : List NodeId) : Prop extends Spread v w [] added changed where
  node_explored : w.space.next node ≠ []
  invariant : I w

/-- Generating from a stored node on. The condition need not hold before the node itself is
    expanded. -/
theorem ensures_regenerate {I : Verifier → Prop} (hI : Invariant fuel I) (hs : v.space.Valid)
    (hnode : v.HasNode node)
    (hfirst : ∀ {steps e w}, v.successors fuel node = .ok steps → Expands v node steps e w → I w) :
    Ensures (regenerate fuel node) v
      (fun b w => ∃ u added changed, Renewed I v node u added changed ∧ w = u.declare added changed ∧
        b = !changed.isEmpty ∧ u.space.assertLeftTotal = .ok ())
      (fun stop w => v.SameBut w ∧ v.successors fuel node = .error stop ∨ Halted I v fuel stop w ∨
        ∃ u added changed cause, Renewed I v node u added changed ∧ w = u.declare added changed ∧
          u.space.assertLeftTotal = .error cause ∧ stop = .fault cause) := by
  rw [Verifier.regenerate]
  rcases expand_cases hs hnode fuel with ⟨stop, w, hsucc, hw, hframe⟩ | ⟨steps, e, w, hsucc, hw, he⟩
  · exact .bind (P := fun _ _ => False) (.of_error hw (.inl ⟨hframe, hsucc⟩)) False.elim
  · refine .bind (P := fun e' w' => e' = e ∧ w' = w) (.of_ok hw ⟨rfl, rfl⟩) ?_
    rintro _ _ ⟨rfl, rfl⟩
    -- the node stays explored, so the rest of the generation is a run of its own
    have hstart := (spread_start hs hnode).expand he
    have hI' : Invariant fuel fun u => I u ∧ u.space.next node ≠ [] := by
      intro v w n steps e ⟨hv, hne⟩ hvalid hn hnext hsucc he
      refine ⟨hI hv hvalid hn hnext hsucc he, ?_⟩
      have hother : node ≠ n := by
        rintro rfl
        exact hne hnext
      exact he.next_other hother ▸ hne
    refine .bind_get (.bind ((hstart.explore hI' fuel ⟨hfirst hsucc he, he.explored⟩).imp
      (fun h => h) fun {stop w} hstop => .inr (.inl ?_)) fun {r u} hu => ?_)
    · refine ⟨hstop.1, hstop.2.imp_right ?_⟩
      rintro ⟨v', n, ⟨hv', -⟩, hrest⟩
      exact ⟨v', n, hv', hrest⟩
    · obtain ⟨added, changed⟩ := r
      obtain ⟨hspread, hu, hexplored⟩ := hu
      have hrenewed : Renewed I v node u added changed := ⟨hspread, hexplored, hu⟩
      refine .bind_modify (.bind_get (.bind_raise (fun hassert => .of_pure ?_) fun hassert => ?_))
      · exact ⟨u, added, changed, hrenewed, rfl, rfl, hassert⟩
      · exact .inr (.inr ⟨u, added, changed, _, hrenewed, rfl, hassert, rfl⟩)

/-- Nothing can be generated from a state that is not stored. -/
theorem exec_regenerate_of_not_hasNode (hnode : ¬ v.HasNode node) (fuel : Nat) :
    ∃ w, exec (regenerate fuel node) v = (.error (.fault (.notStored node)), w) ∧ v.SameBut w ∧
      w.space = v.space := by
  have hclear : v.space.clearStep node = .error (.notStored node) := by
    rw [Space.clearStep, Space.checkNode, if_neg]
    · rfl
    · simpa [HasNode] using hnode
  have hexpand : exec (expand fuel node) v = (.error (.fault (.notStored node)), { v with
      counters.generatedStates := v.counters.generatedStates + 1 }) := by
    rw [expand, exec_bind_ok (VerifyM.exec_modify _ v), exec_bind_ok (VerifyM.exec_get _)]
    show exec (VerifyM.raise (v.space.clearStep node) >>= _) _ = _
    rw [hclear]
    rfl
  exact ⟨_, exec_bind_error hexpand, rfl, rfl⟩

end Verifier

end RefineCheck
