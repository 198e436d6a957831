/-
  RefineCheck.Proofs.Verifier.Generation

  Generation of the space of a system that keeps a contract. Every node with successors has those
  for all inputs that its input precision tells apart, and what the contract says of the successors
  of one node holds of all.
-/

import Mathlib
import RefineCheck.Proofs.Mark.Enumeration
import RefineCheck.Proofs.Precision
import RefineCheck.Proofs.Verifier.Expansion

namespace RefineCheck

open Relation (ReflTransGen)

/-! ## Contracts -/

/-- The states after a state for some inputs, up to the choice of a state for each key. -/
structure TransitionSystem.Reaches (system : TransitionSystem) (stepMark : StateMark)
    (current : Option State) (inputs : List Record) (targets : Set State) : Prop where
  forth : ∀ input ∈ inputs, ∃ st ∈ targets, ∃ state,
    system.advance stepMark current input = .ok state ∧ st.key = state.key
  back : ∀ st ∈ targets, ∃ input ∈ inputs, ∃ state,
    system.advance stepMark current input = .ok state ∧ st.key = state.key

/-- What a generation keeps: a property of all states, and one of the states after a state. -/
structure Contract (system : TransitionSystem) where
  Good : State → Prop
  Follows : Option State → Set State → Prop
  fits {st : State} : Good st → st.Fits system.stateTemplate.shape
  nonempty {st : State} : Good st → st.Nonempty
  good {stepMark : StateMark} {current : Option State} {input : Record} {state : State} :
    stepMark.Fits system.stateTemplate.shape → (∀ {st}, current = some st → Good st) →
    (∃ c : Concrete.Record, c.shape = system.inputTemplate.shape ∧ input.Has c) →
    system.advance stepMark current input = .ok state → Good state
  follows {stepMark : StateMark} {current : Option State} {inputs : List Record}
    {targets : Set State} : stepMark.Fits system.stateTemplate.shape →
    (∀ {st}, current = some st → Good st) →
    RecordMark.Enumerates system.inputTemplate.shape inputs → (∀ st ∈ targets, Good st) →
    system.Reaches stepMark current inputs targets → Follows current targets

/-! ## Generated spaces -/

namespace Verifier

variable {v w : Verifier} {node : NodeId} {fuel : Nat} {stepMark : StateMark}
  {current : Option State} {system : TransitionSystem} {K : Contract system}

/-- A verifier that can start again: its precisions have the shapes of its system, and it has
    labellings of properties that were read from a text. -/
structure Usable (system : TransitionSystem) (v : Verifier) : Prop where
  system_eq : v.system = system
  input : v.inputPrecision.Shaped (RecordMark.marks system.inputTemplate.shape)
    system.stateTemplate.shape
  step : v.stepPrecision.Shaped (StateMark.marks system.stateTemplate.shape)
    system.stateTemplate.shape
  represents {key : String} {l : Labelling} : v.checker.labellings[key]? = some l →
    ∃ (p : Property) (T : Formula.Tables), p.Parsed ∧ p.key = key ∧ l.Represents p T

/-- A verifier with a space in which every node that has successors has the right ones. -/
structure Generated (K : Contract system) (v : Verifier) : Prop extends Usable system v where
  built : v.space.Built K.Good
  follows {n : NodeId} : v.space.next n ≠ [] → K.Follows v.space.states[n]? (v.space.targets n)

theorem Usable.sameBut (hv : v.Usable system) (h : v.SameBut w) : w.Usable system := by
  rw [SameBut] at h
  rw [h]
  exact ⟨hv.system_eq, hv.input, hv.step, hv.represents⟩

/-- The precisions of a node have the right shapes. -/
theorem Generated.get_ok {M : Type} [Refinable M] {L : Marks M} {p : Precision M} (hv : v.Generated K)
    (hp : p.Shaped L system.stateTemplate.shape) (hnode : v.HasNode node) :
    ∃ m, p.get v.space node = .ok m ∧ L.Fits m := by
  by_cases hroot : node = root
  · subst hroot
    exact ⟨_, p.get_root v.space, hp.own_fits root⟩
  · obtain ⟨st, hst⟩ := Space.contains_iff.1 (hnode.resolve_left hroot)
    obtain ⟨m, hm, hfits, -⟩ := Precision.get_ok hp hroot hst (K.fits (hv.built.good hst))
    exact ⟨m, hm, hfits⟩

theorem Generated.stateAt_eq (hv : v.Generated K) (hnode : v.HasNode node) :
    v.stateAt node = .ok v.space.states[node]? := by
  rw [stateAt]
  by_cases hroot : node = root
  · rw [if_pos hroot, hroot, hv.built.valid.states_root]
  · obtain ⟨st, hst⟩ := Space.contains_iff.1 (hnode.resolve_left hroot)
    rw [if_neg hroot, Space.state, hst]
    rfl

/-- The successors of a node are those for an enumeration of the inputs, unless the fuel does not
    suffice or the system fails. -/
theorem Generated.successors_spec (hv : v.Generated K) (hnode : v.HasNode node) (fuel : Nat) :
    (v.successors fuel node = .error .exhausted ∧
      ∃ m : RecordMark, m.Fits system.inputTemplate.shape ∧ fuel < m.size) ∨
    (∃ causes, v.successors fuel node = .error (.failure (.generation node causes))) ∨
    ∃ stepMark steps, stepMark.Fits system.stateTemplate.shape ∧
      v.successors fuel node = .ok steps ∧
      RecordMark.Enumerates system.inputTemplate.shape (steps.map Prod.fst) ∧
      ∀ step ∈ steps, system.advance stepMark v.space.states[node]? step.1 = .ok step.2 := by
  obtain ⟨inputMark, hin, hinfits⟩ := hv.get_ok hv.input hnode
  obtain ⟨stepMark, hstep, hstepfits⟩ := hv.get_ok hv.step hnode
  obtain ⟨first, hfirst, henumerate⟩ := RecordMark.enumerate_first hinfits fuel
  rw [successors_eq_bind]
  simp only [hin, hstep, hfirst, hv.stateAt_eq hnode, Except.mapError, ok_bind]
  rcases henumerate with ⟨hlt, hexhausted⟩ | ⟨inputs, hinputs, hall⟩
  · rw [hexhausted]
    exact .inl ⟨rfl, inputMark, hinfits, hlt⟩
  · rw [hinputs, ok_bind]
    rcases v.gather_spec stepMark v.space.states[node]? node inputs with
      hfailure | ⟨steps, hsteps, rfl, hadvance⟩
    · exact .inr (.inl hfailure)
    · refine .inr (.inr ⟨stepMark, steps, hstepfits, hsteps, hall, fun step hmem => ?_⟩)
      rw [← hv.system_eq]
      exact hadvance step hmem

theorem Generated.advance_of_successors (hv : v.Generated K) (hnode : v.HasNode node)
    {steps : List (Record × State)} (h : v.successors fuel node = .ok steps) :
    ∃ stepMark : StateMark, stepMark.Fits system.stateTemplate.shape ∧
      RecordMark.Enumerates system.inputTemplate.shape (steps.map Prod.fst) ∧
      ∀ step ∈ steps, system.advance stepMark v.space.states[node]? step.1 = .ok step.2 := by
  rcases hv.successors_spec hnode fuel with ⟨herror, -⟩ | ⟨causes, herror⟩ |
    ⟨stepMark, steps', hfits, hsteps, hall⟩
  · rw [h] at herror
    cases herror
  · rw [h] at herror
    cases herror
  · obtain rfl := Except.ok.inj (h.symm.trans hsteps)
    exact ⟨stepMark, hfits, hall⟩

/-! ## Expansion -/

/-- The states after a node stay right as long as its edges stay. -/
theorem follows_of_kept {s s' : Space} {n : NodeId} (hs : s.Valid) (hs' : s'.Valid)
    (hkept : ∀ {m : NodeId} {st : State}, s.states[m]? = some st → s'.states[m]? = some st)
    (hnext : s'.next n = s.next n) (hne : s.next n ≠ [])
    (h : K.Follows s.states[n]? (s.targets n)) : K.Follows s'.states[n]? (s'.targets n) := by
  obtain ⟨m, hm⟩ := List.exists_mem_of_ne_nil _ hne
  rw [Space.states_of_kept hs hs' hkept (hs.source hm), Space.targets_of_kept hs hkept hnext]
  exact h

/-- The states after a node that was expanded are those of its steps. -/
theorem Expands.reaches {steps : List (Record × State)} {e : Expansion}
    (h : Expands v node steps e w)
    (hadvance : ∀ step ∈ steps, system.advance stepMark current step.1 = .ok step.2) :
    system.Reaches stepMark current (steps.map Prod.fst) (w.space.targets node) := by
  constructor
  · intro input hin
    obtain ⟨step, hstep, rfl⟩ := List.mem_map.1 hin
    obtain ⟨m, st, hst, hkey⟩ := h.stored step hstep
    exact ⟨st, ⟨m, h.next_node.2 ⟨step, hstep, st, hst, hkey⟩, hst⟩, step.2, hadvance step hstep, hkey⟩
  · rintro st ⟨m, hm, hst⟩
    obtain ⟨step, hstep, st', hst', hkey⟩ := h.next_node.1 hm
    obtain rfl := Option.some.inj (hst.symm.trans hst')
    exact ⟨step.1, List.mem_map_of_mem hstep, step.2, hadvance step hstep, hkey⟩

/-- A generated verifier with a space that changed from another one by states of the right kind. -/
structure GrownFrom (K : Contract system) (s : Space) (v : Verifier) : Prop
    extends Generated K v where
  run : ReflTransGen (Space.Mutates K.Good) s v.space

/-- Expanding a node gives it the right successors and leaves those of all others. -/
theorem Generated.expands (hv : v.Generated K) (hnode : v.HasNode node)
    {steps : List (Record × State)} {e : Expansion} (hsucc : v.successors fuel node = .ok steps)
    (h : Expands v node steps e w) : w.GrownFrom K v.space := by
  obtain ⟨stepMark, hfits, henumerates, hadvance⟩ := hv.advance_of_successors hnode hsucc
  have hcurrent {st : State} (h : v.space.states[node]? = some st) : K.Good st := hv.built.good h
  have hgood (step : Record × State) (hmem : step ∈ steps) : K.Good step.2 :=
    K.good hfits hcurrent (henumerates.member step.1 (List.mem_map_of_mem hmem)) (hadvance step hmem)
  have hbuilt := hv.built.run (h.run hgood)
  refine ⟨⟨hv.toUsable.sameBut h.frame, hbuilt, fun {n} hne => ?_⟩, h.run hgood⟩
  by_cases hn : n = node
  · subst hn
    rw [Space.states_of_kept hv.built.valid h.valid h.kept hnode]
    refine K.follows hfits hcurrent henumerates ?_ (h.reaches hadvance)
    rintro st ⟨m, -, hst⟩
    exact hbuilt.good hst
  · have hnext := h.next_other hn
    exact follows_of_kept hv.built.valid h.valid h.kept hnext (hnext ▸ hne) (hv.follows (hnext ▸ hne))

theorem GrownFrom.expands {s : Space} (hv : v.GrownFrom K s) (hnode : v.HasNode node)
    {steps : List (Record × State)} {e : Expansion} (hsucc : v.successors fuel node = .ok steps)
    (h : Expands v node steps e w) : w.GrownFrom K s :=
  let hw := hv.toGenerated.expands hnode hsucc h
  ⟨hw.toGenerated, hv.run.trans hw.run⟩

/-! ## Generation from a node on -/

open VerifyM (Ensures)

/-- Generating from a stored node on declares all that changed, unless the fuel does not suffice or
    the system fails. -/
theorem Generated.regenerate (hv : v.Generated K) (hnode : v.HasNode node) (fuel : Nat) :
    Ensures (regenerate fuel node) v
      (fun b w => ∃ u added changed, Renewed (GrownFrom K v.space) v node u added changed ∧
        w = u.declare added changed ∧ b = !changed.isEmpty)
      (fun stop w => stop = .exhausted ∨
        (∃ n causes, stop = .failure (.generation n causes) ∧ v.SameBut w) ∨
        ∃ u added changed cause, Renewed (GrownFrom K v.space) v node u added changed ∧
          w = u.declare added changed ∧ u.space.assertLeftTotal = .error cause ∧
          stop = .fault cause) := by
  -- the successors fail only for want of fuel or because the system does
  have hfailed {u w : Verifier} {n : NodeId} {stop : Stop} (hu : u.Generated K) (hn : u.HasNode n)
      (hstop : u.successors fuel n = .error stop) (hframe : v.SameBut w) : stop = .exhausted ∨
        ∃ n causes, stop = .failure (.generation n causes) ∧ v.SameBut w := by
    rcases hu.successors_spec hn fuel with ⟨herror, -⟩ | ⟨causes, herror⟩ | ⟨_, steps, -, hok, -⟩
    · exact .inl (Except.error.inj (hstop.symm.trans herror))
    · exact .inr ⟨n, causes, Except.error.inj (hstop.symm.trans herror), hframe⟩
    · rw [hstop] at hok
      cases hok
  refine (ensures_regenerate (I := GrownFrom K v.space) ?_ hv.built.valid hnode
    fun hsucc he => hv.expands hnode hsucc he).imp ?_ ?_
  · intro v w n steps e hu _ hn _ hsucc he
    exact hu.expands hn hsucc he
  · rintro b w ⟨u, added, changed, hu, rfl, rfl, -⟩
    exact ⟨u, added, changed, hu, rfl, rfl⟩
  · rintro stop w (⟨hframe, hstop⟩ | ⟨hframe, rfl | ⟨u, n, hu, -, -, hn, hstop⟩⟩ | hassert)
    · exact (hfailed hv hnode hstop hframe).imp_right .inl
    · exact .inl rfl
    · exact (hfailed hu.toGenerated hn hstop hframe).imp_right .inl
    · exact .inr (.inr hassert)

end Verifier

end RefineCheck
