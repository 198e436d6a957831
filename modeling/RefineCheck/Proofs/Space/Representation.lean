/-
  RefineCheck.Proofs.Space.Representation

  Spaces after any sequence of operations. The maps of a space stay in step with each other, and a
  number is given out for one state only: a state that is stored again after its removal gets a new
  one.
-/

import RefineCheck.Proofs.Space.Graph

namespace RefineCheck.Space

/-! ## Sequences of operations -/

/-- An operation on a space. An initial state is a step from the root. -/
inductive Operation
  | addStep (source : NodeId) (state : State) (input : Record)
  | clearStep (n : NodeId)
  | sweep
  | collect

/-- A space and the numbers it gave out, each with the state it was asked for, the last one
    first. -/
structure Account where
  space : Space
  issued : List (StateId × State)

namespace Account

/-- Performs an operation and records the number it issued. -/
def perform (a : Account) : Operation → Except Fault Account
  | .addStep source state input => do
    let (space, id, _) ← a.space.addStep source state input
    return ⟨space, (id, state) :: a.issued⟩
  | .clearStep n => do
    let (space, _) ← a.space.clearStep n
    return { a with space }
  | .sweep => return { a with space := a.space.sweep.1 }
  | .collect => return { a with space := a.space.collect.1 }

/-- Operations on the space without states, one after the other. -/
def run (operations : List Operation) : Except Fault Account :=
  operations.foldlM perform ⟨.empty, []⟩

/-! ## Numbers -/

/-- The invariant of a space and its numbers: stored states have the numbers that were given out for
    them, and all numbers were given out for one key. -/
structure Sound (a : Account) : Prop where
  valid : a.space.Valid
  stored_issued {n : StateId} {st : State} : a.space.states[n]? = some st → (n, st) ∈ a.issued
  issued_lt {id : StateId} {state : State} :
    (id, state) ∈ a.issued → id ≠ root ∧ id < a.space.nextId
  issued_once {id : StateId} {state state' : State} :
    (id, state) ∈ a.issued → (id, state') ∈ a.issued → state'.key = state.key

theorem sound_empty : (⟨.empty, []⟩ : Account).Sound where
  valid := valid_empty
  stored_issued h := by simp [Space.empty] at h
  issued_lt h := absurd h List.not_mem_nil
  issued_once h := absurd h List.not_mem_nil

variable {a a' : Account} {source : NodeId} {state : State} {input : Record} {s' : Space}
  {id : StateId} {inserted : Bool}

/-- A new state gets a number that was not given out before; any other number is that of a state of
    the key that is stored. -/
theorem Sound.fresh_or_stored (h : a.Sound)
    (hadd : a.space.addStep source state input = .ok (s', id, inserted)) :
    (inserted = true ∧ ∀ state', (id, state') ∉ a.issued) ∨
      ∃ st, a.space.states[id]? = some st ∧ st.key = state.key := by
  have hadded := added_of_addStep h.valid hadd
  obtain ⟨st, hst, hkey⟩ := hadded.state_id
  rcases hadded.new hst with hold | ⟨-, -, hnew⟩
  · exact .inr ⟨st, hold, hkey⟩
  · refine .inl ⟨hnew, fun state' hissued => ?_⟩
    exact absurd (hadded.fresh hnew) (not_le.2 (h.issued_lt hissued).2)

theorem Sound.addStep (h : a.Sound)
    (hadd : a.space.addStep source state input = .ok (s', id, inserted)) :
    (⟨s', (id, state) :: a.issued⟩ : Account).Sound := by
  have hadded := added_of_addStep h.valid hadd
  -- whatever was given out under this number before has the same key
  have hkey {state' : State} (hissued : (id, state') ∈ a.issued) : state'.key = state.key := by
    rcases h.fresh_or_stored hadd with ⟨-, hfresh⟩ | ⟨st, hst, hkey⟩
    · exact absurd hissued (hfresh state')
    · rw [← hkey]
      exact h.issued_once (h.stored_issued hst) hissued
  refine ⟨hadded.valid, fun {n st} hst => ?_, fun hissued => ?_, fun hissued hissued' => ?_⟩
  · -- a stored state is an old one or the one that was added
    rcases hadded.new hst with hold | ⟨rfl, rfl, -⟩
    · exact List.mem_cons_of_mem _ (h.stored_issued hold)
    · exact List.mem_cons_self
  · rcases List.mem_cons.1 hissued with heq | hissued
    · obtain ⟨rfl, -⟩ := Prod.mk.inj heq
      obtain ⟨st, hst, -⟩ := hadded.state_id
      exact hadded.valid.stored hst
    · obtain ⟨hroot, hlt⟩ := h.issued_lt hissued
      exact ⟨hroot, lt_of_lt_of_le hlt hadded.nextId_le⟩
  · -- the new entry agrees with all old ones of its number
    rcases List.mem_cons.1 hissued with heq | hold
    · obtain ⟨rfl, rfl⟩ := Prod.mk.inj heq
      rcases List.mem_cons.1 hissued' with heq' | hold'
      · rw [(Prod.mk.inj heq').2]
      · exact hkey hold'
    · rcases List.mem_cons.1 hissued' with heq' | hold'
      · obtain ⟨rfl, rfl⟩ := Prod.mk.inj heq'
        exact (hkey hold).symm
      · exact h.issued_once hold hold'

/-- An operation that stores no state and gives out no number. -/
theorem Sound.shrink (h : a.Sound) (hvalid : s'.Valid) (hnext : s'.nextId = a.space.nextId)
    (hstates : ∀ {n : StateId} {st : State}, s'.states[n]? = some st → a.space.states[n]? = some st) :
    ({ a with space := s' } : Account).Sound where
  valid := hvalid
  stored_issued hst := h.stored_issued (hstates hst)
  issued_lt hissued := hnext ▸ h.issued_lt hissued
  issued_once := h.issued_once

theorem Sound.swept {removed : List StateId} (h : a.Sound) (hs : Swept a.space s' removed) :
    ({ a with space := s' } : Account).Sound :=
  h.shrink hs.valid hs.nextId_eq hs.states_subset

/-- Every operation keeps the invariant. -/
theorem Sound.perform (h : a.Sound) {operation : Operation} (hop : a.perform operation = .ok a') :
    a'.Sound := by
  cases operation with
  | addStep source state input =>
    simp only [Account.perform, bind_eq_ok, pure_eq_ok] at hop
    obtain ⟨⟨s', id, inserted⟩, hadd, rfl⟩ := hop
    exact h.addStep hadd
  | clearStep n =>
    simp only [Account.perform, bind_eq_ok, pure_eq_ok] at hop
    obtain ⟨⟨s', removed⟩, hclear, rfl⟩ := hop
    have hcleared := (cleared_of_clearStep h.valid hclear).1
    -- the targets of the edges that are removed stay stored
    exact h.shrink hcleared.valid hcleared.nextId_eq fun hst => hcleared.states_eq ▸ hst
  | sweep =>
    obtain rfl := Except.ok.inj hop
    exact h.swept (swept_sweep h.valid)
  | collect =>
    obtain rfl := Except.ok.inj hop
    exact h.swept (swept_collect h.valid)

theorem Sound.foldlM (h : a.Sound) {operations : List Operation}
    (hrun : operations.foldlM Account.perform a = .ok a') : a'.Sound := by
  induction operations generalizing a with
  | nil =>
    obtain rfl := Except.ok.inj hrun
    exact h
  | cons operation operations ih =>
    rw [List.foldlM_cons, bind_eq_ok] at hrun
    obtain ⟨a₁, hop, hrun⟩ := hrun
    exact ih (h.perform hop) hrun

/-! ## The representation -/

/-- What holds of a space after any operations. Edges lead between the root and stored states and are
    kept in both directions, and states are stored under their keys, each key once. The numbers
    given out are below the next one and were given out for one key each; a number that is given out
    again is that of a stored state. Clearing a node removes the edges that leave it and nothing
    else. A sweep removes the states that the root does not lead to, and keeps all others with their
    edges and inputs. -/
theorem representation {operations : List Operation} (h : run operations = .ok a) :
    a.space.Valid ∧
      (∀ {n m : StateId} {st st' : State}, a.space.states[n]? = some st →
        a.space.states[m]? = some st' → st.key = st'.key → n = m) ∧
      (∀ {id : StateId} {state : State}, (id, state) ∈ a.issued → id < a.space.nextId ∧
        ∀ state', (id, state') ∈ a.issued → state'.key = state.key) ∧
      (∀ {source : NodeId} {state : State} {input : Record} {s' : Space} {id : StateId}
        {inserted : Bool}, a.space.addStep source state input = .ok (s', id, inserted) →
        (inserted = true ∧ ∀ state', (id, state') ∉ a.issued) ∨
          ∃ st, a.space.states[id]? = some st ∧ st.key = state.key) ∧
      (∀ {n : NodeId} {s' : Space} {removed : List StateId},
        a.space.clearStep n = .ok (s', removed) → Cleared a.space n s') ∧
      Swept a.space a.space.sweep.1 a.space.sweep.2 ∧
      ∀ n, n ∈ a.space.sweep.2 ↔ a.space.contains n = true ∧ ¬ a.space.Leads root n := by
  have hsound := sound_empty.foldlM h
  refine ⟨hsound.valid, hsound.valid.eq_of_key, fun hissued => ?_, hsound.fresh_or_stored,
    fun hclear => (cleared_of_clearStep hsound.valid hclear).1, swept_sweep hsound.valid, fun n => ?_⟩
  · exact ⟨(hsound.issued_lt hissued).2, fun _ hissued' => hsound.issued_once hissued hissued'⟩
  · rw [mem_sweep, Space.mem_reachable]

/-- Two states that lead to each other are removed together once nothing leads to them, and one of
    them gets a new number when it comes back. -/
def comeback : List Operation :=
  [.addStep root (.quiet .empty) .empty, .addStep 1 ⟨.ofNat panicWidth 1, .empty⟩ .empty,
    .addStep 2 (.quiet .empty) .empty, .addStep 2 ⟨.ofNat panicWidth 1, .empty⟩ .empty,
    .clearStep root, .sweep, .addStep root (.quiet .empty) .empty]

theorem representation_comeback :
    ∃ a, run comeback = .ok a ∧ a.issued.map Prod.fst = [3, 2, 1, 2, 1] ∧ a.space.Valid ∧
      Swept a.space a.space.sweep.1 a.space.sweep.2 := by
  -- the third number is for the state that had the first
  have hids : (run comeback).map (fun a => a.issued.map Prod.fst) = .ok [3, 2, 1, 2, 1] := by
    decide +kernel
  cases hrun : run comeback with
  | error e =>
    rw [hrun] at hids
    cases hids
  | ok a =>
    rw [hrun] at hids
    obtain ⟨hvalid, -, -, -, -, hswept, -⟩ := representation hrun
    exact ⟨a, rfl, Except.ok.inj hids, hvalid, hswept⟩

end Account

end RefineCheck.Space
