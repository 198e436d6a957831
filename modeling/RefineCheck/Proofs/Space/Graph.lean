/-
  RefineCheck.Proofs.Space.Graph

  The invariant of spaces: edges lead between stored states and are kept in both directions,
  and the states are stored under their keys. Every operation on spaces keeps it, and does
  to the nodes and edges what its name says.
-/

import RefineCheck.Proofs.Result
import RefineCheck.Proofs.Space.Walk

namespace RefineCheck.Space

open Std (TreeMap TreeSet)
open Relation (ReflTransGen)

/-! ## The invariant -/

/-- What holds of every space that is built by its operations. -/
structure Valid (s : Space) : Prop where
  next_pos : 0 < s.nextId
  stored {n : NodeId} {st : State} : s.states[n]? = some st → n ≠ root ∧ n < s.nextId
  target {n m : NodeId} : m ∈ s.next n → s.contains m = true
  source {n m : NodeId} : m ∈ s.next n → n = root ∨ s.contains n = true
  previous_iff {n m : NodeId} : n ∈ s.previous m ↔ m ∈ s.next n
  ids_iff {key : String} {n : NodeId} :
    s.ids[key]? = some n ↔ ∃ st, s.states[n]? = some st ∧ st.key = key

theorem contains_iff {s : Space} {n : NodeId} :
    s.contains n = true ↔ ∃ st, s.states[n]? = some st := by
  rw [contains, TreeMap.contains_eq_isSome_getElem?, Option.isSome_iff_exists]

theorem Valid.contains_lt {s : Space} (hs : s.Valid) {n : NodeId} (h : s.contains n = true) :
    n ≠ root ∧ n < s.nextId := by
  obtain ⟨st, hst⟩ := contains_iff.1 h
  exact hs.stored hst

theorem mem_next {s : Space} {n m : NodeId} :
    m ∈ s.next n ↔ (s.successors.getD n {}).contains m = true := by
  rw [next, TreeMap.mem_keys, TreeMap.mem_iff_contains]

theorem mem_previous {s : Space} {n m : NodeId} :
    n ∈ s.previous m ↔ (s.predecessors.getD m {}).contains n = true := by
  rw [previous, TreeSet.mem_toList, TreeSet.mem_iff_contains]

/-- There is an edge just if there is an input that it was generated with. -/
theorem mem_next_iff_input? {s : Space} {n m : NodeId} :
    m ∈ s.next n ↔ ∃ input, s.input? n m = some input := by
  rw [mem_next, input?, TreeMap.contains_eq_isSome_getElem?, Option.isSome_iff_exists]

/-- No two states are stored under one key. -/
theorem Valid.eq_of_key {s : Space} (hs : s.Valid) {n m : NodeId} {st st' : State}
    (hn : s.states[n]? = some st) (hm : s.states[m]? = some st') (hkey : st.key = st'.key) :
    n = m := by
  have h₁ := hs.ids_iff.2 ⟨st, hn, hkey⟩
  have h₂ := hs.ids_iff.2 ⟨st', hm, rfl⟩
  rw [h₁] at h₂
  exact Option.some.inj h₂

theorem valid_empty : empty.Valid where
  next_pos := Nat.one_pos
  stored h := by simp [empty] at h
  target h := by simp [mem_next, empty] at h
  source h := by simp [mem_next, empty] at h
  previous_iff := by simp [mem_next, mem_previous, empty]
  ids_iff := by simp [empty]

theorem checkNode_ok_iff {s : Space} {n : NodeId} :
    s.checkNode n = .ok () ↔ n = root ∨ s.contains n = true := by
  rw [checkNode]
  split
  · rename_i h
    exact iff_of_true rfl (by simpa using h)
  · rename_i h
    exact iff_of_false nofun (by simpa using h)

/-! ## States and their keys -/

/-- The table of keys leads to each state under its key, and to nothing else. -/
def Indexed (states : TreeMap StateId State) (ids : TreeMap String StateId) : Prop :=
  ∀ (key : String) (n : StateId),
    ids[key]? = some n ↔ ∃ st : State, states[n]? = some st ∧ st.key = key

section Indexed

variable {states : TreeMap StateId State} {ids : TreeMap String StateId} {id n : StateId}
  {state : State}

theorem getElem?_insert_state :
    (states.insert id state)[n]? = if n = id then some state else states[n]? := by
  rw [TreeMap.getElem?_insert]
  exact if_congr (Std.LawfulEqCmp.compare_eq_iff_eq.trans eq_comm) rfl rfl

theorem getElem?_erase_state :
    (states.erase id)[n]? = if n = id then none else states[n]? := by
  rw [TreeMap.getElem?_erase]
  exact if_congr (Std.LawfulEqCmp.compare_eq_iff_eq.trans eq_comm) rfl rfl

/-- A state with a new number and a new key may be stored under both. -/
theorem Indexed.insert (h : Indexed states ids) (hid : states[id]? = none)
    (hkey : ids[state.key]? = none) :
    Indexed (states.insert id state) (ids.insert state.key id) := by
  intro key n
  simp only [getElem?_insert_state]
  simp only [TreeMap.getElem?_insert, Std.LawfulEqCmp.compare_eq_iff_eq]
  constructor
  · intro hn
    split at hn
    · rename_i hk
      exact ⟨state, by rw [if_pos (Option.some.inj hn).symm], hk⟩
    · obtain ⟨st, hst, hk⟩ := (h key n).1 hn
      refine ⟨st, ?_, hk⟩
      rw [if_neg, hst]
      rintro rfl
      rw [hid] at hst
      cases hst
  · rintro ⟨st, hst, hk⟩
    split at hst
    · rename_i hn
      obtain rfl := Option.some.inj hst
      rw [if_pos hk, hn]
    · have hids := (h key n).2 ⟨st, hst, hk⟩
      rw [if_neg, hids]
      rintro rfl
      rw [hkey] at hids
      cases hids

/-- A stored state may be removed with its key, which no other state has. -/
theorem Indexed.erase (h : Indexed states ids) (hid : states[id]? = some state) :
    Indexed (states.erase id) (ids.erase state.key) := by
  intro key n
  simp only [getElem?_erase_state]
  rw [TreeMap.getElem?_erase]
  by_cases hkey : state.key = key
  · rw [if_pos (Std.LawfulEqCmp.compare_eq_iff_eq.2 hkey)]
    refine ⟨nofun, ?_⟩
    rintro ⟨st, hst, hk⟩
    split at hst
    · cases hst
    · rename_i hne
      have h₁ := (h key n).2 ⟨st, hst, hk⟩
      have h₂ := (h key id).2 ⟨state, hid, hkey⟩
      rw [h₁] at h₂
      exact absurd (Option.some.inj h₂) hne
  · rw [if_neg (fun hcmp => hkey (Std.LawfulEqCmp.compare_eq_iff_eq.1 hcmp)), h]
    constructor
    · rintro ⟨st, hst, hk⟩
      refine ⟨st, ?_, hk⟩
      rw [if_neg, hst]
      rintro rfl
      rw [hid] at hst
      exact hkey (Option.some.inj hst ▸ hk)
    · rintro ⟨st, hst, hk⟩
      split at hst
      · cases hst
      · exact ⟨st, hst, hk⟩

end Indexed

theorem Valid.indexed {s : Space} (hs : s.Valid) : Indexed s.states s.ids :=
  fun _ _ => hs.ids_iff

/-! ## Reachable nodes -/

/-- Whether a node leads to another one. -/
abbrev Leads (s : Space) : NodeId → NodeId → Prop := ReflTransGen (Step s.next)

theorem visits_reachable (s : Space) :
    Visits s.forwards [root] (TreeSet.ofList [root]) s.reachable :=
  s.forwards.visits_walk (fun n hn => by simp [List.mem_singleton.1 hn]) (List.nodup_singleton _)

/-- The reachable nodes are those that the root leads to. -/
theorem mem_reachable {s : Space} {n : NodeId} : n ∈ s.reachable ↔ s.Leads root n := by
  have v := s.visits_reachable
  have hroot : root ∈ s.reachable := v.queue_subset root List.mem_cons_self
  constructor
  · intro hn
    obtain ⟨q, hq, h⟩ := v.reached n hn
    rwa [List.mem_singleton.1 hq] at h
  · intro h
    refine mem_of_reach (S := {n | n ∈ s.reachable}) (fun n hn m hm => ?_) h hroot
    rcases v.closed n hn m hm with hseen | hm
    · obtain rfl : root = m := by simpa using hseen
      exact hroot
    · exact hm

theorem reachable_closed {s : Space} {n m : NodeId} (hn : n ∈ s.reachable) (hm : m ∈ s.next n) :
    m ∈ s.reachable :=
  mem_reachable.2 ((mem_reachable.1 hn).tail hm)

theorem Valid.contains_of_reachable {s : Space} (hs : s.Valid) {n : NodeId}
    (hn : n ∈ s.reachable) (hroot : n ≠ root) : s.contains n = true := by
  rcases (mem_reachable.1 hn).cases_tail with h | ⟨m, -, h⟩
  · exact absurd h hroot
  · exact hs.target h

/-- In a left-total space every reachable node has a successor. -/
theorem isLeftTotal_iff {s : Space} :
    s.isLeftTotal = true ↔ ∀ n ∈ s.reachable, s.next n ≠ [] := by
  simp only [isLeftTotal, deadEnd?, Option.isNone_iff_eq_none, List.find?_eq_none, isExplored,
    Bool.not_not, List.isEmpty_iff, ne_eq]

/-! ## Growth -/

/-- What storing a state does to the states. -/
structure Stores (s : Space) (state : State) (s' : Space) (id : StateId) (inserted : Bool) :
    Prop where
  valid : s'.Valid
  kept {n : NodeId} {st : State} : s.states[n]? = some st → s'.states[n]? = some st
  new {n : NodeId} {st : State} : s'.states[n]? = some st →
    s.states[n]? = some st ∨ (n = id ∧ st = state ∧ inserted = true)
  state_id : ∃ st, s'.states[id]? = some st ∧ st.key = state.key
  fresh : inserted = true → s.nextId ≤ id
  nextId_le : s.nextId ≤ s'.nextId

/-- What adding an edge to a state does. -/
structure Added (s : Space) (source : NodeId) (state : State) (s' : Space) (id : StateId)
    (inserted : Bool) : Prop extends Stores s state s' id inserted where
  source_stored : source = root ∨ s.contains source = true
  next_other {n : NodeId} : n ≠ source → s'.next n = s.next n
  next_source {m : NodeId} : m ∈ s'.next source ↔ m = id ∨ m ∈ s.next source

/-- The space with one more state, under the next number. -/
def insertState (s : Space) (state : State) : Space :=
  { s with
    states := s.states.insert s.nextId state
    ids := s.ids.insert state.key s.nextId
    nextId := s.nextId + 1
    predecessors := s.predecessors.insert s.nextId {} }

theorem Valid.states_nextId {s : Space} (hs : s.Valid) : s.states[s.nextId]? = none := by
  cases h : s.states[s.nextId]? with
  | none => rfl
  | some st => exact absurd (hs.stored h).2 (lt_irrefl _)

/-- Nothing comes before the next number, so that its empty entry changes nothing. -/
theorem Valid.previous_insertState {s : Space} (hs : s.Valid) (state : State) {n m : NodeId} :
    n ∈ (s.insertState state).previous m ↔ n ∈ s.previous m := by
  rw [mem_previous, insertState]
  by_cases hm : m = s.nextId
  · subst hm
    have hnone : n ∉ s.previous s.nextId := fun h =>
      absurd (hs.contains_lt (hs.target (hs.previous_iff.1 h))).2 (lt_irrefl _)
    simp [hnone]
  · rw [mem_previous, TreeMap.getD_insert]
    simp [Ne.symm hm]

theorem contains_insertState {s : Space} (state : State) {n : NodeId}
    (h : s.contains n = true) : (s.insertState state).contains n = true := by
  rw [contains, insertState, TreeMap.contains_insert, Bool.or_eq_true]
  exact .inr h

theorem Valid.insertState {s : Space} (hs : s.Valid) {state : State}
    (hkey : s.ids[state.key]? = none) : (s.insertState state).Valid where
  next_pos := Nat.succ_pos _
  stored {n st} h := by
    rw [Space.insertState, getElem?_insert_state] at h
    split at h
    · rename_i hn
      exact ⟨hn ▸ (Nat.pos_iff_ne_zero.1 hs.next_pos), hn ▸ Nat.lt_succ_self _⟩
    · exact ⟨(hs.stored h).1, lt_trans (hs.stored h).2 (Nat.lt_succ_self _)⟩
  target h := contains_insertState state (hs.target h)
  source h := (hs.source h).imp_right (contains_insertState state)
  previous_iff := (hs.previous_insertState state).trans hs.previous_iff
  ids_iff := hs.indexed.insert hs.states_nextId hkey _ _

theorem stores_addState {s : Space} (hs : s.Valid) (state : State) :
    Stores s state (s.addState state).1 (s.addState state).2.1 (s.addState state).2.2 ∧
      ∀ n, (s.addState state).1.next n = s.next n := by
  rw [addState]
  cases hkey : s.ids[state.key]? with
  | some id =>
    exact ⟨⟨hs, fun h => h, .inl, hs.ids_iff.1 hkey, nofun, le_rfl⟩, fun _ => rfl⟩
  | none =>
    refine ⟨⟨hs.insertState hkey, fun {n st} h => ?_, fun {n st} h => ?_, ⟨state, ?_, rfl⟩,
      fun _ => le_rfl, Nat.le_succ _⟩, fun _ => rfl⟩
    · rw [getElem?_insert_state, if_neg (ne_of_lt (hs.stored h).2), h]
    · rw [getElem?_insert_state] at h
      split at h
      · rename_i hn
        exact .inr ⟨hn, (Option.some.inj h).symm, rfl⟩
      · exact .inl h
    · rw [getElem?_insert_state, if_pos rfl]

/-- The space with one more edge. -/
def insertEdge (s : Space) (source : NodeId) (target : StateId) (input : Record) : Space :=
  { s with
    successors := s.successors.insert source ((s.successors.getD source {}).insert target input)
    predecessors := s.predecessors.insert target ((s.predecessors.getD target {}).insert source) }

section InsertEdge

variable {s : Space} {source n m : NodeId} {target : StateId} {input : Record}

theorem mem_next_insertEdge :
    m ∈ (s.insertEdge source target input).next n ↔ (n = source ∧ m = target) ∨ m ∈ s.next n := by
  rw [mem_next, mem_next, insertEdge]
  by_cases hn : n = source
  · subst hn
    rw [TreeMap.getD_insert_self, TreeMap.contains_insert, Bool.or_eq_true]
    rw [beq_iff_eq, Std.LawfulEqCmp.compare_eq_iff_eq, eq_comm, eq_self, true_and]
  · simp [TreeMap.getD_insert, hn, Ne.symm hn]

theorem mem_previous_insertEdge :
    n ∈ (s.insertEdge source target input).previous m ↔
      (n = source ∧ m = target) ∨ n ∈ s.previous m := by
  rw [mem_previous, mem_previous, insertEdge]
  by_cases hm : m = target
  · subst hm
    rw [TreeMap.getD_insert_self, TreeSet.contains_insert, Bool.or_eq_true]
    rw [beq_iff_eq, Std.LawfulEqCmp.compare_eq_iff_eq, eq_comm, eq_self, and_true]
  · simp [TreeMap.getD_insert, hm, Ne.symm hm]

theorem next_insertEdge (hn : n ≠ source) :
    (s.insertEdge source target input).next n = s.next n := by
  simp only [next, insertEdge, TreeMap.getD_insert, Std.LawfulEqCmp.compare_eq_iff_eq,
    if_neg (Ne.symm hn)]

theorem Valid.insertEdge (hs : s.Valid) (hsource : source = root ∨ s.contains source = true)
    (htarget : s.contains target = true) : (s.insertEdge source target input).Valid where
  next_pos := hs.next_pos
  stored := hs.stored
  target {n m} h := by
    rcases mem_next_insertEdge.1 h with ⟨-, rfl⟩ | h
    · exact htarget
    · exact hs.target h
  source {n m} h := by
    rcases mem_next_insertEdge.1 h with ⟨rfl, -⟩ | h
    · exact hsource
    · exact hs.source h
  previous_iff := by
    intro n m
    rw [mem_previous_insertEdge, mem_next_insertEdge, hs.previous_iff]
  ids_iff := hs.ids_iff

end InsertEdge

theorem addEdge_valid {s : Space} (hs : s.Valid) {source : NodeId} {target : StateId}
    (input : Record) (hsource : source = root ∨ s.contains source = true)
    (htarget : s.contains target = true) :
    (s.addEdge source target input).Valid ∧
      (∀ n, n ≠ source → (s.addEdge source target input).next n = s.next n) ∧
      (∀ m, m ∈ (s.addEdge source target input).next source ↔ m = target ∨ m ∈ s.next source) ∧
      (s.addEdge source target input).states = s.states ∧
      (s.addEdge source target input).nextId = s.nextId := by
  rw [addEdge]
  split
  · rename_i hedge
    refine ⟨hs, fun _ _ => rfl, fun m => ⟨.inr, ?_⟩, rfl, rfl⟩
    rintro (rfl | h)
    · exact mem_next.2 hedge
    · exact h
  · refine ⟨hs.insertEdge hsource htarget, fun n hn => next_insertEdge hn, fun m => ?_, rfl, rfl⟩
    refine mem_next_insertEdge.trans ?_
    rw [eq_self, true_and]

/-- Adding a step adds one edge, and a state if none is stored under its key. -/
theorem added_of_addStep {s s' : Space} (hs : s.Valid) {source : NodeId} {state : State}
    {input : Record} {id : StateId} {inserted : Bool}
    (h : s.addStep source state input = .ok (s', id, inserted)) :
    Added s source state s' id inserted := by
  simp only [addStep, bind_eq_ok, pure_eq_ok] at h
  obtain ⟨⟨⟩, hcheck, h⟩ := h
  have hsource := checkNode_ok_iff.1 hcheck
  obtain ⟨st₁, hnext⟩ := stores_addState hs state
  generalize s.addState state = r at h st₁ hnext
  obtain ⟨s₁, id₁, inserted₁⟩ := r
  simp only [Prod.mk.injEq] at h
  obtain ⟨rfl, rfl, rfl⟩ := h
  have hsource₁ : source = root ∨ s₁.contains source = true := by
    refine hsource.imp_right fun hc => ?_
    obtain ⟨st, hst⟩ := contains_iff.1 hc
    exact contains_iff.2 ⟨st, st₁.kept hst⟩
  have htarget : s₁.contains id₁ = true := contains_iff.2 (st₁.state_id.imp fun _ h => h.1)
  obtain ⟨hv, hother, hsrc, hstates, hnid⟩ := addEdge_valid st₁.valid input hsource₁ htarget
  refine ⟨⟨hv, ?_, ?_, ?_, st₁.fresh, ?_⟩, hsource, fun hn => (hother _ hn).trans (hnext _), ?_⟩
  · rw [hstates]
    exact st₁.kept
  · rw [hstates]
    exact st₁.new
  · rw [hstates]
    exact st₁.state_id
  · rw [hnid]
    exact st₁.nextId_le
  · intro m
    rw [hsrc, hnext]

/-! ## Removal -/

/-- Forgets that a node comes before one state. -/
def dropOne (n : NodeId) (p : TreeMap StateId (TreeSet NodeId)) (id : StateId) :
    TreeMap StateId (TreeSet NodeId) :=
  match p[id]? with
  | some sources => p.insert id (sources.erase n)
  | none => p

theorem contains_dropOne (n k m : NodeId) (p : TreeMap StateId (TreeSet NodeId)) (id : StateId) :
    ((dropOne n p id).getD m {}).contains k = true ↔
      (p.getD m {}).contains k = true ∧ ¬ (k = n ∧ m = id) := by
  rw [dropOne.eq_def]
  cases hp : p[id]? with
  | none =>
    refine (and_iff_left_of_imp fun h => ?_).symm
    rintro ⟨-, rfl⟩
    rw [TreeMap.getD_eq_getD_getElem?, hp] at h
    simp at h
  | some sources =>
    by_cases hm : m = id
    · subst hm
      have hcmp : compare n k = .eq ↔ k = n :=
        Std.LawfulEqCmp.compare_eq_iff_eq.trans eq_comm
      rw [TreeMap.getD_insert_self, TreeSet.contains_erase, TreeMap.getD_eq_getD_getElem?, hp,
        Option.getD_some, Bool.and_eq_true, and_comm, bne_iff_ne, ne_eq,
        hcmp, eq_self, and_true]
    · simp [TreeMap.getD_insert, hm, Ne.symm hm]

theorem dropPredecessor_previous (s : Space) (n k m : NodeId) (targets : List StateId) :
    k ∈ (s.dropPredecessor n targets).previous m ↔
      k ∈ s.previous m ∧ ¬ (k = n ∧ m ∈ targets) := by
  rw [mem_previous, mem_previous, dropPredecessor]
  show ((targets.foldl (dropOne n) s.predecessors).getD m {}).contains k = true ↔ _
  generalize s.predecessors = p
  induction targets generalizing p with
  | nil => simp
  | cons id rest ih =>
    rw [List.foldl_cons, ih, contains_dropOne]
    rw [List.mem_cons]
    grind

/-- What clearing the edges that leave a node does. -/
structure Cleared (s : Space) (n : NodeId) (s' : Space) : Prop where
  valid : s'.Valid
  node_stored : n = root ∨ s.contains n = true
  next_other {k : NodeId} : k ≠ n → s'.next k = s.next k
  input_other {k m : NodeId} : k ≠ n → s'.input? k m = s.input? k m
  next_node : s'.next n = []
  states_eq : s'.states = s.states
  ids_eq : s'.ids = s.ids
  nextId_eq : s'.nextId = s.nextId

theorem cleared_of_clearStep {s s' : Space} (hs : s.Valid) {n : NodeId} {removed : List StateId}
    (h : s.clearStep n = .ok (s', removed)) : Cleared s n s' ∧ removed = s.next n := by
  simp only [clearStep, bind_eq_ok, pure_eq_ok, Prod.mk.injEq] at h
  obtain ⟨⟨⟩, hcheck, rfl, rfl⟩ := h
  have hnode := checkNode_ok_iff.1 hcheck
  have hprev {k m : NodeId} := s.dropPredecessor_previous n k m (s.next n)
  have hsucc : (s.dropPredecessor n (s.next n)).successors = s.successors := rfl
  have hstates : (s.dropPredecessor n (s.next n)).states = s.states := rfl
  have hids : (s.dropPredecessor n (s.next n)).ids = s.ids := rfl
  have hnid : (s.dropPredecessor n (s.next n)).nextId = s.nextId := rfl
  generalize s.dropPredecessor n (s.next n) = s₁ at hprev hsucc hstates hids hnid
  have hedges {k : NodeId} (hk : k ≠ n) :
      (s₁.successors.erase n).getD k {} = s.successors.getD k {} := by
    simp only [hsucc, TreeMap.getD_erase, Std.LawfulEqCmp.compare_eq_iff_eq, if_neg (Ne.symm hk)]
  have hother {k : NodeId} (hk : k ≠ n) :
      ({ s₁ with successors := s₁.successors.erase n } : Space).next k = s.next k :=
    congrArg TreeMap.keys (hedges hk)
  have hself : ({ s₁ with successors := s₁.successors.erase n } : Space).next n = [] := by
    rw [next, TreeMap.getD_erase_self]
    rfl
  -- the edges that are left are those of the other nodes
  have hnext {k m : NodeId}
      (h : m ∈ ({ s₁ with successors := s₁.successors.erase n } : Space).next k) :
      k ≠ n ∧ m ∈ s.next k := by
    by_cases hk : k = n
    · rw [hk, hself] at h
      cases h
    · rw [hother hk] at h
      exact ⟨hk, h⟩
  refine ⟨⟨⟨hnid ▸ hs.next_pos, fun h => hnid ▸ hs.stored (hstates ▸ h), fun h => ?_, fun h => ?_,
    fun {k m} => ?_, fun {key k} => ?_⟩, hnode, hother,
    fun {k m} hk => congrArg (fun edges => edges[m]?) (hedges hk), hself, hstates, hids, hnid⟩, rfl⟩
  · rw [contains, hstates]
    exact hs.target (hnext h).2
  · rw [contains, hstates]
    exact hs.source (hnext h).2
  · refine Iff.trans hprev ?_
    rw [hs.previous_iff]
    constructor
    · rintro ⟨hm, hn⟩
      rw [hother fun hk => hn ⟨hk, hk ▸ hm⟩]
      exact hm
    · intro h
      obtain ⟨hk, hm⟩ := hnext h
      exact ⟨hm, fun hn => hk hn.1⟩
  · rw [hids, hstates]
    exact hs.ids_iff

/-- The part of the invariant that removing one state after the other keeps: edges that lead to
    removed states stay until their sources are removed as well. -/
structure Removed (s : Space) (removed : List StateId) (s' : Space) : Prop where
  nextId_eq : s'.nextId = s.nextId
  states_kept {n : NodeId} : n ∉ removed → s'.states[n]? = s.states[n]?
  states_gone {n : NodeId} : n ∈ removed → s'.states[n]? = none
  next_kept {n : NodeId} : n ∉ removed → s'.next n = s.next n
  input_kept {n m : NodeId} : n ∉ removed → s'.input? n m = s.input? n m
  next_gone {n : NodeId} : n ∈ removed → s'.next n = []
  previous_iff {k m : NodeId} : k ∈ s'.previous m ↔
    m ∉ removed ∧ k ∈ s.previous m ∧ ¬ (k ∈ removed ∧ m ∈ s.next k)
  ids_iff {key : String} {n : NodeId} :
    s'.ids[key]? = some n ↔ ∃ st, s'.states[n]? = some st ∧ st.key = key

theorem removed_removeState {s : Space} (hids : Indexed s.states s.ids) {id : StateId}
    {state : State} (hid : s.states[id]? = some state) : Removed s [id] (s.removeState id) := by
  have hedges {n : NodeId} (hn : n ∉ [id]) :
      (s.successors.erase id).getD n {} = s.successors.getD n {} := by
    have hne : id ≠ n := fun h => hn (List.mem_singleton.2 h.symm)
    simp only [TreeMap.getD_erase, Std.LawfulEqCmp.compare_eq_iff_eq, if_neg hne]
  rw [removeState, hid]
  exact {
    nextId_eq := rfl
    states_kept := fun hn =>
      getElem?_erase_state.trans (if_neg (fun h => hn (List.mem_singleton.2 h)))
    states_gone := fun hn => getElem?_erase_state.trans (if_pos (List.mem_singleton.1 hn))
    next_kept := fun hn => congrArg TreeMap.keys (hedges hn)
    input_kept := fun {_ m} hn => congrArg (fun edges => edges[m]?) (hedges hn)
    next_gone := fun {n} hn => by
      rw [List.mem_singleton.1 hn, next, TreeMap.getD_erase_self]
      rfl
    previous_iff := fun {k m} => by
      have hdrop := s.dropPredecessor_previous id k m (s.next id)
      rw [mem_previous] at hdrop ⊢
      simp only [List.mem_singleton]
      by_cases hm : m = id
      · subst hm
        simp
      · simp only [TreeMap.getD_erase, Std.LawfulEqCmp.compare_eq_iff_eq, if_neg (Ne.symm hm)]
        rw [hdrop]
        grind
    ids_iff := hids.erase hid _ _ }

theorem removed_foldl {s : Space} (hids : Indexed s.states s.ids)
    {removed : List StateId} (hstored : ∀ n ∈ removed, s.contains n = true)
    (hnodup : removed.Nodup) : Removed s removed (removed.foldl removeState s) := by
  induction removed generalizing s with
  | nil =>
    exact ⟨rfl, fun _ => rfl, nofun, fun _ => rfl, fun _ => rfl, nofun, by simp, hids _ _⟩
  | cons id rest ih =>
    obtain ⟨state, hid⟩ := contains_iff.1 (hstored id List.mem_cons_self)
    obtain ⟨hnotin, hnodup⟩ := List.nodup_cons.1 hnodup
    have h₁ := removed_removeState hids hid
    have hne {n : NodeId} (hn : n ∈ rest) : n ∉ [id] :=
      fun h => hnotin (List.mem_singleton.1 h ▸ hn)
    have h₂ := ih (fun _ _ => h₁.ids_iff) (fun n hn => by
      rw [contains_iff, h₁.states_kept (hne hn), ← contains_iff]
      exact hstored n (List.mem_cons_of_mem _ hn)) hnodup
    rw [List.foldl_cons]
    refine ⟨h₂.nextId_eq.trans h₁.nextId_eq, fun {n} hn => ?_, fun {n} hn => ?_, fun {n} hn => ?_,
      fun {n m} hn => ?_, fun {n} hn => ?_, fun {k m} => ?_, h₂.ids_iff⟩
    · rw [List.mem_cons, not_or] at hn
      rw [h₂.states_kept hn.2, h₁.states_kept (by simpa using hn.1)]
    · by_cases hr : n ∈ rest
      · exact h₂.states_gone hr
      · rw [h₂.states_kept hr, h₁.states_gone (by simpa [hr] using hn)]
    · rw [List.mem_cons, not_or] at hn
      rw [h₂.next_kept hn.2, h₁.next_kept (by simpa using hn.1)]
    · rw [List.mem_cons, not_or] at hn
      rw [h₂.input_kept hn.2, h₁.input_kept (by simpa using hn.1)]
    · by_cases hr : n ∈ rest
      · exact h₂.next_gone hr
      · rw [h₂.next_kept hr, h₁.next_gone (by simpa [hr] using hn)]
    · rw [h₂.previous_iff, h₁.previous_iff, List.mem_cons, List.mem_cons]
      have hnext (hk : k ∈ rest) : (s.removeState id).next k = s.next k := h₁.next_kept (hne hk)
      grind

/-- What removing unreachable states does. -/
structure Swept (s s' : Space) (removed : List StateId) : Prop where
  valid : s'.Valid
  nextId_eq : s'.nextId = s.nextId
  states_kept {n : NodeId} : n ∉ removed → s'.states[n]? = s.states[n]?
  states_gone {n : NodeId} : n ∈ removed → s'.states[n]? = none
  next_kept {n : NodeId} : n ∉ removed → s'.next n = s.next n
  input_kept {n m : NodeId} : n ∉ removed → s'.input? n m = s.input? n m
  next_gone {n : NodeId} : n ∈ removed → s'.next n = []
  unreachable {n : NodeId} : n ∈ removed → s.contains n = true ∧ n ∉ s.reachable

/-- A sweep removes the stored states that cannot be reached. -/
theorem mem_sweep {s : Space} {n : NodeId} :
    n ∈ s.sweep.2 ↔ s.contains n = true ∧ n ∉ s.reachable := by
  rw [sweep]
  simp only
  rw [List.mem_filter, stateIds, TreeMap.mem_keys, TreeMap.mem_iff_contains,
    TreeSet.contains_ofList, Bool.not_eq_true', ← Bool.not_eq_true, List.contains_iff_mem]
  rfl

/-- Sweeping keeps the invariant: what leads to a removed state cannot be reached either. -/
theorem swept_sweep {s : Space} (hs : s.Valid) : Swept s s.sweep.1 s.sweep.2 := by
  have hmem {n : NodeId} : n ∈ s.sweep.2 ↔ s.contains n = true ∧ n ∉ s.reachable := mem_sweep
  have hnodup : s.sweep.2.Nodup := (TreeMap.nodup_keys).filter _
  have hswept : s.sweep.1 = s.sweep.2.foldl removeState s := by rw [sweep]
  rw [hswept]
  generalize s.sweep.2 = removed at hmem hnodup
  have h := removed_foldl hs.indexed (fun n hn => (hmem.1 hn).1) hnodup
  have hroot : root ∉ removed := fun hr => (hs.contains_lt (hmem.1 hr).1).1 rfl
  -- what leads to a removed state is removed, since it cannot be reached either
  have hback {n m : NodeId} (hm : m ∈ s.next n) (hmr : m ∈ removed) : n ∈ removed := by
    rw [hmem] at hmr ⊢
    refine ⟨(hs.source hm).resolve_left ?_, fun hn => hmr.2 (reachable_closed hn hm)⟩
    rintro rfl
    exact hmr.2 (mem_reachable.2 (.single hm))
  have hnext {n m : NodeId} (hm : m ∈ (removed.foldl removeState s).next n) :
      n ∉ removed ∧ m ∈ s.next n := by
    by_cases hn : n ∈ removed
    · rw [h.next_gone hn] at hm
      cases hm
    · rw [h.next_kept hn] at hm
      exact ⟨hn, hm⟩
  have hcontains {n : NodeId} (hn : n ∉ removed) (hc : s.contains n = true) :
      (removed.foldl removeState s).contains n = true := by
    rwa [contains_iff, h.states_kept hn, ← contains_iff]
  refine ⟨⟨h.nextId_eq ▸ hs.next_pos, fun {n st} hst => ?_, fun {n m} hm => ?_, fun {n m} hm => ?_,
    fun {n m} => ?_, h.ids_iff⟩, h.nextId_eq, h.states_kept, h.states_gone, h.next_kept,
    h.input_kept, h.next_gone, hmem.1⟩
  · by_cases hn : n ∈ removed
    · rw [h.states_gone hn] at hst
      cases hst
    · rw [h.states_kept hn] at hst
      exact h.nextId_eq ▸ hs.stored hst
  · obtain ⟨hn, hm⟩ := hnext hm
    exact hcontains (fun hmr => hn (hback hm hmr)) (hs.target hm)
  · obtain ⟨hn, hm⟩ := hnext hm
    exact (hs.source hm).imp_right (hcontains hn)
  · rw [h.previous_iff, hs.previous_iff]
    constructor
    · rintro ⟨-, hm, hn⟩
      rw [h.next_kept fun hr => hn ⟨hr, hm⟩]
      exact hm
    · intro hm
      obtain ⟨hn, hm⟩ := hnext hm
      exact ⟨fun hmr => hn (hback hm hmr), hm, fun hr => hn hr.1⟩

theorem swept_collect {s : Space} (hs : s.Valid) : Swept s s.collect.1 s.collect.2 := by
  rw [collect]
  split
  · exact ⟨hs, rfl, fun _ => rfl, nofun, fun _ => rfl, fun _ => rfl, nofun, nofun⟩
  · have h := swept_sweep hs
    exact ⟨⟨h.valid.next_pos, h.valid.stored, h.valid.target, h.valid.source, h.valid.previous_iff,
      h.valid.ids_iff⟩, h.nextId_eq, h.states_kept, h.states_gone, h.next_kept, h.input_kept,
      h.next_gone, h.unreachable⟩

/-! ## Built spaces -/

/-- The spaces that the operations build from states of a kind. -/
inductive Built (Good : State → Prop) : Space → Prop
  | empty : Built Good empty
  | addStep {s s' : Space} {source : NodeId} {state : State} {input : Record} {id : StateId}
    {inserted : Bool} : Built Good s → Good state →
    s.addStep source state input = .ok (s', id, inserted) → Built Good s'
  | clearStep {s s' : Space} {n : NodeId} {removed : List StateId} : Built Good s →
    s.clearStep n = .ok (s', removed) → Built Good s'
  | sweep {s : Space} : Built Good s → Built Good s.sweep.1
  | collect {s : Space} : Built Good s → Built Good s.collect.1

theorem Built.valid {Good : State → Prop} {s : Space} (h : s.Built Good) : s.Valid := by
  induction h with
  | empty => exact valid_empty
  | addStep _ _ hadd ih => exact (added_of_addStep ih hadd).valid
  | clearStep _ hclear ih => exact (cleared_of_clearStep ih hclear).1.valid
  | sweep _ ih => exact (swept_sweep ih).valid
  | collect _ ih => exact (swept_collect ih).valid

theorem Swept.states_subset {s s' : Space} {removed : List StateId} (h : Swept s s' removed)
    {n : NodeId} {st : State} (hst : s'.states[n]? = some st) : s.states[n]? = some st := by
  by_cases hn : n ∈ removed
  · rw [h.states_gone hn] at hst
    cases hst
  · rwa [← h.states_kept hn]

theorem Built.good {Good : State → Prop} {s : Space} (h : s.Built Good) {n : NodeId} {st : State}
    (hst : s.states[n]? = some st) : Good st := by
  induction h with
  | empty => simp [Space.empty] at hst
  | addStep hs hgood hadd ih =>
    rcases (added_of_addStep hs.valid hadd).new hst with hst | ⟨-, rfl, -⟩
    · exact ih hst
    · exact hgood
  | clearStep hs hclear ih => exact ih ((cleared_of_clearStep hs.valid hclear).1.states_eq ▸ hst)
  | sweep hs ih => exact ih ((swept_sweep hs.valid).states_subset hst)
  | collect hs ih => exact ih ((swept_collect hs.valid).states_subset hst)

end RefineCheck.Space
