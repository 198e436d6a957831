/-
  RefineCheck.Proofs.Verifier.Exploration

  Every generation ends. A space stores a state once for each key, and there are finitely many keys
  of states of one shape. Each expansion explores a key that was not explored before, and adds no more
  nodes to the queue than there are keys.
-/

import Mathlib
import RefineCheck.Proofs.Verifier.Effective
import RefineCheck.Proofs.Verifier.Improvement

namespace RefineCheck

/-! ## Keys of nodes -/

namespace Space

variable {t : Shape} {s : Space} {n m : NodeId}

/-- The key of a node; the root has none. -/
def slot (s : Space) (n : NodeId) : Option String := (s.states[n]?).map State.key

/-- The keys of the root and of the states of a shape. -/
def slots (t : Shape) : Set (Option String) := Option.map State.key '' Precision.places t

theorem finite_slots (t : Shape) : (slots t).Finite := (Precision.finite_places t).image _

theorem slot_mem (hfits : ∀ {n : NodeId} {st : State}, s.states[n]? = some st → st.Fits t)
    (n : NodeId) : s.slot n ∈ slots t := by
  rw [slot]
  cases hst : s.states[n]? with
  | none => exact ⟨none, .inl rfl, rfl⟩
  | some st =>
    refine ⟨some st.plain, .inr ⟨st.plain, ⟨st, hfits hst, rfl⟩, rfl⟩, ?_⟩
    exact congrArg some st.key_plain

/-- Nodes are told apart by their keys. -/
theorem Valid.eq_of_slot (hs : s.Valid) (hn : n = root ∨ s.contains n = true)
    (hm : m = root ∨ s.contains m = true) (h : s.slot n = s.slot m) : n = m := by
  have hroot {k : NodeId} (hk : k = root ∨ s.contains k = true) (hnone : s.slot k = none) :
      k = root := by
    refine hk.resolve_right fun hc => ?_
    obtain ⟨st, hst⟩ := contains_iff.1 hc
    rw [slot, hst] at hnone
    cases hnone
  cases hkey : s.slot n with
  | none => rw [hroot hn hkey, hroot hm (h ▸ hkey)]
  | some key =>
    obtain ⟨st, hst, hst'⟩ := Option.map_eq_some_iff.1 hkey
    obtain ⟨su, hsu, hsu'⟩ := Option.map_eq_some_iff.1 (h ▸ hkey)
    exact hs.eq_of_key hst hsu (hst'.trans hsu'.symm)

/-- A node has at most one successor for each key. -/
theorem Valid.length_next_le (hs : s.Valid)
    (hfits : ∀ {n : NodeId} {st : State}, s.states[n]? = some st → st.Fits t) (n : NodeId) :
    (s.next n).length ≤ (slots t).ncard := by
  have hinj : ((s.next n).map s.slot).Nodup := by
    refine (s.nodup_next n).map_on fun k hk l hl heq => ?_
    exact hs.eq_of_slot (.inr (hs.target hk)) (.inr (hs.target hl)) heq
  have hsub : (((s.next n).map s.slot).toFinset : Set (Option String)) ⊆ slots t := by
    intro key hkey
    rw [List.coe_toFinset] at hkey
    obtain ⟨k, -, rfl⟩ := List.mem_map.1 hkey
    exact slot_mem hfits k
  have hle := Set.ncard_le_ncard hsub (finite_slots t)
  rwa [Set.ncard_coe_finset, List.toFinset_card_of_nodup hinj, List.length_map] at hle

/-- The keys of nodes with successors. -/
def explored (s : Space) : Set (Option String) := {key | ∃ n, s.next n ≠ [] ∧ s.slot n = key}

/-- The number of keys of which no node has successors. -/
noncomputable def unexplored (t : Shape) (s : Space) : Nat := (slots t \ s.explored).ncard

theorem unexplored_le (t : Shape) (s : Space) : s.unexplored t ≤ (slots t).ncard :=
  Set.ncard_le_ncard Set.sdiff_subset (finite_slots t)

end Space

namespace Verifier

open VerifyM (Ensures)

variable {system : TransitionSystem} {hsys : system.Conforms} {v w : Verifier} {node : NodeId}
  {steps : List (Record × State)} {e : Expansion} {fuel inner : Nat} {stop : Stop} {c c' : Prop}

/-- Expanding a node without successors leaves fewer keys that are not explored. -/
theorem Expands.unexplored_lt {t : Shape} (h : Expands v node steps e w) (hs : v.space.Valid)
    (hfits : ∀ {n : NodeId} {st : State}, v.space.states[n]? = some st → st.Fits t)
    (hnode : v.HasNode node) (hnext : v.space.next node = []) :
    w.space.unexplored t < v.space.unexplored t := by
  have hslot {n : NodeId} (hn : v.HasNode n) : w.space.slot n = v.space.slot n := by
    rw [Space.slot, Space.slot, Space.states_of_kept hs h.valid h.kept hn]
  have hsource {n : NodeId} (hne : v.space.next n ≠ []) : v.HasNode n := by
    obtain ⟨m, hm⟩ := List.exists_mem_of_ne_nil _ hne
    exact hs.source hm
  refine Set.ncard_lt_ncard ⟨?_, fun hle => ?_⟩ (Space.finite_slots t).sdiff
  · refine Set.sdiff_subset_sdiff_right ?_
    rintro _ ⟨n, hne, rfl⟩
    have hother : n ≠ node := by
      rintro rfl
      exact hne hnext
    exact ⟨n, h.next_other hother ▸ hne, hslot (hsource hne)⟩
  · -- the key of the node itself was not explored, since no other node has it
    have hnew : v.space.slot node ∉ v.space.explored := by
      rintro ⟨n, hne, heq⟩
      obtain rfl := hs.eq_of_slot (hsource hne) hnode heq
      exact hne hnext
    exact (hle ⟨Space.slot_mem hfits node, hnew⟩).2 ⟨node, h.explored, hslot hnode⟩

/-! ## Ends of computations -/

/-- How a computation may stop for which the fuel suffices under a condition: by a failure, or for
    lack of fuel. -/
def Mild (c : Prop) (stop : Stop) : Prop :=
  (∃ cause, stop = .failure cause) ∨ stop = .exhausted ∧ ¬ c

theorem Mild.imp (h : Mild c stop) (hc : c' → c) : Mild c' stop :=
  Or.imp_right (fun h => ⟨h.1, fun h' => h.2 (hc h')⟩) h

theorem mild_failure (cause : Failure) : Mild c (.failure cause) := .inl ⟨cause, rfl⟩

/-- The successors of a node are computed if the fuel suffices for all inputs. -/
theorem Generated.mild_of_successors {K : Contract system} (hv : v.Generated K)
    (hnode : v.HasNode node) (h : v.successors fuel node = .error stop) :
    Mild (system.inputTemplate.shape.capacity ≤ fuel) stop ∧ stop ≠ .failure .incomplete := by
  rcases hv.successors_spec hnode fuel with ⟨hexhausted, m, hm, hlt⟩ | ⟨causes, hfailure⟩ |
    ⟨_, steps, -, hok, -⟩
  · obtain rfl := Except.error.inj (h.symm.trans hexhausted)
    refine ⟨.inr ⟨rfl, fun hle => ?_⟩, nofun⟩
    exact absurd (RecordMark.size_le hm) (not_le.2 (hle.trans_lt hlt))
  · obtain rfl := Except.error.inj (h.symm.trans hfailure)
    exact ⟨mild_failure _, nofun⟩
  · rw [h] at hok
    cases hok

/-- The inputs of new edges are among those that are enumerated. -/
theorem Expands.fed {K : Contract system} (h : Expands v node steps e w) (hv : v.Generated K)
    (hnode : v.HasNode node) (hsucc : v.successors fuel node = .ok steps)
    (hfed : v.space.Fed system.inputTemplate.shape) : w.space.Fed system.inputTemplate.shape := by
  obtain ⟨-, -, henumerates, -⟩ := hv.advance_of_successors hnode hsucc
  intro n m r hr
  rcases h.inputs hr with hold | ⟨step, hstep, rfl⟩
  · exact hfed hold
  · exact henumerates.member step.1 (List.mem_map_of_mem hstep)

/-! ## Generation -/

/-- The fuel that suffices to explore a space from a queue on. -/
noncomputable def explorationFuel (t : Shape) (s : Space) (queue : List NodeId) : Nat :=
  s.unexplored t * ((Space.slots t).ncard + 1) + queue.length

theorem explorationFuel_cons (t : Shape) (s : Space) (node : NodeId) (queue : List NodeId) :
    explorationFuel t s (node :: queue) = explorationFuel t s queue + 1 := by
  rw [explorationFuel, explorationFuel, List.length_cons]
  omega

/-- One key less to explore pays for the successors that join the queue. -/
theorem Expands.explorationFuel_lt {t : Shape} (h : Expands v node steps e w) (hs : v.space.Valid)
    (hfits : ∀ {n : NodeId} {st : State}, v.space.states[n]? = some st → st.Fits t)
    (hfits' : ∀ {n : NodeId} {st : State}, w.space.states[n]? = some st → st.Fits t)
    (hnode : v.HasNode node) (hnext : v.space.next node = []) (queue : List NodeId) :
    explorationFuel t w.space
        (queue ++ (w.space.next node).filter fun id => !w.space.isExplored id) <
      explorationFuel t v.space (node :: queue) := by
  have hlt := h.unexplored_lt hs hfits hnode hnext
  have hadded : ((w.space.next node).filter fun id => !w.space.isExplored id).length ≤
      (Space.slots t).ncard :=
    (List.length_filter_le _ _).trans (h.valid.length_next_le hfits' node)
  have hpays := Nat.mul_le_mul_right ((Space.slots t).ncard + 1) (Nat.succ_le_of_lt hlt)
  rw [Nat.succ_mul] at hpays
  rw [explorationFuel, explorationFuel, List.length_append, List.length_cons]
  omega

/-- Exploring ends: a node of the queue is skipped, or explores a key. -/
theorem Generated.explore_ends (hv : v.Generated hsys.contract)
    (hfed : v.space.Fed system.inputTemplate.shape) {v₁ : Verifier} {queue : List NodeId}
    {added : List StateId} {changed : List NodeId} (h : Spread v₁ v queue added changed) :
    Ensures (explore inner fuel queue added changed) v
      (fun r w => Spread v₁ w [] r.1 r.2 ∧ w.space.Fed system.inputTemplate.shape)
      (fun stop _ => Mild (system.inputTemplate.shape.capacity ≤ inner ∧
        explorationFuel system.stateTemplate.shape v.space queue ≤ fuel) stop ∧
        stop ≠ .failure .incomplete) := by
  induction fuel generalizing v queue added changed with
  | zero =>
    cases queue with
    | nil => exact .of_pure ⟨h, hfed⟩
    | cons node queue =>
      refine .of_throw ⟨.inr ⟨rfl, fun hle => ?_⟩, nofun⟩
      have hpos := hle.2
      rw [explorationFuel_cons] at hpos
      omega
  | succ fuel ih =>
    cases queue with
    | nil => exact .of_pure ⟨h, hfed⟩
    | cons node queue =>
      rw [Verifier.explore]
      refine .bind_get ?_
      by_cases hexplored : v.space.isExplored node = true
      · rw [if_pos hexplored]
        refine (ih hv hfed (h.skip (Space.isExplored_iff.1 hexplored))).imp (fun h => h)
          fun hstop => ⟨hstop.1.imp (And.imp_right fun hle => ?_), hstop.2⟩
        rw [explorationFuel_cons] at hle
        omega
      · rw [if_neg hexplored]
        have hnode := h.queued List.mem_cons_self
        have hnext : v.space.next node = [] := by
          by_contra hne
          exact hexplored (Space.isExplored_iff.2 hne)
        rcases expand_cases h.valid hnode inner with
          ⟨stop, w, hsucc, hw, hframe⟩ | ⟨steps, e, w, hsucc, hw, he⟩
        · -- the successors cannot be computed
          refine .bind (P := fun _ _ => False) (.of_error hw ?_) False.elim
          exact (hv.mild_of_successors hnode hsucc).imp_left (Mild.imp · And.left)
        · refine .bind (P := fun e' w' => e' = e ∧ w' = w) (.of_ok hw ⟨rfl, rfl⟩) ?_
          rintro e w ⟨rfl, rfl⟩
          have hw' := (hv.expands hnode hsucc he).toGenerated
          refine .bind_get ((ih hw' (he.fed hv hnode hsucc hfed) (h.expand he)).imp (fun h => h)
            fun hstop => ⟨hstop.1.imp (And.imp_right fun hle => ?_), hstop.2⟩)
          have hlt := he.explorationFuel_lt h.valid
            (fun hst => hsys.contract.fits (hv.built.good hst))
            (fun hst => hsys.contract.fits (hw'.built.good hst)) hnode hnext queue
          omega

/-- The fuel that suffices for every generation. -/
noncomputable def generationFuel (system : TransitionSystem) : Nat :=
  let keys := (Space.slots system.stateTemplate.shape).ncard
  system.inputTemplate.shape.capacity + keys * (keys + 1) + keys

/-- Every generation from a stored node on ends. It keeps all states and the precisions. -/
theorem Generated.regenerate_ends (hv : v.Generated hsys.contract)
    (hfed : v.space.Fed system.inputTemplate.shape) (hnode : v.HasNode node) (fuel : Nat) :
    Ensures (Verifier.regenerate fuel node) v
      (fun _ w => w.space.Fed system.inputTemplate.shape ∧ v.Rebuilt w ∧
        ∀ {n : NodeId}, v.HasNode n → w.space.states[n]? = v.space.states[n]?)
      (fun stop _ => Mild (generationFuel system ≤ fuel) stop ∧ stop ≠ .failure .incomplete ∨
        stop.Spatial) := by
  rw [Verifier.regenerate]
  rcases expand_cases hv.built.valid hnode fuel with
    ⟨stop, w, hsucc, hw, hframe⟩ | ⟨steps, e, w, hsucc, hw, he⟩
  · refine .bind (P := fun _ _ => False) (.of_error hw (.inl ?_)) False.elim
    refine (hv.mild_of_successors hnode hsucc).imp_left (Mild.imp · fun hle => ?_)
    rw [generationFuel] at hle
    omega
  · refine .bind (P := fun e' w' => e' = e ∧ w' = w) (.of_ok hw ⟨rfl, rfl⟩) ?_
    rintro e w ⟨rfl, rfl⟩
    have hw' := (hv.expands hnode hsucc he).toGenerated
    -- the queue is what the expansion of the node has led to
    have hstart := (spread_start hv.built.valid hnode).expand he
    have hqueue : ((w.space.next node).filter fun id => !w.space.isExplored id).length ≤
        (Space.slots system.stateTemplate.shape).ncard :=
      (List.length_filter_le _ _).trans (he.valid.length_next_le
        (fun hst => hsys.contract.fits (hw'.built.good hst)) node)
    refine .bind_get (.bind ((hw'.explore_ends (he.fed hv hnode hsucc hfed) hstart).imp
      (fun h => h) fun hstop => .inl ⟨hstop.1.imp fun hle => ?_, hstop.2⟩) fun {r u} hu => ?_)
    · -- at worst every key is unexplored and queued
      have hall := Nat.mul_le_mul_right ((Space.slots system.stateTemplate.shape).ncard + 1)
        (w.space.unexplored_le system.stateTemplate.shape)
      rw [generationFuel] at hle
      rw [explorationFuel, List.nil_append]
      omega
    · refine .bind_modify (.bind_get (.bind_raise (fun _ => .of_pure ?_) fun {cause} hassert => ?_))
      · exact ⟨hu.2, hu.1.frame.rebuilt _, Space.states_of_kept hv.built.valid hu.1.valid hu.1.kept⟩
      · rw [Space.assertLeftTotal] at hassert
        split at hassert
        · obtain rfl := Except.error.inj hassert
          exact .inr trivial
        · cases hassert

end Verifier

end RefineCheck
