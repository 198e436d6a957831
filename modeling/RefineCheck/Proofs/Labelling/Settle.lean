/-
  RefineCheck.Proofs.Labelling.Settle

  Forgetting what a change affects. What labels say about a node depends only on the nodes
  that it leads to, so labels stay right in another space that has the same edges there.
  After the states that lead to a changed one are forgotten, all labels are right.
-/

import RefineCheck.Proofs.Labelling.Coherent
import RefineCheck.Proofs.Semantics.Embedding

namespace RefineCheck.Labelling

open Formula (Tables)
open Relation (ReflTransGen)
open Std (TreeMap TreeSet)

/-! ## The same nodes -/

/-- Two spaces and two labellings that agree on nodes that no step leaves. -/
structure Same (S : Set NodeId) (s s' : Space) (l l' : Labelling) : Prop where
  closed {n m : NodeId} : n ∈ S → m ∈ s.next n → m ∈ S
  next_eq {n : NodeId} : n ∈ S → s'.next n = s.next n
  states_eq {n : NodeId} : n ∈ S → s'.states[n]? = s.states[n]?
  time_eq : l'.time = l.time
  labels_eq {id : Nat} {n : NodeId} : n ∈ S → (l'.labelsOf id)[n]? = (l.labelsOf id)[n]?
  entries_eq {id : Nat} {n : NodeId} : n ∈ S → SameEntries l l' id n

variable {S : Set NodeId} {s s' : Space} {T : Tables} {l l' : Labelling}

theorem Traced.same (h : Same S s s' l l') {bound : Nat} {f : Formula} {n : NodeId} {v : Valuation}
    (ht : Traced s T l bound f n v) (hn : n ∈ S) : Traced s' T l' bound f n v := by
  have hbefore {id bound : Nat} {n : NodeId} (hn : n ∈ S) :
      (l'.history id).before? bound n = (l.history id).before? bound n := by
    rw [History.before?, History.before?, h.entries_eq hn]
  induction ht with
  | const => exact .const
  | atom hstate hv => exact .atom ((h.states_eq hn).trans hstate) hv
  | and _ _ ihf ihg => exact .and (ihf hn) (ihg hn)
  | or _ _ ihf ihg => exact .or (ihf hn) (ihg hn)
  | @next bound paths f n values _ ih =>
    rw [← h.next_eq hn]
    refine .next values fun m hm => ?_
    rw [h.next_eq hn] at hm
    exact ih m hm (h.closed hn hm)
  | fix he _ ih => exact .fix ((hbefore hn).trans he) fun hv => ih hv hn
  | var hbody he _ ih => exact .var hbody ((hbefore hn).trans he) fun hv => ih hv hn
  | shared hlabel _ ih => exact .shared ((h.labels_eq hn).trans hlabel) (ih hn)

/-- Spaces that agree on nodes that no step leaves give closed formulas the same values there. -/
theorem Same.meaning_eq (h : Same S s s' l l') {f : Formula} (hf : f.Scoped []) {n : NodeId}
    (hn : n ∈ S) : f.meaning s'.kripke (fun _ _ => ⊥) n = f.meaning s.kripke (fun _ _ => ⊥) n := by
  have hprop (s : Space) : f.toProperty.meaning s.kripke (fun _ _ => ⊥) =
      f.meaning s.kripke fun _ _ => ⊥ :=
    hf.meaning_eq fun _ _ hid => by cases hid
  rw [← hprop, ← hprop]
  refine (Property.meaning_agree (S := S) (fun n hn m hm => h.closed hn hm) (fun n hn => ?_)
    (fun a n hn => ?_) (fun _ _ _ => rfl) f.toProperty hn).symm
  · show {m | m ∈ s.next n} = {m | m ∈ s'.next n}
    rw [h.next_eq hn]
  · show s.outcome a n = s'.outcome a n
    rw [Space.outcome, Space.outcome, h.states_eq hn]

/-- Labels stay right in a space that has the same edges and states behind them. -/
theorem Coherent.same (hT : T.Lawful) (hcoh : Coherent s T S l) (h : Same S s s' l l')
    (htimed : Timed l') : Coherent s' T S l' where
  timed := htimed
  right {id f n label} hshare hn hlabel := by
    rw [h.labels_eq hn] at hlabel
    have hright := hcoh.right hshare hn hlabel
    refine ⟨?_, ?_, fun a ha => ?_⟩
    · rw [h.meaning_eq (hT.inScope hshare) hn]
      exact hright.meaning_eq
    · rw [h.time_eq]
      exact hright.traced.same h hn
    · obtain ⟨state, value, hstate, hv⟩ := hright.evaluates a ha
      exact ⟨state, value, (h.states_eq hn).trans hstate, hv⟩

/-! ## Forgetting -/

theorem getElem?_foldl_erase {α : Type} (states : List StateId) (m : TreeMap Nat α) (n : Nat) :
    (states.foldl (fun m id => m.erase id) m)[n]? = if n ∈ states then none else m[n]? := by
  induction states generalizing m with
  | nil => rfl
  | cons id rest ih =>
    rw [List.foldl_cons, ih, TreeMap.getElem?_erase]
    by_cases hid : id = n
    · subst hid
      simp
    · have hmem : n ∈ id :: rest ↔ n ∈ rest := by simp [Ne.symm hid]
      simp only [Std.LawfulEqCmp.compare_eq_iff_eq, hid, hmem, if_false]

theorem labelsOf_purge (l : Labelling) (states : List StateId) (id : Nat) (n : NodeId) :
    ((l.purge states).labelsOf id)[n]? = if n ∈ states then none else (l.labelsOf id)[n]? := by
  rw [labelsOf, labelsOf, purge, TreeMap.getD_eq_getD_getElem?, TreeMap.getD_eq_getD_getElem?,
    TreeMap.getElem?_map]
  cases l.labels[id]? with
  | none => simp
  | some labels => exact getElem?_foldl_erase states labels n

theorem entries_purge (l : Labelling) (states : List StateId) (id : Nat) (n : NodeId) :
    ((l.purge states).history id).entries n =
      if n ∈ states then [] else (l.history id).entries n := by
  rw [history, history, purge, TreeMap.getD_eq_getD_getElem?, TreeMap.getD_eq_getD_getElem?,
    TreeMap.getElem?_map]
  cases l.histories[id]? with
  | none => simp [History.entries]
  | some h =>
    show (states.foldl (fun m s => m.erase s) h.states).getD n [] = _
    rw [TreeMap.getD_eq_getD_getElem?, getElem?_foldl_erase]
    split
    · rfl
    · exact TreeMap.getD_eq_getD_getElem?.symm

theorem timed_purge (ht : Timed l) (states : List StateId) : Timed (l.purge states) := by
  intro id n e he
  rw [entries_purge] at he
  split at he
  · cases he
  · exact ht id n e he

/-- Forgetting states keeps what is known of nodes that lead to none of them. -/
theorem same_purge {states : List StateId} (hclosed : ∀ {n m}, n ∈ S → m ∈ s.next n → m ∈ S)
    (hstates : ∀ n ∈ S, n ∉ states) : Same S s s l (l.purge states) where
  closed := hclosed
  next_eq _ := rfl
  states_eq _ := rfl
  time_eq := rfl
  labels_eq hn := (labelsOf_purge l states _ _).trans (if_neg (hstates _ hn))
  entries_eq hn := (entries_purge l states _ _).trans (if_neg (hstates _ hn))

/-! ## Affected states -/

/-- The stored states that lead to none of some nodes. -/
def clean (s : Space) (D : Set NodeId) : Set NodeId :=
  {n | s.contains n = true ∧ ∀ m, s.Leads n m → m ∉ D}

theorem clean_closed (hs : s.Valid) {D : Set NodeId} {n m : NodeId} (hn : n ∈ clean s D)
    (hm : m ∈ s.next n) : m ∈ clean s D :=
  ⟨hs.target hm, fun k hk => hn.2 k (.head hm hk)⟩

theorem clean_anti {D D' : Set NodeId} (h : D ⊆ D') : clean s D' ⊆ clean s D :=
  fun _ hn => ⟨hn.1, fun m hm hD => hn.2 m hm (h hD)⟩

theorem not_mem_of_clean {D : Set NodeId} {n : NodeId} (hn : n ∈ clean s D) : n ∉ D :=
  hn.2 n .refl

/-- Nodes of a path between stored states are no roots. -/
theorem leads_reverse (hs : s.Valid) {n m : NodeId} :
    ReflTransGen (Step s.backwards.next) m n ↔ s.Leads n m ∧ (n = root → n = m) := by
  constructor
  · intro h
    induction h with
    | refl => exact ⟨.refl, fun _ => rfl⟩
    | tail _ hstep ih =>
      obtain ⟨hprev, hne⟩ := List.mem_filter.1 hstep
      exact ⟨.head (hs.previous_iff.1 hprev) ih.1, fun h => absurd h (bne_iff_ne.1 hne)⟩
  · rintro ⟨h, hroot⟩
    induction h using ReflTransGen.head_induction_on with
    | refl => exact .refl
    | @head a b hab hrest ih =>
      have hb : b ≠ root := (hs.contains_lt (hs.target hab)).1
      refine .tail (ih fun h => absurd h hb) (List.mem_filter.2 ⟨hs.previous_iff.2 hab, ?_⟩)
      refine bne_iff_ne.2 fun ha => ?_
      obtain rfl := hroot ha
      -- a path from the root never comes back to it
      rcases hrest.cases_tail with h | ⟨k, -, hk⟩
      · exact hb (h.symm.trans ha)
      · exact (hs.contains_lt (hs.target hk)).1 ha

/-- The affected states are those that lead to a changed one. -/
theorem mem_affected (hs : s.Valid) (changed : TreeSet StateId) {n : NodeId} (hn : n ≠ root) :
    n ∈ affected s changed ↔ ∃ m, changed.contains m = true ∧ s.Leads n m := by
  have v : Visits s.backwards changed.toList changed (affected s changed) :=
    s.backwards.visits_walk
      (fun n hn => TreeSet.mem_iff_contains.1 (TreeSet.mem_toList.1 hn))
      (TreeSet.distinct_toList.imp Std.ReflCmp.ne_of_cmp_ne_eq)
  constructor
  · intro h
    obtain ⟨m, hm, hpath⟩ := v.reached n h
    exact ⟨m, TreeSet.mem_iff_contains.1 (TreeSet.mem_toList.1 hm), ((leads_reverse hs).1 hpath).1⟩
  · rintro ⟨m, hm, hlead⟩
    have hqueue : m ∈ affected s changed :=
      v.queue_subset m (TreeSet.mem_toList.2 (TreeSet.mem_iff_contains.2 hm))
    refine mem_of_reach (S := {n | n ∈ affected s changed}) (fun k hk j hj => ?_)
      ((leads_reverse hs).2 ⟨hlead, fun h => absurd h hn⟩) hqueue
    rcases v.closed k hk j hj with hseen | hj
    · exact v.queue_subset j (TreeSet.mem_toList.2 (TreeSet.mem_iff_contains.2 hseen))
    · exact hj

/-- If labels are right in the states that lead to no changed one, then all labels that are left
    after forgetting the others are right. -/
theorem coherent_settle (hs : s.Valid) (hT : T.Lawful)
    (hcoh : Coherent s T (clean s {n | l.changed.contains n = true}) l) :
    Coherent s T {n | s.contains n = true} (settle s l) := by
  set S := clean s {n | l.changed.contains n = true} with hS
  have hmem {n : NodeId} (hn : s.contains n = true) : n ∈ S ↔ n ∉ affected s l.changed := by
    rw [mem_affected hs l.changed (hs.contains_lt hn).1, not_exists]
    exact ⟨fun h m hm => h.2 m hm.2 hm.1, fun h => ⟨hn, fun m hm hc => h m ⟨hc, hm⟩⟩⟩
  have htimed : Timed (settle s l) := timed_purge hcoh.timed (affected s l.changed)
  have hpurged : Same S s s l (l.purge (affected s l.changed)) :=
    same_purge (fun hn hm => clean_closed hs hn hm) fun n hn => (hmem hn.1).1 hn
  have hsame : Same S s s l (settle s l) := { hpurged with }
  refine ⟨htimed, fun {id f n label} hshare hn hlabel => ?_⟩
  by_cases haff : n ∈ affected s l.changed
  · have hnone : ((settle s l).labelsOf id)[n]? = none :=
      (labelsOf_purge l (affected s l.changed) id n).trans (if_pos haff)
    rw [hnone] at hlabel
    cases hlabel
  · exact (hcoh.same hT hsame htimed).right hshare ((hmem hn).2 haff) hlabel

end RefineCheck.Labelling
