/-
  RefineCheck.Proofs.Labelling.History

  Recording at a new time appends to the entries of the recorded states: what was there
  before that time stays, and the new entry is the last one.
-/

import Mathlib
import RefineCheck.Labelling

namespace RefineCheck.History

open Std (TreeMap)

/-- Whether every entry of a history is older than a time. -/
def Older (h : History) (time : Nat) : Prop := ∀ n, ∀ e ∈ h.entries n, e.time < time

theorem entries_insert (h : History) (time n m : Nat) (label : Label) :
    (h.insert time n label).entries m =
      if m = n then (h.entries n).takeWhile (fun e => e.time < time) ++ [⟨time, label⟩]
      else h.entries m := by
  rw [insert, entries, TreeMap.getD_insert]
  by_cases hm : m = n
  · rw [if_pos (Std.LawfulEqCmp.compare_eq_iff_eq.2 hm.symm), if_pos hm]
  · rw [if_neg (fun h => hm (Std.LawfulEqCmp.compare_eq_iff_eq.1 h).symm), if_neg hm]
    rfl

theorem takeWhile_of_older {entries : List Entry} {time : Nat} (h : ∀ e ∈ entries, e.time < time) :
    entries.takeWhile (fun e => e.time < time) = entries :=
  List.takeWhile_eq_self_iff.2 fun e he => decide_eq_true (h e he)

/-- A new entry is not seen before its time. -/
theorem takeWhile_append_entry {entries : List Entry} {time bound : Nat} (h : bound ≤ time)
    (label : Label) :
    (entries ++ [(⟨time, label⟩ : Entry)]).takeWhile (fun e => e.time < bound) =
      entries.takeWhile (fun e => e.time < bound) := by
  rw [List.takeWhile_append]
  split
  · rename_i hall
    rw [List.takeWhile_cons_of_neg (by simpa using h), List.append_nil,
      (List.takeWhile_prefix _).eq_of_length hall]
  · rfl

/-- The last entry of a state that has none from a time on. -/
theorem before?_of_older {h : History} {time n : Nat} (hn : ∀ e ∈ h.entries n, e.time < time) :
    h.before? time n = (h.entries n).getLast? := by
  rw [before?, takeWhile_of_older hn]

/-- Records labels of states one after the other at one time. -/
def recordAll (h : History) (time : Nat) (labels : List (Nat × Label)) : History :=
  labels.foldl (fun h (n, label) => h.insert time n label) h

/-- Each recorded state has one more entry. -/
theorem entries_recordAll {h : History} {time : Nat} (hold : h.Older time) (targets : List Nat)
    (label : Nat → Label) (m : Nat) :
    (h.recordAll time (targets.map fun n => (n, label n))).entries m =
      if m ∈ targets then h.entries m ++ [⟨time, label m⟩] else h.entries m := by
  -- a state that occurs twice has its entry replaced by the same one
  suffices hgen : ∀ k : History, (∀ n, k.entries n = h.entries n ∨
      k.entries n = h.entries n ++ [⟨time, label n⟩]) →
      (k.recordAll time (targets.map fun n => (n, label n))).entries m =
        if m ∈ targets then h.entries m ++ [⟨time, label m⟩] else k.entries m from
    hgen h fun _ => .inl rfl
  induction targets with
  | nil => exact fun k _ => (if_neg List.not_mem_nil).symm
  | cons n rest ih =>
    intro k hk
    have hkept : (k.entries n).takeWhile (fun e => e.time < time) = h.entries n := by
      rcases hk n with hn | hn
      · rw [hn, takeWhile_of_older (hold n)]
      · rw [hn, takeWhile_append_entry le_rfl, takeWhile_of_older (hold n)]
    have hstep (j : Nat) : (k.insert time n (label n)).entries j =
        if j = n then h.entries n ++ [⟨time, label n⟩] else k.entries j := by
      rw [entries_insert, hkept]
    have hinv (j : Nat) : (k.insert time n (label n)).entries j = h.entries j ∨
        (k.insert time n (label n)).entries j = h.entries j ++ [⟨time, label j⟩] := by
      rw [hstep]
      by_cases hj : j = n
      · subst hj
        exact .inr (if_pos rfl)
      · rw [if_neg hj]
        exact hk j
    rw [List.map_cons, recordAll, List.foldl_cons]
    refine (ih _ hinv).trans ?_
    rw [hstep]
    grind

theorem older_recordAll {h : History} {time : Nat} (hold : h.Older time) (targets : List Nat)
    (label : Nat → Label) :
    (h.recordAll time (targets.map fun n => (n, label n))).Older (time + 1) := by
  intro n e he
  rw [entries_recordAll hold] at he
  split at he
  · rcases List.mem_append.1 he with he | he
    · exact Nat.lt_succ_of_lt (hold n e he)
    · rw [List.mem_singleton.1 he]
      exact Nat.lt_succ_self time
  · exact Nat.lt_succ_of_lt (hold n e he)

/-- What was recorded before the time stays. -/
theorem before?_recordAll {h : History} {time : Nat} (hold : h.Older time) (targets : List Nat)
    (label : Nat → Label) {bound : Nat} (hb : bound ≤ time) (n : Nat) :
    (h.recordAll time (targets.map fun n => (n, label n))).before? bound n = h.before? bound n := by
  rw [before?, before?, entries_recordAll hold]
  split
  · rw [takeWhile_append_entry hb]
  · rfl

end RefineCheck.History
