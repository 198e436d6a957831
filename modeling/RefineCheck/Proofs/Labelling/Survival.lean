/-
  RefineCheck.Proofs.Labelling.Survival

  What a history holds after any changes, made at any times. A label that was recorded survives until
  the state gets another one at the same time or earlier, the state is removed, or everything is
  cleared. The entries of a state are the labels that survive in the order of their times, so the one
  that is found before a time is the latest survivor that is earlier.
-/

import Mathlib
import RefineCheck.Proofs.Labelling.Settle
import RefineCheck.Proofs.Labelling.Trace

namespace RefineCheck

open Std (TreeMap)

namespace History

variable {entries : List Entry} {e : Entry} {state time bound : Nat} {label : Label}

/-! ## Entries in order -/

/-- Whether each entry is earlier than those after it. -/
def Increasing (entries : List Entry) : Prop := entries.Pairwise fun e f => e.time < f.time

theorem mem_takeWhile_iff (h : Increasing entries) :
    e ∈ entries.takeWhile (fun e => e.time < bound) ↔ e ∈ entries ∧ e.time < bound := by
  induction entries with
  | nil => simp
  | cons f rest ih =>
    obtain ⟨hf, hrest⟩ := List.pairwise_cons.1 h
    by_cases hbound : f.time < bound
    · rw [List.takeWhile_cons_of_pos (by simpa using hbound), List.mem_cons, List.mem_cons, ih hrest]
      constructor
      · rintro (rfl | ⟨hmem, hlt⟩)
        · exact ⟨.inl rfl, hbound⟩
        · exact ⟨.inr hmem, hlt⟩
      · rintro ⟨rfl | hmem, hlt⟩
        · exact .inl rfl
        · exact .inr ⟨hmem, hlt⟩
    · -- what follows is even later
      rw [List.takeWhile_cons_of_neg (by simpa using hbound)]
      refine iff_of_false List.not_mem_nil ?_
      rintro ⟨hmem, hlt⟩
      rcases List.mem_cons.1 hmem with rfl | hmem
      · exact hbound hlt
      · have := hf e hmem
        omega

/-- The last one of increasing entries is the latest. -/
theorem getLast?_eq_some_iff (h : Increasing entries) :
    entries.getLast? = some e ↔ e ∈ entries ∧ ∀ f ∈ entries, f.time ≤ e.time := by
  constructor
  · intro hlast
    obtain ⟨before, rfl⟩ := List.getLast?_eq_some_iff.1 hlast
    refine ⟨List.mem_append_right _ (List.mem_singleton_self e), fun f hf => ?_⟩
    rcases List.mem_append.1 hf with hf | hf
    · exact (List.pairwise_append.1 h).2.2 f hf e (List.mem_singleton_self e) |>.le
    · rw [List.mem_singleton.1 hf]
  · rintro ⟨hmem, hlatest⟩
    obtain ⟨before, after, rfl⟩ := List.append_of_mem hmem
    cases after with
    | nil => exact List.getLast?_eq_some_iff.2 ⟨before, rfl⟩
    | cons f rest =>
      have hlt : e.time < f.time :=
        (List.pairwise_cons.1 (List.pairwise_append.1 h).2.1).1 f List.mem_cons_self
      have hle := hlatest f (List.mem_append_right _ (List.mem_cons_of_mem _ List.mem_cons_self))
      omega

/-- Cutting entries off the end while they are not older leaves all that are older. -/
theorem rdropWhile_eq_takeWhile (h : Increasing entries) :
    entries.rdropWhile (fun e => bound ≤ e.time) = entries.takeWhile fun e => e.time < bound := by
  induction entries using List.reverseRecOn with
  | nil => rfl
  | append_singleton before f ih =>
    obtain ⟨hbefore, -, hf⟩ := List.pairwise_append.1 h
    rw [List.rdropWhile_concat]
    by_cases hbound : bound ≤ f.time
    · rw [if_pos (decide_eq_true hbound), takeWhile_append_entry hbound, ih hbefore]
    · have holder : ∀ e ∈ before ++ [f], e.time < bound := by
        intro e he
        rcases List.mem_append.1 he with he | he
        · have := hf e he f (List.mem_singleton_self f)
          omega
        · rw [List.mem_singleton.1 he]
          omega
      rw [if_neg (by simpa using hbound), takeWhile_of_older holder]

/-! ## Changes -/

/-- A change of a history. -/
inductive Change
  | insert (time state : Nat) (label : Label)
  | remove (states : List Nat)
  | clear

/-- What the change makes of a history. -/
def Change.perform (h : History) : Change → History
  | .insert time state label => h.insert time state label
  | .remove states => h.removeStates states
  | .clear => empty

/-- The history after changes of an empty one. -/
def after (changes : List Change) : History := changes.foldl Change.perform empty

/-- Whether a change is about a state. -/
def Change.concerns (state : Nat) : Change → Bool
  | .insert _ n _ => n = state
  | .remove states => state ∈ states
  | .clear => true

/-- Whether a change makes a state lose the label that it has at a time. -/
def Change.undoes (state time : Nat) : Change → Bool
  | .insert t n _ => n = state ∧ t ≤ time
  | .remove states => state ∈ states
  | .clear => true

/-- Whether a label was recorded for a state at a time and no later change undoes it. -/
def Survives (changes : List Change) (state : Nat) (e : Entry) : Prop :=
  ∃ earlier later, changes = earlier ++ .insert e.time state e.label :: later ∧
    ∀ c ∈ later, c.undoes state e.time = false

/-- What a change does to the entries of a state. -/
def Change.act (state : Nat) (entries : List Entry) : Change → List Entry
  | .insert time n label =>
    if state = n then entries.takeWhile (fun e => e.time < time) ++ [⟨time, label⟩] else entries
  | .remove states => if state ∈ states then [] else entries
  | .clear => []

/-! ## One change -/

theorem entries_removeStates (h : History) (states : List Nat) (state : Nat) :
    (h.removeStates states).entries state = if state ∈ states then [] else h.entries state := by
  rw [entries, removeStates, TreeMap.getD_eq_getD_getElem?, Labelling.getElem?_foldl_erase]
  split
  · rfl
  · exact TreeMap.getD_eq_getD_getElem?.symm

/-- A change acts on the entries of each state alone. -/
theorem entries_perform (h : History) (c : Change) (state : Nat) :
    (c.perform h).entries state = c.act state (h.entries state) := by
  cases c with
  | insert time n label =>
    refine (entries_insert h time n state label).trans ?_
    rw [Change.act]
    split
    · rename_i hn
      rw [hn]
    · rfl
  | remove states => exact entries_removeStates h states state
  | clear => rfl

theorem Change.act_of_not_concerns {c : Change} (hc : c.concerns state = false) :
    c.act state entries = entries := by
  cases c with
  | insert time n label => exact if_neg fun hn => of_decide_eq_false hc hn.symm
  | remove states => exact if_neg (of_decide_eq_false hc)
  | clear => cases hc

theorem increasing_act (h : Increasing entries) (c : Change) : Increasing (c.act state entries) := by
  cases c with
  | insert time n label =>
    rw [Change.act]
    split
    · have hkept := h.sublist (List.takeWhile_sublist fun e => decide (e.time < time))
      refine List.pairwise_append.2 ⟨hkept, List.pairwise_singleton _ _, fun e he f hf => ?_⟩
      rw [List.mem_singleton.1 hf]
      exact ((mem_takeWhile_iff h).1 he).2
    · exact h
  | remove states =>
    rw [Change.act]
    split
    · exact List.Pairwise.nil
    · exact h
  | clear => exact List.Pairwise.nil

/-- A change leaves what it does not undo and adds what it records. -/
theorem mem_act (h : Increasing entries) (c : Change) : e ∈ c.act state entries ↔
    c = .insert e.time state e.label ∨ e ∈ entries ∧ c.undoes state e.time = false := by
  cases c with
  | insert time n label =>
    rw [Change.act, Change.undoes, decide_eq_false_iff_not]
    split
    · rename_i hn
      subst hn
      rw [List.mem_append, mem_takeWhile_iff h, List.mem_singleton, or_comm]
      refine or_congr ⟨?_, ?_⟩ (and_congr_right fun _ => by simp)
      · rintro rfl
        rfl
      · rintro ⟨⟩
        rfl
    · rename_i hn
      constructor
      · exact fun he => .inr ⟨he, fun hc => hn hc.1.symm⟩
      · rintro (hc | ⟨he, -⟩)
        · cases hc
          exact absurd rfl hn
        · exact he
  | remove states =>
    rw [Change.act, Change.undoes, decide_eq_false_iff_not]
    split <;> simp [*]
  | clear => simp [Change.act, Change.undoes]

/-! ## Many changes -/

theorem after_append (changes : List Change) (c : Change) :
    after (changes ++ [c]) = c.perform (after changes) :=
  List.foldl_append

/-- What survives one more change was recorded by it, or survived before and is not undone by it. -/
theorem survives_append {changes : List Change} {c : Change} : Survives (changes ++ [c]) state e ↔
    c = .insert e.time state e.label ∨ Survives changes state e ∧ c.undoes state e.time = false := by
  constructor
  · rintro ⟨earlier, later, heq, hlater⟩
    -- the last change is the recording one if none is later, and else one that undoes nothing
    induction later using List.reverseRecOn with
    | nil => exact .inl (List.append_inj_right' heq rfl |> List.singleton_inj.1)
    | append_singleton later d =>
      rw [← List.cons_append, ← List.append_assoc] at heq
      obtain ⟨rfl, hd⟩ := List.append_inj' heq rfl
      obtain rfl := List.singleton_inj.1 hd
      exact .inr ⟨⟨earlier, later, rfl, fun d hd => hlater d (List.mem_append_left _ hd)⟩,
        hlater c (List.mem_append_right _ (List.mem_singleton_self c))⟩
  · rintro (rfl | ⟨⟨earlier, later, rfl, hlater⟩, hc⟩)
    · exact ⟨changes, [], rfl, fun _ hd => absurd hd List.not_mem_nil⟩
    · refine ⟨earlier, later ++ [c], List.append_assoc _ _ _, fun d hd => ?_⟩
      rcases List.mem_append.1 hd with hd | hd
      · exact hlater d hd
      · rw [List.mem_singleton.1 hd]
        exact hc

theorem increasing_after (changes : List Change) (state : Nat) :
    Increasing ((after changes).entries state) := by
  induction changes using List.reverseRecOn with
  | nil => exact List.Pairwise.nil
  | append_singleton changes c ih =>
    rw [after_append, entries_perform]
    exact increasing_act ih c

/-- The entries of a state are what survives for it. -/
theorem mem_after (changes : List Change) :
    e ∈ (after changes).entries state ↔ Survives changes state e := by
  induction changes using List.reverseRecOn with
  | nil =>
    refine iff_of_false List.not_mem_nil ?_
    rintro ⟨earlier, later, heq, -⟩
    simp at heq
  | append_singleton changes c ih =>
    rw [after_append, entries_perform, mem_act (increasing_after changes state), ih, survives_append]

/-- Changes that are not about a state leave no trace in its entries. -/
theorem entries_after_filter (changes : List Change) (state : Nat) :
    (after changes).entries state = (after (changes.filter (·.concerns state))).entries state := by
  induction changes using List.reverseRecOn with
  | nil => rfl
  | append_singleton changes c ih =>
    rw [after_append, entries_perform, List.filter_append, List.filter_singleton]
    cases hc : c.concerns state with
    | true => rw [cond_true, after_append, entries_perform, ih]
    | false => rw [cond_false, List.append_nil, Change.act_of_not_concerns hc, ih]

/-! ## Answers -/

theorem entryBefore_eq_error_iff {l : Labelling} {id : Nat} :
    l.entryBefore id bound state = .error (.noHistory state bound) ↔
      (l.history id).before? bound state = none := by
  cases h : (l.history id).before? bound state with
  | none =>
    rw [Labelling.entryBefore]
    split
    · rename_i e he
      rw [h] at he
      cases he
    · simp
  | some e =>
    obtain ⟨_, hok⟩ := Labelling.entryBefore_ok h
    simp [hok]

theorem before?_eq_none_iff {h : History} (hinc : Increasing (h.entries state)) :
    h.before? bound state = none ↔ ∀ e ∈ h.entries state, bound ≤ e.time := by
  rw [before?, List.getLast?_eq_none_iff, List.eq_nil_iff_forall_not_mem]
  refine forall_congr' fun e => ?_
  rw [mem_takeWhile_iff hinc, not_and, Nat.not_lt]

theorem before?_eq_some_iff {h : History} (hinc : Increasing (h.entries state)) :
    h.before? bound state = some e ↔ e ∈ h.entries state ∧ e.time < bound ∧
      ∀ f ∈ h.entries state, f.time < bound → f.time ≤ e.time := by
  rw [before?, getLast?_eq_some_iff (hinc.sublist (List.takeWhile_sublist _)), mem_takeWhile_iff hinc,
    and_assoc]
  refine and_congr_right fun _ => and_congr_right fun _ => forall_congr' fun f => ?_
  rw [mem_takeWhile_iff hinc, and_imp]

/-- What a history knows of a state after some changes, and what it answers. -/
structure Remembers (changes : List Change) (state : Nat) : Prop where
  increasing : ((after changes).entries state).Pairwise fun e f => e.time < f.time
  survivors (e : Entry) : e ∈ (after changes).entries state ↔ Survives changes state e
  /-- What a new label replaces is cut off the end. -/
  cuts (time : Nat) (label : Label) : ((after changes).insert time state label).entries state =
    ((after changes).entries state).rdropWhile (fun e => time ≤ e.time) ++ [⟨time, label⟩]
  missing (bound : Nat) : (after changes).before? bound state = none ↔
    ¬ ∃ e, Survives changes state e ∧ e.time < bound
  found (bound : Nat) (e : Entry) : (after changes).before? bound state = some e ↔
    Survives changes state e ∧ e.time < bound ∧
      ∀ f, Survives changes state f → f.time < bound → f.time ≤ e.time
  /-- Asking where nothing is found is a fault. -/
  fault {l : Labelling} {id : Nat} (bound : Nat) : l.history id = after changes →
    (l.entryBefore id bound state = .error (.noHistory state bound) ↔
      ¬ ∃ e, Survives changes state e ∧ e.time < bound)
  unconcerned (bound : Nat) : (after changes).before? bound state =
    (after (changes.filter (·.concerns state))).before? bound state

/-- After any changes, made at any times, the entries of each state have increasing times and are the
    labels that survive. What is found before a time is the latest of them that is earlier, nothing is
    found only if there is none, and changes that are not about the state make no difference. -/
theorem after_remembers (changes : List Change) (state : Nat) : Remembers changes state := by
  have hinc := increasing_after changes state
  have hmissing (bound : Nat) : (after changes).before? bound state = none ↔
      ¬ ∃ e, Survives changes state e ∧ e.time < bound := by
    rw [before?_eq_none_iff hinc, not_exists]
    refine forall_congr' fun e => ?_
    rw [mem_after, not_and, Nat.not_lt]
  refine ⟨hinc, fun e => mem_after changes, fun time label => ?_, hmissing, fun bound e => ?_,
    fun bound hl => ?_, fun bound => ?_⟩
  · rw [entries_insert, if_pos rfl, rdropWhile_eq_takeWhile hinc]
  · rw [before?_eq_some_iff hinc, mem_after]
    refine and_congr_right fun _ => and_congr_right fun _ => forall_congr' fun f => ?_
    rw [mem_after]
  · rw [← hmissing, ← hl]
    exact entryBefore_eq_error_iff
  · rw [before?, before?, entries_after_filter]

/-- Going back in time: the second label at time 5 replaces the first one and the one at time 9, and
    before time 1 there is none. -/
theorem after_remembers_back_in_time :
    let changes : List Change := [.insert 1 3 ⟨.ff, []⟩, .insert 5 3 ⟨.unknown, []⟩,
      .insert 9 3 ⟨.tt, []⟩, .insert 5 3 ⟨.tt, []⟩, .remove [4]]
    let l : Labelling :=
      { property := .const true, formula := .const true, histories := .ofList [(0, after changes)] }
    (after changes).before? 100 3 = some ⟨5, ⟨.tt, []⟩⟩ ∧ l.history 0 = after changes ∧
      l.entryBefore 0 1 3 = .error (.noHistory 3 1) := by
  intro changes l
  have hremembers := after_remembers changes 3
  have hentries : (after changes).entries 3 = [⟨1, ⟨.ff, []⟩⟩, ⟨5, ⟨.tt, []⟩⟩] := rfl
  have hearliest (e : Entry) (he : Survives changes 3 e) : 1 ≤ e.time ∧ e.time ≤ 5 := by
    rw [← hremembers.survivors, hentries] at he
    simp only [List.mem_cons, List.not_mem_nil, or_false] at he
    rcases he with rfl | rfl <;> decide
  refine ⟨(hremembers.found 100 _).2 ⟨?_, by decide, fun f hf _ => (hearliest f hf).2⟩, rfl,
    (hremembers.fault 1 rfl).2 ?_⟩
  · exact (hremembers.survivors _).1 (by rw [hentries]; simp)
  · rintro ⟨e, he, hlt⟩
    have := (hearliest e he).1
    omega

end History

end RefineCheck
