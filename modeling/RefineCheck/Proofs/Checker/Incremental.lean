/-
  RefineCheck.Proofs.Checker.Incremental

  Checking again after the space has changed. If every new state and every node with other
  successors than at the last check was declared, a check decides what a checker that knows
  nothing yet decides. Labels of a state are kept only while all states that it leads to
  have the edges with which the labels were computed.
-/

import RefineCheck.Proofs.Checker.Fresh

namespace RefineCheck

open Formula (Tables)
open Relation (ReflTransGen)
open Std (TreeMap TreeSet)

/-! ## Changes of spaces -/

namespace Space

/-- One operation that changes a space. -/
inductive Mutates (Good : State → Prop) : Space → Space → Prop
  | addStep {s s' : Space} {source : NodeId} {state : State} {input : Record} {id : StateId}
    {inserted : Bool} : Good state → s.addStep source state input = .ok (s', id, inserted) →
    Mutates Good s s'
  | clearStep {s s' : Space} {n : NodeId} {removed : List StateId} :
    s.clearStep n = .ok (s', removed) → Mutates Good s s'
  | sweep (s : Space) : Mutates Good s s.sweep.1
  | collect (s : Space) : Mutates Good s s.collect.1

theorem Mutates.built {Good : State → Prop} {s s' : Space} (h : Mutates Good s s')
    (hs : s.Built Good) : s'.Built Good := by
  cases h with
  | addStep hgood hadd => exact .addStep hs hgood hadd
  | clearStep hclear => exact .clearStep hs hclear
  | sweep => exact .sweep hs
  | collect => exact .collect hs

/-- A number that is not the one of a removed state. -/
def Alive (s : Space) (n : NodeId) : Prop := s.contains n = true ∨ s.nextId ≤ n

/-- States keep their numbers, and the numbers of removed states are not given again. -/
structure Evolves (s s' : Space) : Prop where
  nextId_le : s.nextId ≤ s'.nextId
  states_old {n : NodeId} {st : State} : n < s.nextId → s'.states[n]? = some st →
    s.states[n]? = some st

theorem Evolves.refl (s : Space) : s.Evolves s := ⟨le_rfl, fun _ h => h⟩

theorem Evolves.trans {s s₁ s₂ : Space} (h : s.Evolves s₁) (h' : s₁.Evolves s₂) : s.Evolves s₂ where
  nextId_le := h.nextId_le.trans h'.nextId_le
  states_old hn hst := h.states_old hn (h'.states_old (lt_of_lt_of_le hn h.nextId_le) hst)

theorem Evolves.alive {s s' : Space} (h : s.Evolves s') {n : NodeId} (hn : s'.Alive n) :
    s.Alive n := by
  by_cases hlt : n < s.nextId
  · rcases hn with hn | hn
    · obtain ⟨st, hst⟩ := contains_iff.1 hn
      exact .inl (contains_iff.2 ⟨st, h.states_old hlt hst⟩)
    · exact absurd (h.nextId_le.trans hn) (not_le.2 hlt)
  · exact .inr (not_lt.1 hlt)

theorem Swept.evolves {s s' : Space} {removed : List StateId} (h : Swept s s' removed) :
    s.Evolves s' :=
  ⟨le_of_eq h.nextId_eq.symm, fun _ hst => h.states_subset hst⟩

theorem Mutates.evolves {Good : State → Prop} {s s' : Space} (h : Mutates Good s s')
    (hs : s.Valid) : s.Evolves s' := by
  cases h with
  | addStep _ hadd =>
    have h := added_of_addStep hs hadd
    refine ⟨h.nextId_le, fun {n st} hn hst => ?_⟩
    rcases h.new hst with hst | ⟨rfl, -, hnew⟩
    · exact hst
    · exact absurd (h.fresh hnew) (not_le.2 hn)
  | clearStep hclear =>
    have h := (cleared_of_clearStep hs hclear).1
    exact ⟨le_of_eq h.nextId_eq.symm, fun _ hst => h.states_eq ▸ hst⟩
  | sweep => exact (swept_sweep hs).evolves
  | collect => exact (swept_collect hs).evolves

theorem Valid.not_alive_root {s : Space} (hs : s.Valid) : ¬ s.Alive root := by
  rintro (h | h)
  · exact (hs.contains_lt h).1 rfl
  · exact absurd hs.next_pos (not_lt.2 h)

/-- Successors are listed in increasing order, so the same successors are the same list. -/
theorem next_ext {s s' : Space} {n : NodeId} (h : ∀ m, m ∈ s.next n ↔ m ∈ s'.next n) :
    s.next n = s'.next n := by
  have hsorted (s : Space) : (s.next n).Pairwise (fun a b => a < b) :=
    TreeMap.ordered_keys.imp Nat.compare_eq_lt.1
  exact (hsorted s).eq_of_mem_iff (hsorted s') h

end Space

/-! ## Labellings between checks -/

namespace Labelling

/-- A labelling that was right on an earlier space, up to some states that are out of date. These
    states and the declared ones are still known to have changed. -/
def Tracks (s₀ : Space) (declared : Set NodeId) (s : Space) (p : Property) (l : Labelling) : Prop :=
  ∃ T D, Represents p T l ∧ Coherent s₀ T (clean s₀ D) l ∧
    ∀ n, n ∈ D ∨ n ∈ declared → s.Alive n → l.changed.contains n = true

variable {s₀ s s' : Space} {declared : Set NodeId} {p : Property} {l : Labelling}

theorem Tracks.evolve (h : Tracks s₀ declared s p l) (hs : s.Evolves s') :
    Tracks s₀ declared s' p l := by
  obtain ⟨T, D, hl, hcoh, hchanged⟩ := h
  exact ⟨T, D, hl, hcoh, fun n hn halive => hchanged n hn (hs.alive halive)⟩

theorem Tracks.declare (h : Tracks s₀ declared s p l) (hs₀ : s₀.Valid) (states : List StateId) :
    Tracks s₀ (declared ∪ {n | n ∈ states}) s p (l.declare states) := by
  obtain ⟨T, D, hl, hcoh, hchanged⟩ := h
  have hsame : Same (clean s₀ D) s₀ s₀ l (l.declare states) :=
    ⟨fun hn hm => clean_closed hs₀ hn hm, fun _ => rfl, fun _ => rfl, rfl, fun _ => rfl, fun _ => rfl⟩
  refine ⟨T, D, hl.of_formula rfl, hcoh.same hl.lawful hsame hcoh.timed, fun n hn halive => ?_⟩
  show (l.changed.insertMany states).contains n = true
  rw [contains_insertMany]
  rcases hn with hn | hn | hn
  · exact .inl (hchanged n (.inl hn) halive)
  · exact .inl (hchanged n (.inr hn) halive)
  · exact .inr hn

theorem contains_foldl_erase {states : List StateId} {m : TreeSet StateId} {n : StateId}
    (hn : n ∉ states) : (states.foldl (fun m id => m.erase id) m).contains n = m.contains n := by
  induction states generalizing m with
  | nil => rfl
  | cons id rest ih =>
    rw [List.mem_cons, not_or] at hn
    have hne : compare id n ≠ .eq := fun h => hn.1 (Std.LawfulEqCmp.compare_eq_iff_eq.1 h).symm
    rw [List.foldl_cons, ih hn.2, TreeSet.contains_erase, bne_iff_ne.2 hne, Bool.true_and]

/-- The labels of states that are removed are forgotten; those of states that led to them are out of
    date, but nothing that is stored now leads to them any more. -/
theorem Tracks.remove (h : Tracks s₀ declared s p l) (hs₀ : s₀.Valid) {states : List StateId}
    (hstates : ∀ n ∈ states, ¬ s.Alive n) : Tracks s₀ declared s p (l.removeStates states) := by
  obtain ⟨T, D, hl, hcoh, hchanged⟩ := h
  set S := clean s₀ (D ∪ {n | n ∈ states}) with hS
  have hpurged : Same S s₀ s₀ l (l.purge states) :=
    same_purge (fun hn hm => clean_closed hs₀ hn hm) fun n hn hmem => not_mem_of_clean hn (.inr hmem)
  have hsame : Same S s₀ s₀ l (l.removeStates states) := { hpurged with }
  have hcoh' : Coherent s₀ T S l := hcoh.mono (clean_anti Set.subset_union_left)
  refine ⟨T, _, hl.of_formula rfl, hcoh'.same hl.lawful hsame (timed_purge hcoh.timed states),
    fun n hn halive => ?_⟩
  have hnot : n ∉ states := fun hmem => hstates n hmem halive
  show (states.foldl (fun m id => m.erase id) l.changed).contains n = true
  rw [contains_foldl_erase hnot]
  refine hchanged n ?_ halive
  rcases hn with (hn | hn) | hn
  · exact .inl hn
  · exact absurd hn hnot
  · exact .inr hn

/-- A labelling that knows nothing yet is right on every space. -/
theorem Represents.tracks_clear {T : Tables} (hl : Represents p T l) (s : Space) :
    Tracks s ∅ s p l.clear :=
  ⟨T, ∅, hl.of_formula rfl, coherent_blank s T _ l.property l.formula,
    fun _ hn => (hn.elim id id).elim⟩

theorem tracks_of_clear (h : Tracks s₀ declared s p l) : Tracks s ∅ s p l.clear := by
  obtain ⟨T, D, hl, -, -⟩ := h
  exact hl.tracks_clear s

/-- If all changes since the last check were declared, the labels that settling keeps are right. -/
theorem Tracks.coherent (h : Tracks s₀ declared s p l) (hs₀ : s₀.Valid) (hs : s.Valid)
    (hevolves : s₀.Evolves s)
    (hannounced : ∀ n, s.contains n = true → n ∉ declared →
      s₀.contains n = true ∧ s.next n = s₀.next n) :
    ∃ T, Represents p T l ∧ Coherent s T (clean s {n | l.changed.contains n = true}) l := by
  obtain ⟨T, D, hl, hcoh, hchanged⟩ := h
  set S := clean s {n | l.changed.contains n = true} with hS
  have hout {n : NodeId} (hn : n ∈ S) : n ∉ D ∧ n ∉ declared :=
    not_or.1 fun hor => not_mem_of_clean hn (hchanged n hor (.inl hn.1))
  have hold {n : NodeId} (hn : n ∈ S) : s₀.contains n = true ∧ s.next n = s₀.next n :=
    hannounced n hn.1 (hout hn).2
  have hclosed {n m : NodeId} (hn : n ∈ S) (hm : m ∈ s₀.next n) : m ∈ S :=
    clean_closed hs hn ((hold hn).2 ▸ hm)
  have hsub : S ⊆ clean s₀ D := fun n hn =>
    ⟨(hold hn).1, fun m hm => (hout (mem_of_reach (fun _ hk _ hj => hclosed hk hj) hm hn)).1⟩
  have hsame : Same S s₀ s l l := by
    refine ⟨fun hn hm => hclosed hn hm, fun hn => (hold hn).2, fun {n} hn => ?_, rfl,
      fun _ => rfl, fun _ => rfl⟩
    obtain ⟨st, hst⟩ := Space.contains_iff.1 hn.1
    rw [hst, hevolves.states_old (hs₀.contains_lt (hold hn).1).2 hst]
  exact ⟨T, hl, (hcoh.mono hsub).same hl.lawful hsame hcoh.timed⟩

/-- A labelling that is right up to its changed states is tracked from now on. -/
theorem tracks_of_coherent {T : Tables} (hl : Represents p T l)
    (hcoh : Coherent s T (clean s {n | l.changed.contains n = true}) l) : Tracks s ∅ s p l :=
  ⟨T, _, hl, hcoh, fun _ hn _ => hn.resolve_right id⟩

/-- A check decides the property and leaves a labelling that is right on the space. -/
theorem decides_and_tracks {T : Tables} (hs : s.Valid)
    (hgood : ∀ {n : NodeId} {st : State}, s.states[n]? = some st → st.Nonempty)
    (hl : Represents p T l)
    (hcoh : Coherent s T (clean s {n | l.changed.contains n = true}) l) :
    Checker.Decides s p (exec (check s) l).1 ∧ Tracks s ∅ s p (exec (check s) l).2 := by
  have hsettled := coherent_settle hs hl.lawful hcoh
  refine ⟨Checker.decides_check hs hgood hl hsettled, ?_⟩
  cases htotal : s.isLeftTotal with
  | false =>
    rw [exec_check_of_not_total htotal]
    exact tracks_of_coherent hl hcoh
  | true =>
    have h := checks_check hs hgood htotal hl.prepared hl.lawful hl.agree hl.body? hsettled
    refine tracks_of_coherent (hl.of_formula h.later.formula_eq) (h.coherent.mono ?_)
    exact fun n hn => hn.1

end Labelling

/-! ## Runs -/

/-- A space and a checker, with what the rules for declaring changes refer to. -/
structure Trace where
  /-- The space as it was at the last check. -/
  baseline : Space
  /-- The nodes that were declared since then. -/
  declared : Set NodeId
  space : Space
  checker : Checker

namespace Trace

/-- The trace that begins with a checker without properties. -/
def start (s : Space) : Trace := ⟨s, ∅, s, .empty⟩

/-- Whether every state that is new or has other successors than at the last check was declared. -/
def Announced (t : Trace) : Prop :=
  ∀ n, t.space.contains n = true →
    (t.baseline.contains n = false ∨ ¬ ∀ m, m ∈ t.space.next n ↔ m ∈ t.baseline.next n) →
    n ∈ t.declared

/-- One operation on the space or on the checker. Only removed states are declared as removed, and
    properties are checked only after all changes were declared. -/
inductive Step : Trace → Trace → Prop
  | mutate {t : Trace} {s : Space} : t.space.Mutates State.Nonempty s → Step t { t with space := s }
  | declare (t : Trace) (new : List StateId) (changed : List NodeId) :
    Step t { t with
      declared := t.declared ∪ {n | n ∈ new ∨ n ∈ changed}
      checker := t.checker.declareRegeneration new changed }
  | remove {t : Trace} {states : List StateId} : (∀ n ∈ states, ¬ t.space.Alive n) →
    Step t { t with checker := t.checker.removeStates states }
  | purge (t : Trace) : Step t ⟨t.space, ∅, t.space, t.checker.purge⟩
  | check {t : Trace} {text : String} {p : Property} : t.Announced → Property.parse text = .ok p →
    Step t ⟨t.space, ∅, t.space, (t.checker.check t.space p).2⟩

/-- What holds of every run. -/
structure Tracked (t : Trace) : Prop where
  baseline_valid : t.baseline.Valid
  built : t.space.Built State.Nonempty
  evolves : t.baseline.Evolves t.space
  tracks {key : String} {l : Labelling} : t.checker.labellings[key]? = some l →
    ∃ p, p.Parsed ∧ p.key = key ∧ l.Tracks t.baseline t.declared t.space p

variable {t t' : Trace}

theorem tracked_start {s : Space} (hs : s.Built State.Nonempty) : (start s).Tracked :=
  ⟨hs.valid, hs, .refl s, fun h => by simp [start, Checker.empty] at h⟩

theorem announced_start (s : Space) : (start s).Announced := by
  rintro n hn (hnew | hedges)
  · exact absurd (show s.contains n = true from hn) (Bool.eq_false_iff.1 hnew)
  · exact absurd (fun _ => Iff.rfl) hedges

theorem Announced.unchanged (h : t.Announced) (n : NodeId) (hn : t.space.contains n = true)
    (hd : n ∉ t.declared) : t.baseline.contains n = true ∧ t.space.next n = t.baseline.next n := by
  have hnot := not_or.1 fun hor => hd (h n hn hor)
  exact ⟨Bool.not_eq_false _ ▸ hnot.1, Space.next_ext (not_not.1 hnot.2)⟩

/-- Changing every labelling of a checker keeps what each of them keeps. -/
theorem tracks_map {c : Checker} {f : Labelling → Labelling} {s₀ s s₀' s' : Space}
    {declared declared' : Set NodeId} {key : String} {l : Labelling}
    (h : ∀ {key l}, c.labellings[key]? = some l →
      ∃ p : Property, p.Parsed ∧ p.key = key ∧ l.Tracks s₀ declared s p)
    (hf : ∀ {p : Property} {l : Labelling}, l.Tracks s₀ declared s p →
      (f l).Tracks s₀' declared' s' p)
    (hl : (c.map f).labellings[key]? = some l) :
    ∃ p : Property, p.Parsed ∧ p.key = key ∧ l.Tracks s₀' declared' s' p := by
  rw [Checker.map, TreeMap.getElem?_map, Option.map_eq_some_iff] at hl
  obtain ⟨l₀, hl₀, rfl⟩ := hl
  obtain ⟨p, hp, hkey, htracks⟩ := h hl₀
  exact ⟨p, hp, hkey, hf htracks⟩

/-- A check starts from the labelling that the checker has of the property, or from a new one. It is
    right up to its changed states. -/
theorem Tracked.start_of_check (h : t.Tracked) (hann : t.Announced) {p : Property}
    (hp : p.Parsed) :
    ∃ l T, (t.checker.labellings[p.key]? = some l ∨ Labelling.ofProperty p = .ok l) ∧
      t.checker.check t.space p = ((Labelling.exec (Labelling.check t.space) l).1,
        ⟨t.checker.labellings.insert p.key (Labelling.exec (Labelling.check t.space) l).2⟩) ∧
      l.Represents p T ∧ Labelling.Coherent t.space T
        (Labelling.clean t.space {n | l.changed.contains n = true}) l := by
  cases hl : t.checker.labellings[p.key]? with
  | some l =>
    obtain ⟨q, hq, hkey, htracks⟩ := h.tracks hl
    obtain rfl := Property.key_injective hq.wellNamed hp.wellNamed hkey
    obtain ⟨T, hrepresents, hcoh⟩ :=
      htracks.coherent h.baseline_valid h.built.valid h.evolves hann.unchanged
    exact ⟨l, T, .inl rfl, Checker.check_of_known hl t.space, hrepresents, hcoh⟩
  | none =>
    obtain ⟨f, T, hnew, hrepresents⟩ := Labelling.ofProperty_ok hp
    exact ⟨_, T, .inr hnew, Checker.check_of_new hl hnew t.space, hrepresents,
      Labelling.coherent_blank t.space T _ p f⟩

/-- One operation keeps the invariant. -/
theorem Tracked.step (h : t.Tracked) (hstep : t.Step t') : t'.Tracked := by
  have hv := h.built.valid
  cases hstep with
  | mutate hm =>
    have he := hm.evolves hv
    refine ⟨h.baseline_valid, hm.built h.built, h.evolves.trans he, fun hl => ?_⟩
    obtain ⟨p, hp, hkey, htracks⟩ := h.tracks hl
    exact ⟨p, hp, hkey, htracks.evolve he⟩
  | declare new changed =>
    refine ⟨h.baseline_valid, h.built, h.evolves, tracks_map h.tracks fun {p l} htracks => ?_⟩
    obtain ⟨T, D, hl, hcoh, hchanged⟩ :=
      htracks.declare h.baseline_valid (new ++ changed.filter fun n => n != root)
    refine ⟨T, D, hl, hcoh, fun n hn halive => hchanged n (hn.imp_right fun hn => ?_) halive⟩
    refine hn.imp_right fun hn => List.mem_append.2 (hn.imp_right fun hc => ?_)
    refine List.mem_filter.2 ⟨hc, bne_iff_ne.2 ?_⟩
    -- the root has no label, so that a change of its edges need not be remembered
    rintro rfl
    exact hv.not_alive_root halive
  | remove hdead =>
    exact ⟨h.baseline_valid, h.built, h.evolves,
      tracks_map h.tracks fun htracks => htracks.remove h.baseline_valid hdead⟩
  | purge =>
    exact ⟨hv, h.built, .refl _, tracks_map h.tracks Labelling.tracks_of_clear⟩
  | @check text p hann hparse =>
    have hp := Property.parsed_of_parse hparse
    obtain ⟨l, T, -, hcheck, hrepresents, hcoh⟩ := h.start_of_check hann hp
    refine ⟨hv, h.built, .refl _, fun {key l'} hl' => ?_⟩
    rw [hcheck, TreeMap.getElem?_insert] at hl'
    split at hl'
    · rename_i hkey
      obtain rfl := Option.some.inj hl'
      exact ⟨p, hp, Std.LawfulEqCmp.compare_eq_iff_eq.1 hkey,
        (Labelling.decides_and_tracks hv (fun hst => h.built.good hst) hrepresents hcoh).2⟩
    · -- the other labellings have their changes still before them
      obtain ⟨q, hq, hkey, htracks⟩ := h.tracks hl'
      obtain ⟨T', hrepresents', hcoh'⟩ :=
        htracks.coherent h.baseline_valid hv h.evolves hann.unchanged
      exact ⟨q, hq, hkey, Labelling.tracks_of_coherent hrepresents' hcoh'⟩

/-- Every run keeps the invariant. -/
theorem Tracked.run (h : t.Tracked) (hrun : ReflTransGen Step t t') : t'.Tracked := by
  induction hrun with
  | refl => exact h
  | tail _ hstep ih => exact ih.step hstep

/-- A check decides the property if all changes were declared. -/
theorem Tracked.decides (h : t.Tracked) (hann : t.Announced) {p : Property} (hp : p.Parsed) :
    Checker.Decides t.space p (t.checker.check t.space p).1 := by
  obtain ⟨l, T, -, hcheck, hrepresents, hcoh⟩ := h.start_of_check hann hp
  rw [hcheck]
  exact (Labelling.decides_and_tracks h.built.valid (fun hst => h.built.good hst) hrepresents hcoh).1

end Trace

/-- What is decided of a property is determined by the space. -/
theorem Checker.Decides.verdict_eq {s : Space} {p : Property} {r r' : Except CheckError Conclusion}
    (h : Decides s p r) (h' : Decides s p r') :
    r.toOption.map Conclusion.value? = r'.toOption.map Conclusion.value? := by
  cases htotal : s.isLeftTotal with
  | false => rw [h.dead htotal, h'.dead htotal]
  | true =>
    by_cases hp : s.Interprets p
    · obtain ⟨c, rfl, hc⟩ := h.value htotal hp
      obtain ⟨c', rfl, hc'⟩ := h'.value htotal hp
      exact congrArg some (hc.value_eq.trans hc'.value_eq.symm)
    · obtain ⟨cause, rfl, -⟩ := h.failed htotal hp
      obtain ⟨cause', rfl, -⟩ := h'.failed htotal hp
      rfl

/-- Checking after changes is checking from scratch: both conclude with the same value, both with
    an unknown one, or both fail. -/
theorem Trace.check_eq_scratch {s : Space} {t : Trace} {text : String} {p : Property}
    (hs : s.Built State.Nonempty) (hrun : ReflTransGen Step (start s) t) (hann : t.Announced)
    (hp : Property.parse text = .ok p) :
    (t.checker.check t.space p).1.toOption.map Conclusion.value? =
      (Checker.empty.check t.space p).1.toOption.map Conclusion.value? := by
  have h := (tracked_start hs).run hrun
  have hparsed := Property.parsed_of_parse hp
  exact (h.decides hann hparsed).verdict_eq
    (Checker.decides_empty h.built.valid (fun hst => h.built.good hst) hparsed)

theorem Trace.run_extend {t : Trace} (source : NodeId) {state : State} (hgood : state.Nonempty) :
    ReflTransGen Step t { t with space := t.space.extend source state } := by
  rw [Space.extend]
  split
  · rename_i hadd
    exact .single (.mutate (.addStep hgood hadd))
  · exact .refl

/-- A state without fields that panics. -/
def State.panics : State := ⟨Value.ofNat panicWidth 1, .empty⟩

/-- A check, two new steps to a state that panics, and another check. -/
theorem Trace.check_eq_scratch_grown :
    ∃ t p, ReflTransGen Step (start .loop) t ∧ t.Announced ∧ t.space.stateIds = [1, 2] ∧
      Property.parse "AG![__panic == 0]" = .ok p ∧
      (t.checker.check t.space p).1.toOption.map Conclusion.value? =
        (Checker.empty.check t.space p).1.toOption.map Conclusion.value? := by
  have hgood : State.panics.Nonempty := ⟨⟨1, Reduced.has_iff.1 (by decide +kernel)⟩, nofun⟩
  have hp : Property.parse "AG![__panic == 0]" =
      .ok (.always .all (.atom ⟨"__panic", none, .signless, .eq, 0⟩)) := by
    decide +kernel
  have hrun (s : Space) : ReflTransGen Step (start s) ⟨s, ∅ ∪ {n | n ∈ [2] ∨ n ∈ [1]},
      (s.extend 1 .panics).extend 2 .panics,
      (Checker.empty.check s _).2.declareRegeneration [2] [1]⟩ :=
    (((ReflTransGen.single (.check (announced_start s) hp)).trans (run_extend 1 hgood)).trans
      (run_extend 2 hgood)).tail (.declare _ [2] [1])
  have hids : ((Space.loop.extend 1 .panics).extend 2 .panics).stateIds = [1, 2] := by
    decide +kernel
  have hann (s₀ s : Space) (c : Checker) (hids : s.stateIds = [1, 2]) :
      Trace.Announced ⟨s₀, ∅ ∪ {n | n ∈ [2] ∨ n ∈ [1]}, s, c⟩ := by
    intro n hn _
    have hmem : n ∈ [1, 2] := by
      rw [← hids, Space.stateIds, TreeMap.mem_keys, TreeMap.mem_iff_contains]
      exact hn
    refine .inr ?_
    simpa [or_comm] using hmem
  exact ⟨_, _, hrun .loop, hann _ _ _ hids, hids, hp,
    check_eq_scratch Space.built_loop (hrun .loop) (hann _ _ _ hids) hp⟩

end RefineCheck
