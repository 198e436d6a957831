/-
  RefineCheck.Proofs.Verifier.Progress

  Refinement makes progress. A pass that reports no error gives some node a mark that tells more apart
  and takes nothing from the mark of any node. What is not told apart at the states of the template's
  shape therefore shrinks, whichever nodes these states have and had.
-/

import Mathlib
import RefineCheck.Proofs.Verifier.Exploration
import RefineCheck.Proofs.Verifier.Settled

namespace RefineCheck.Verifier

open VerifyM (Ensures exec)

variable {system : TransitionSystem} {hsys : system.Conforms} {v w u : Verifier} {node : NodeId}
  {culprit : Culprit} {fuel inner : Nat} {stop : Stop} {c : Prop} {i : Improvement}
  {except : Option NodeId}

/-! ## Tidy verifiers -/

/-- Whether what the comparison of a culprit reads has a mark. -/
def Readable (system : TransitionSystem) (culprit : Culprit) : Prop :=
  ∃ m, culpritMark system.stateTemplate culprit.atomic = .ok m ∧ m.Fits system.stateTemplate.shape

/-- A verifier whose marks build on the default ones, whose edges have inputs of the right shape, and
    whose culprit has a mark. -/
structure Tidy (system : TransitionSystem) (v : Verifier) : Prop where
  fed : v.space.Fed system.inputTemplate.shape
  inputs : v.inputPrecision.Based (RecordMark.marks system.inputTemplate.shape)
  steps : v.stepPrecision.Based (StateMark.marks system.stateTemplate.shape)
  readable {key : String} {culprit : Culprit} : v.pending = some (key, culprit) →
    Readable system culprit

theorem fed_empty (t : Shape) : Space.empty.Fed t := by
  intro n m r hr
  simp [Space.input?, Space.empty] at hr

theorem tidy_of_empty (hspace : v.space = .empty) (hin : v.inputPrecision.entries = {})
    (hstep : v.stepPrecision.entries = {}) (hpending : v.pending = none) : v.Tidy system where
  fed := hspace ▸ fed_empty _
  inputs := Precision.based_of_entries hin
  steps := Precision.based_of_entries hstep
  readable h := by simp [hpending] at h

theorem tidy_invalidate (v : Verifier) : v.invalidate.Tidy system := tidy_of_empty rfl rfl rfl rfl

/-! ## What is told apart -/

/-- Whether a verifier tells no less apart at any state than another one. -/
structure Finer (system : TransitionSystem) (v w : Verifier) : Prop where
  input (σ : Option State) :
    v.inputPrecision.effective (RecordMark.marks system.inputTemplate.shape) σ ⊆
      w.inputPrecision.effective (RecordMark.marks system.inputTemplate.shape) σ
  step (σ : Option State) :
    v.stepPrecision.effective (StateMark.marks system.stateTemplate.shape) σ ⊆
      w.stepPrecision.effective (StateMark.marks system.stateTemplate.shape) σ

theorem finer_of_same (hin : w.inputPrecision = v.inputPrecision)
    (hstep : w.stepPrecision = v.stepPrecision) : Finer system v w :=
  ⟨fun _ => hin ▸ subset_rfl, fun _ => hstep ▸ subset_rfl⟩

theorem Finer.trans (h : Finer system v w) (h' : Finer system w u) : Finer system v u :=
  ⟨fun σ => (h.input σ).trans (h'.input σ), fun σ => (h.step σ).trans (h'.step σ)⟩

/-- How many bits a verifier does not tell apart: of inputs and of states, each at all states. -/
noncomputable def gap (system : TransitionSystem) (v : Verifier) : Nat :=
  v.inputPrecision.gap (RecordMark.marks system.inputTemplate.shape) system.stateTemplate.shape
      (positions system.inputTemplate.shape.length) +
    v.stepPrecision.gap (StateMark.marks system.stateTemplate.shape) system.stateTemplate.shape
      (positions (system.stateTemplate.shape.length + 1))

/-- The number of bits that may have to be told apart. -/
noncomputable def gapBound (system : TransitionSystem) : Nat :=
  (Precision.cells system.stateTemplate.shape
      (positions system.inputTemplate.shape.length)).ncard +
    (Precision.cells system.stateTemplate.shape
      (positions (system.stateTemplate.shape.length + 1))).ncard

theorem gap_le_gapBound (system : TransitionSystem) (v : Verifier) : v.gap system ≤ gapBound system :=
  Nat.add_le_add (Precision.gap_le (finite_positions _) _) (Precision.gap_le (finite_positions _) _)

theorem Finer.gap_le (h : Finer system v w) : w.gap system ≤ v.gap system :=
  Nat.add_le_add (Precision.gap_mono (finite_positions _) h.input)
    (Precision.gap_mono (finite_positions _) h.step)

/-- Whether a verifier tells more apart at a state than another one. -/
def FinerAt (system : TransitionSystem) (v w : Verifier) (σ : Option State) : Prop :=
  v.inputPrecision.effective (RecordMark.marks system.inputTemplate.shape) σ ⊂
      w.inputPrecision.effective (RecordMark.marks system.inputTemplate.shape) σ ∨
    v.stepPrecision.effective (StateMark.marks system.stateTemplate.shape) σ ⊂
      w.stepPrecision.effective (StateMark.marks system.stateTemplate.shape) σ

/-- Whether the precisions of a verifier are for the nodes of its space. -/
structure Belongs (system : TransitionSystem) (v : Verifier) : Prop where
  input : v.inputPrecision.BelongsTo (RecordMark.marks system.inputTemplate.shape)
    system.stateTemplate.shape v.space
  step : v.stepPrecision.BelongsTo (StateMark.marks system.stateTemplate.shape)
    system.stateTemplate.shape v.space

theorem Tidy.belongs (h : v.Tidy system) (hv : v.Generated hsys.contract)
    (hground : v.Grounded except) : v.Belongs system := by
  have hfits {n : NodeId} {st : State} (hst : v.space.states[n]? = some st) :
      st.Fits system.stateTemplate.shape := hsys.contract.fits (hv.built.good hst)
  exact ⟨⟨hv.input, h.inputs, hground.inputs, hground.space_valid, hfits⟩,
    ⟨hv.step, h.steps, hground.steps, hground.space_valid, hfits⟩⟩

/-- A more precise mark tells more apart at the state of its node, and leaves less to tell apart. -/
theorem Sharpens.refined (hi : v.Sharpens system i) (h : v.Refined i w) (hv : v.Belongs system)
    (htidy : v.Tidy system) :
    w.Tidy system ∧ Finer system v w ∧ FinerAt system v w v.space.states[i.node]? ∧
      w.gap system < v.gap system := by
  cases h with
  | step _ hinsert =>
    cases hi with
    | step hold hgrows hfits =>
      have hsharp := hv.step.sharpened (finite_positions _) hold hgrows
        (StateMark.marked_subset hfits) hinsert
      exact ⟨⟨htidy.fed, htidy.inputs, hsharp.based, htidy.readable⟩,
        ⟨fun _ => subset_rfl, hsharp.subset⟩, .inr hsharp.strict,
        Nat.add_lt_add_left hsharp.gap_lt _⟩
  | input _ hinsert =>
    cases hi with
    | input hold hgrows hfits =>
      have hsharp := hv.input.sharpened (finite_positions _) hold hgrows
        (RecordMark.marked_subset hfits) hinsert
      exact ⟨⟨htidy.fed, hsharp.based, htidy.steps, htidy.readable⟩,
        ⟨hsharp.subset, fun _ => subset_rfl⟩, .inl hsharp.strict,
        Nat.add_lt_add_right hsharp.gap_lt _⟩

/-! ## Marks of nodes -/

/-- Whether a precision gives the nodes of a space marks that tell no less apart than those of the
    nodes that had the same states before. -/
def NoCoarser {M : Type} [Refinable M] (marked : M → Set (Nat × Nat × Nat)) (q : Precision M)
    (s : Space) (q' : Precision M) (s' : Space) : Prop :=
  ∀ n m, n = root ∨ s.contains n = true → m = root ∨ s'.contains m = true →
    s.states[n]? = s'.states[m]? →
    ∃ old new, q.get s n = .ok old ∧ q'.get s' m = .ok new ∧ marked old ⊆ marked new

/-- Whether no mark of a node is smaller than that of a node that had the same state before. -/
def KeepsMarks (v w : Verifier) : Prop :=
  NoCoarser RecordMark.marked v.inputPrecision v.space w.inputPrecision w.space ∧
    NoCoarser StateMark.marked v.stepPrecision v.space w.stepPrecision w.space

/-- Whether some mark of a node is larger than before. -/
def EnlargesMark (v w : Verifier) : Prop :=
  ∃ n, (∃ old new, v.inputPrecision.get v.space n = .ok old ∧
      w.inputPrecision.get w.space n = .ok new ∧ old.marked ⊂ new.marked) ∨
    ∃ old new, v.stepPrecision.get v.space n = .ok old ∧
      w.stepPrecision.get w.space n = .ok new ∧ old.marked ⊂ new.marked

section Comparison

variable {M : Type} [Refinable M] {L : Marks M} {t : Shape} {q q' : Precision M} {s s' : Space}

/-- What is told apart at the states decides which marks their nodes have. -/
theorem noCoarser_of_effective (hq : q.BelongsTo L t s) (hq' : q'.BelongsTo L t s')
    (h : ∀ σ, q.effective L σ ⊆ q'.effective L σ) : NoCoarser L.marked q s q' s' := by
  intro n m hn hm hstate
  obtain ⟨old, hold, hmarked⟩ := hq.exists_get hn
  obtain ⟨new, hnew, hmarked'⟩ := hq'.exists_get hm
  refine ⟨old, new, hold, hnew, ?_⟩
  rw [hmarked, hmarked', hstate]
  exact h _

theorem larger_of_effective (hq : q.BelongsTo L t s) (hq' : q'.BelongsTo L t s') {n : NodeId}
    (hn : n = root ∨ s.contains n = true) (hn' : n = root ∨ s'.contains n = true)
    (hstate : s'.states[n]? = s.states[n]?)
    (h : q.effective L s.states[n]? ⊂ q'.effective L s.states[n]?) :
    ∃ old new, q.get s n = .ok old ∧ q'.get s' n = .ok new ∧ L.marked old ⊂ L.marked new := by
  obtain ⟨old, hold, hmarked⟩ := hq.exists_get hn
  obtain ⟨new, hnew, hmarked'⟩ := hq'.exists_get hn'
  refine ⟨old, new, hold, hnew, ?_⟩
  rw [hmarked, hmarked', hstate]
  exact h

end Comparison

theorem Finer.keepsMarks (h : Finer system v w) (hv : v.Belongs system) (hw : w.Belongs system) :
    KeepsMarks v w :=
  ⟨noCoarser_of_effective hv.input hw.input h.input, noCoarser_of_effective hv.step hw.step h.step⟩

theorem FinerAt.enlargesMark (h : FinerAt system v w v.space.states[node]?)
    (hnode : v.HasNode node) (hnode' : w.HasNode node)
    (hstate : w.space.states[node]? = v.space.states[node]?) (hv : v.Belongs system)
    (hw : w.Belongs system) : EnlargesMark v w :=
  ⟨node, h.imp (larger_of_effective hv.input hw.input hnode hnode' hstate)
    (larger_of_effective hv.step hw.step hnode hnode' hstate)⟩

/-! ## Passes of a refinement -/

/-- A verifier that is refined along a path of its space. -/
structure Refining (hsys : system.Conforms) (culprit : Culprit) (v : Verifier) : Prop where
  idle : v.Idle
  consistent : v.Consistent hsys.contract
  tidy : v.Tidy system
  links : v.space.Links (root :: culprit.path)
  readable : Readable system culprit

theorem Refining.belongs (hv : v.Refining hsys culprit) : v.Belongs system :=
  hv.tidy.belongs hv.consistent.toGenerated hv.idle.toGrounded

/-- A pass finds a more precise mark, or nothing, unless the system fails. -/
theorem Refining.walkSpec (hv : v.Refining hsys culprit) {mark : StateMark}
    (hmark : culpritMark v.system.stateTemplate culprit.atomic = .ok mark) :
    v.WalkSpec system (v.improvement? (edgesBack culprit.path) mark none) := by
  obtain ⟨m, hm, hfits⟩ := hv.readable
  rw [hv.consistent.system_eq] at hmark
  obtain rfl := Except.ok.inj (hmark.symm.trans hm)
  refine improvement?_spec hv.consistent.toGenerated hv.tidy.fed (fun e he => ?_) hfits nofun
  exact hv.links.mem_next (List.mem_reverse.1 he)

/-- What a pass does to the marks. It fails because of the system only, or since nothing can be
    refined, and then changes nothing. -/
theorem Refining.pass (hv : v.Refining hsys culprit) (fuel : Nat) :
    Ensures (refineOnce fuel culprit) v
      (fun _ w => w.Tidy system ∧ Finer system v w ∧ w.gap system < v.gap system ∧
        ∃ n, v.HasNode n ∧ w.space.states[n]? = v.space.states[n]? ∧
          FinerAt system v w v.space.states[n]?)
      (fun stop w => Mild (generationFuel system ≤ fuel) stop ∧
        (stop = .failure .incomplete → w = v) ∨ stop.Spatial) := by
  refine ensures_refineOnce (fun {cause} hmark => ?_) (fun {mark stop} hmark hstop => ?_)
    (.inl ⟨mild_failure _, fun _ => rfl⟩) fun {mark i w} hmark hfound hw => ?_
  · -- the mark of the culprit can be read
    obtain ⟨m, hm, -⟩ := hv.readable
    rw [hv.consistent.system_eq, hm] at hmark
    cases hmark
  · rcases hv.walkSpec hmark with ⟨cause, hfailure⟩ | ⟨found, hok, -⟩
    · obtain rfl := Except.error.inj (hstop.symm.trans hfailure)
      exact .inl ⟨mild_failure _, fun _ => rfl⟩
    · rw [hstop] at hok
      cases hok
  · -- what the walk finds is a refinement, which narrows the gap
    have hsharpens : v.Sharpens system i := by
      rcases hv.walkSpec hmark with ⟨cause, hfailure⟩ | ⟨found, hok, hall⟩
      · rw [hfound] at hfailure
        cases hfailure
      · exact hall i (Except.ok.inj (hok.symm.trans hfound))
    obtain ⟨htidy, hfiner, hat, hgap⟩ := hsharpens.refined hw hv.belongs hv.tidy
    have hspace : w.space = v.space := by rw [hw.frame]
    have hchecker : w.checker = v.checker := by rw [hw.frame]
    have hconsistent := hv.consistent.usable
      (hv.consistent.toUsable.refined hv.consistent.built hw) hspace hchecker
    have hnode : w.HasNode i.node := by
      rw [HasNode, hspace]
      exact hw.hasNode
    -- generating again leaves the precisions, and so the gap, as they are
    refine (hconsistent.toGenerated.regenerate_ends htidy.fed hnode fuel).imp ?_ ?_
    · rintro changed u ⟨hfed, hframe, hstates⟩
      have hin : u.inputPrecision = w.inputPrecision := by rw [hframe]
      have hstep : u.stepPrecision = w.stepPrecision := by rw [hframe]
      have hpending : u.pending = w.pending := by rw [hframe]
      have hsame : Finer system w u := finer_of_same hin hstep
      refine ⟨⟨hfed, hin ▸ htidy.inputs, hstep ▸ htidy.steps, hpending ▸ htidy.readable⟩,
        hfiner.trans hsame, hsame.gap_le.trans_lt hgap, i.node, hw.hasNode, ?_, ?_⟩
      · rw [hstates hnode, hspace]
      · rw [FinerAt, hin, hstep]
        exact hat
    · rintro stop u (⟨hmild, hne⟩ | hspatial)
      · exact .inl ⟨hmild, fun h => absurd h hne⟩
      · exact .inr hspatial

/-- A pass that reports no error enlarges some mark and keeps all others, and leaves less to tell
    apart. As long as it reports no change, the next pass takes the same path. -/
theorem Refining.refineOnce (hv : v.Refining hsys culprit) (fuel : Nat) :
    Ensures (Verifier.refineOnce fuel culprit) v
      (fun changed w => (w.Idle ∧ w.Consistent hsys.contract ∧ w.Tidy system) ∧
        (changed = false → w.Refining hsys culprit) ∧
        (KeepsMarks v w ∧ EnlargesMark v w) ∧ Finer system v w ∧ w.gap system < v.gap system)
      (fun stop w => Mild (generationFuel system ≤ fuel) stop ∧
        (stop = .failure .incomplete → w = v)) := by
  refine (((hv.idle.refineOnce (c := True) (fun _ => hv.links) fuel).and
    (hv.consistent.refineOnce fuel culprit)).and (hv.pass fuel)).imp ?_ ?_
  · rintro changed w ⟨⟨⟨hidle, hlinks⟩, hconsistent⟩, htidy, hfiner, hgap, n, hn, hstate, hat⟩
    have hbelongs := htidy.belongs hconsistent.toGenerated hidle.toGrounded
    have hnode : w.HasNode n := hn.imp_right fun hc => by
      rw [Space.contains_iff, hstate]
      exact Space.contains_iff.1 hc
    refine ⟨⟨hidle, hconsistent, htidy⟩,
      fun hchanged => ⟨hidle, hconsistent, htidy, hlinks hchanged trivial, hv.readable⟩,
      ⟨hfiner.keepsMarks hv.belongs hbelongs, ?_⟩, hfiner, hgap⟩
    exact hat.enlargesMark hn hnode hstate hv.belongs hbelongs
  · rintro stop w ⟨⟨⟨hexcusable, -⟩, -⟩, hmild | hspatial⟩
    · exact hmild
    · exact absurd trivial (hexcusable hspatial).1

end RefineCheck.Verifier
