/-
  RefineCheck.Proofs.Verifier.Informed

  Verifiers whose checker knows of every change of the space since the last check. A generation
  declares what it changed and a collection what it removed, so a check decides what the space says.
-/

import Mathlib
import RefineCheck.Proofs.Checker.Incremental
import RefineCheck.Proofs.Verifier.Loop

namespace RefineCheck

open Relation (ReflTransGen)

/-! ## States of a weaker kind -/

namespace Space

variable {Good Weak : State → Prop} {s s' : Space}

theorem Built.mono (h : s.Built Good) (hweak : ∀ {st}, Good st → Weak st) : s.Built Weak := by
  induction h with
  | empty => exact .empty
  | addStep _ hgood hadd ih => exact .addStep ih (hweak hgood) hadd
  | clearStep _ hclear ih => exact .clearStep ih hclear
  | sweep _ ih => exact .sweep ih
  | collect _ ih => exact .collect ih

theorem Mutates.mono (h : Mutates Good s s') (hweak : ∀ {st}, Good st → Weak st) :
    Mutates Weak s s' := by
  cases h with
  | addStep hgood hadd => exact .addStep (hweak hgood) hadd
  | clearStep hclear => exact .clearStep hclear
  | sweep => exact .sweep s
  | collect => exact .collect s

theorem run_mono (h : ReflTransGen (Mutates Good) s s') (hweak : ∀ {st}, Good st → Weak st) :
    ReflTransGen (Mutates Weak) s s' :=
  h.lift id fun _ _ hstep => hstep.mono hweak

/-- A state that was removed does not come back. -/
theorem Swept.not_alive {removed : List StateId} (h : Swept s s' removed) (hs : s.Valid) {n : NodeId}
    (hn : n ∈ removed) : ¬ s'.Alive n := by
  rintro (hc | hle)
  · obtain ⟨st, hst⟩ := contains_iff.1 hc
    rw [h.states_gone hn] at hst
    cases hst
  · rw [h.nextId_eq] at hle
    exact absurd (hs.contains_lt (h.unreachable hn).1).2 (not_lt.2 hle)

end Space

theorem Trace.run_mutates {t : Trace} {s : Space}
    (h : ReflTransGen (Space.Mutates State.Nonempty) t.space s) :
    ReflTransGen Step t { t with space := s } := by
  induction h with
  | refl => exact .refl
  | tail _ hstep ih => exact ih.tail (.mutate hstep)

/-! ## Labellings of properties that were read from a text -/

/-- Whether every labelling is of a property that was read from a text. -/
def Checker.Legible (c : Checker) : Prop :=
  ∀ (key : String) (l : Labelling), c.labellings[key]? = some l →
    ∃ (p : Property) (T : Formula.Tables), p.Parsed ∧ p.key = key ∧ l.Represents p T

theorem Checker.Legible.purge {c : Checker} (h : c.Legible) : c.purge.Legible := by
  intro key l hl
  rw [Checker.purge, Checker.map, Std.TreeMap.getElem?_map, Option.map_eq_some_iff] at hl
  obtain ⟨l, hl, rfl⟩ := hl
  obtain ⟨p, T, hp, hkey, hrepresents⟩ := h key l hl
  exact ⟨p, T, hp, hkey, hrepresents.of_formula rfl⟩

namespace Verifier

variable {v w : Verifier} {node : NodeId} {text : String} {p : Property}

/-- The space and the checker of a verifier, with the changes that were declared since a space. -/
def trace (v : Verifier) (baseline : Space) (declared : Set NodeId) : Trace :=
  ⟨baseline, declared, v.space, v.checker⟩

/-- Whether the checker of a verifier knows of every change of the space since the last check. -/
def Informed (v : Verifier) : Prop :=
  ∃ baseline declared, (v.trace baseline declared).Tracked ∧ (v.trace baseline declared).Announced

namespace Informed

theorem legible (hv : v.Informed) : v.checker.Legible := by
  obtain ⟨baseline, declared, htracked, -⟩ := hv
  intro key l hl
  obtain ⟨p, hp, hkey, T, D, hrepresents, -⟩ := htracked.tracks hl
  exact ⟨p, T, hp, hkey, hrepresents⟩

/-- Without a space and without labels nothing is left to be declared. -/
theorem of_purge (hv : v.checker.Legible) (hspace : w.space = .empty)
    (hchecker : w.checker = v.checker.purge) : w.Informed := by
  have hbuilt : w.space.Built State.Nonempty := hspace ▸ .empty
  refine ⟨w.space, ∅, ⟨hbuilt.valid, hbuilt, .refl _, fun {key l} hl => ?_⟩, Trace.announced_start _⟩
  rw [trace, hchecker, Checker.purge, Checker.map, Std.TreeMap.getElem?_map,
    Option.map_eq_some_iff] at hl
  obtain ⟨l, hl, rfl⟩ := hl
  obtain ⟨p, T, hp, hkey, hrepresents⟩ := hv key l hl
  exact ⟨p, hp, hkey, hrepresents.tracks_clear _⟩

/-- Only the space and the checker have a part in it. -/
theorem of_same (hv : v.Informed) (hspace : w.space = v.space) (hchecker : w.checker = v.checker) :
    w.Informed := by
  obtain ⟨baseline, declared, h⟩ := hv
  refine ⟨baseline, declared, ?_⟩
  rw [trace, hspace, hchecker]
  exact h

/-- Declaring what a generation changed leaves nothing undeclared. -/
theorem declare (hv : v.Informed) {I : Verifier → Prop} {added : List StateId}
    {changed : List NodeId} (h : Renewed I v node w added changed)
    (hrun : ReflTransGen (Space.Mutates State.Nonempty) v.space w.space) :
    (w.declare added changed).Informed := by
  obtain ⟨baseline, declared, htracked, hann⟩ := hv
  have hchecker : w.checker = v.checker := by rw [h.frame]
  have hgrown : (Trace.mk baseline declared w.space v.checker).Tracked :=
    htracked.run (Trace.run_mutates hrun)
  refine ⟨baseline, declared ∪ {n | n ∈ added ∨ n ∈ changed}, ?_, ?_⟩
  · rw [trace, Verifier.declare, hchecker]
    exact hgrown.step (.declare _ added changed)
  · intro n hn hor
    by_contra hnot
    rw [trace, Set.mem_union, not_or] at hnot
    obtain ⟨hold, hnew⟩ := hnot
    obtain ⟨hnew, hsame⟩ := not_or.1 hnew
    obtain ⟨st, hst⟩ := Space.contains_iff.1 hn
    have hstored : v.space.contains n = true :=
      Space.contains_iff.2 ⟨st, (h.new hst).resolve_right fun hadded => hnew hadded.1⟩
    have hnext : w.space.next n = v.space.next n := by
      by_contra hne
      exact hsame (h.changed hne)
    refine hold (hann n hstored (hor.imp_right fun hedges => ?_))
    exact hnext ▸ hedges

/-- Removing states that cannot be reached changes no successors of others. -/
theorem collected (hv : v.Informed) : v.collected.Informed := by
  obtain ⟨baseline, declared, htracked, hann⟩ := hv
  have hs : v.space.Valid := htracked.built.valid
  have hswept := Space.swept_collect hs
  refine ⟨baseline, declared, (htracked.step (.mutate (.collect _))).step (.remove fun n hn =>
    hswept.not_alive hs hn), fun n hn hor => ?_⟩
  obtain ⟨st, hst⟩ := Space.contains_iff.1 hn
  have hmem : n ∉ v.space.collect.2 := fun hmem =>
    absurd ((hswept.states_gone hmem).symm.trans hst) nofun
  refine hann n (Space.contains_iff.2 ⟨st, hswept.states_subset hst⟩)
    (hor.imp_right fun hedges => ?_)
  exact hswept.next_kept hmem ▸ hedges

/-- A check decides what the space says of the property. -/
theorem decides (hv : v.Informed) (hp : Property.parse text = .ok p) :
    Checker.Decides v.space p (v.checker.check v.space p).1 := by
  obtain ⟨baseline, declared, htracked, hann⟩ := hv
  exact htracked.decides hann (Property.parsed_of_parse hp)

/-- After a check nothing is left to be declared. -/
theorem checked (hv : v.Informed) (hp : Property.parse text = .ok p) :
    Informed { v with checker := (v.checker.check v.space p).2 } := by
  obtain ⟨baseline, declared, htracked, hann⟩ := hv
  exact ⟨v.space, ∅, htracked.step (.check hann hp), Trace.announced_start v.space⟩

end Informed

end Verifier

end RefineCheck
