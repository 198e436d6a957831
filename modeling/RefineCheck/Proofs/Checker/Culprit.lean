/-
  RefineCheck.Proofs.Checker.Culprit

  What an unknown conclusion blames. After any run of changes and checks, a property whose
  value is unknown is explained by a path of the current space from an initial state to a
  state in which one of its comparisons is unknown.
-/

import RefineCheck.Proofs.Checker.Incremental

namespace RefineCheck

open Relation (ReflTransGen)

/-- Whether each state of a path is a direct successor of the one before it. -/
def Space.Links (s : Space) (path : List StateId) : Prop := path.IsChain fun n m => m ∈ s.next n

theorem Labelling.Follows.links {s : Space} {n last : NodeId} {path : List NodeId}
    (h : Follows s n path last) :
    s.Links (path ++ [last]) ∧ ∃ rest, path ++ [last] = n :: rest := by
  induction h with
  | here n => exact ⟨List.isChain_singleton n, [], rfl⟩
  | @step n m last path hm _ ih =>
    obtain ⟨hlinks, rest, hrest⟩ := ih
    refine ⟨?_, m :: rest, by rw [List.cons_append, hrest]⟩
    rw [Space.Links, hrest] at hlinks
    rw [Space.Links, List.cons_append, hrest]
    exact List.isChain_cons_cons.2 ⟨hm, hlinks⟩

/-- A path from an initial state to a state in which a comparison is unknown. -/
structure Culprit.Explains (c : Culprit) (s : Space) : Prop where
  starts : ∃ first ∈ s.initialStates, ∃ rest, c.path = first :: rest
  links : s.Links c.path
  unknown : ∃ last state, c.path.getLast? = some last ∧ s.states[last]? = some state ∧
    c.atomic.evaluate state = .ok .unknown

theorem Space.Concludes.explains {s : Space} {v : Kleene} {c : Culprit}
    (h : s.Concludes v (.unknown c)) : c.Explains s := by
  obtain ⟨first, hfirst, hfollows, state, hstate, hunknown⟩ := h.explained rfl
  obtain ⟨hlinks, rest, hrest⟩ := hfollows.links
  refine ⟨⟨first, hfirst, rest, hrest⟩, hlinks, c.state, state, ?_, hstate, hunknown⟩
  rw [Culprit.path, List.getLast?_append]
  rfl

/-- If the value of a property is unknown after a run in which all changes were declared, a check
    succeeds and blames a comparison of the form that is checked. Its path starts in an initial
    state, takes steps of the current space and ends where the comparison is unknown. -/
theorem Trace.culprit_explains {s : Space} {t : Trace} {text : String} {p : Property}
    (hs : s.Built State.Nonempty) (hrun : ReflTransGen Step (start s) t) (hann : t.Announced)
    (hp : Property.parse text = .ok p) (htotal : t.space.isLeftTotal = true)
    (hatoms : p.AtomsIn fun a =>
      ∀ (n : StateId) st, t.space.states[n]? = some st → ∃ v, a.evaluate st = .ok v)
    (hunknown : t.space.verdict p = .unknown) :
    ∃ culprit, (t.checker.check t.space p).1 = .ok (.unknown culprit) ∧
      culprit.Explains t.space ∧ ∃ q, p.pnf = .ok q ∧ culprit.atomic ∈ q.canonical.atoms := by
  have htracked := (tracked_start hs).run hrun
  have hdecides := htracked.decides hann (Property.parsed_of_parse hp)
  obtain ⟨c, hc, hconcludes⟩ := hdecides.value htotal
    (Checker.Decides.interprets_of_stored hatoms htracked.built.valid)
  obtain ⟨culprit, rfl⟩ := (Checker.unknown_iff hconcludes.value_eq).2 hunknown
  exact ⟨culprit, hc, hconcludes.explains, hdecides.blamed hc⟩

/-- A state without fields that may panic. -/
def State.doubtful : State := ⟨⟨panicWidth, .full panicWidth⟩, .empty⟩

/-- A space in which a state that does not panic leads to itself and to a state that may panic. -/
def Space.risky : Space := (Space.loop.extend 1 .doubtful).extend 2 .doubtful

/-- The value in all successors of the only initial state, if there are two of them. -/
theorem Space.verdict_next_pair {s : Space} {n m k : StateId} (hinit : s.initialStates = [n])
    (hnext : s.next n = [m, k]) (a : Atomic) :
    s.verdict (.next .all (.atom a)) = s.outcome a m ⊓ s.outcome a k := by
  have hmeaning : (Property.next .all (.atom a)).meaning s.kripke (fun _ _ => ⊥) n =
      ⨅ t ∈ {t | t ∈ s.next n}, s.outcome a t := rfl
  have hset : {t | t ∈ [m, k]} = ({m, k} : Set StateId) := by
    ext t
    simp
  rw [hnext, hset, iInf_pair] at hmeaning
  rw [verdict, hinit, ← hmeaning]
  simp

theorem Space.verdict_risky :
    Space.risky.verdict (.next .all (.atom ⟨"__panic", none, .signless, .eq, 0⟩)) = .unknown := by
  have hone : Space.risky.outcome ⟨"__panic", none, .signless, .eq, 0⟩ 1 = .tt := by decide +kernel
  have htwo : Space.risky.outcome ⟨"__panic", none, .signless, .eq, 0⟩ 2 = .unknown := by
    decide +kernel
  rw [verdict_next_pair (by decide +kernel : _ = [1]) (by decide +kernel : _ = [1, 2]), hone, htwo]
  decide

/-- A check, two new steps to a state that may panic, and a check that blames the way there. -/
theorem Trace.culprit_explains_grown :
    ∃ t p culprit, ReflTransGen Step (start .loop) t ∧ t.Announced ∧ t.space = .risky ∧
      Property.parse "AX![__panic == 0]" = .ok p ∧ t.space.verdict p = .unknown ∧
      (t.checker.check t.space p).1 = .ok (.unknown culprit) ∧ culprit.Explains t.space := by
  have hgood : State.doubtful.Nonempty := ⟨⟨0, Reduced.has_iff.1 (by decide +kernel)⟩, nofun⟩
  have hp : Property.parse "AX![__panic == 0]" =
      .ok (.next .all (.atom ⟨"__panic", none, .signless, .eq, 0⟩)) := by
    decide +kernel
  have hrun : ReflTransGen Step (start .loop) ⟨.loop, ∅ ∪ {n | n ∈ [2] ∨ n ∈ [1]}, .risky,
      (Checker.empty.check .loop _).2.declareRegeneration [2] [1]⟩ :=
    (((ReflTransGen.single (.check (announced_start .loop) hp)).trans (run_extend 1 hgood)).trans
      (run_extend 2 hgood)).tail (.declare _ [2] [1])
  have hids : Space.risky.stateIds = [1, 2] := by decide +kernel
  have hann (c : Checker) : Trace.Announced ⟨.loop, ∅ ∪ {n | n ∈ [2] ∨ n ∈ [1]}, .risky, c⟩ := by
    intro n hn _
    have hmem : n ∈ [1, 2] := by
      rw [← hids, Space.stateIds, Std.TreeMap.mem_keys, Std.TreeMap.mem_iff_contains]
      exact hn
    refine .inr ?_
    simpa [or_comm] using hmem
  obtain ⟨culprit, hc, hexplains, -⟩ := culprit_explains Space.built_loop hrun (hann _) hp
    (by decide +kernel) (fun _ st _ => ⟨_, rfl⟩) Space.verdict_risky
  exact ⟨_, _, culprit, hrun, hann _, rfl, hp, Space.verdict_risky, hc, hexplains⟩

end RefineCheck
