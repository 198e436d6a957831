/-
  RefineCheck.Proofs.Checker.Blame

  What a check of a left-total space ends with, for any property and whatever is remembered of it.
  The path of a culprit takes steps of the space, since deduction only moves to successors, and no
  fault says that the space is not left-total.
-/

import RefineCheck.Proofs.Checker.Culprit
import RefineCheck.Proofs.Labelling.Tame

namespace RefineCheck

open Relation (ReflTransGen)

variable {s : Space} {l : Labelling} {culprit : Culprit}

/-- A path from the root on can be continued by a successor of its last state. -/
theorem Space.Links.append {path : List StateId} {n m : StateId} (h : s.Links (root :: (path ++ [n])))
    (hm : m ∈ s.next n) : s.Links (root :: (path ++ [n] ++ [m])) := by
  rw [Links, ← List.cons_append, List.isChain_append] at h ⊢
  rw [← List.cons_append, List.isChain_append]
  refine ⟨⟨h.1, List.isChain_singleton n, h.2.2⟩, List.isChain_singleton m, ?_⟩
  intro a ha b hb
  rw [List.getLast?_append, List.getLast?_singleton, Option.some_or, Option.mem_some_iff] at ha
  rw [List.head?_singleton, Option.mem_some_iff] at hb
  exact ha ▸ hb ▸ hm

/-- Every edge of a path is one of the space. -/
theorem Space.Links.mem_next {n : NodeId} {path : List StateId} (h : s.Links (n :: path))
    {edge : NodeId × StateId} (hedge : edge ∈ (n :: path).zip path) : edge.2 ∈ s.next edge.1 := by
  induction path generalizing n with
  | nil => cases hedge
  | cons m path ih =>
    obtain ⟨hm, hrest⟩ := List.isChain_cons_cons.1 h
    rw [List.zip_cons_cons, List.mem_cons] at hedge
    rcases hedge with rfl | hedge
    · exact hm
    · exact ih hrest hedge

namespace Labelling

/-- A step of the deduction extends the path by a successor, if at all. -/
theorem Pursues.links {x y : Formula × List StateId × StateId} (h : Pursues s l x y)
    (hx : s.Links (root :: (x.2.1 ++ [x.2.2]))) : s.Links (root :: (y.2.1 ++ [y.2.2])) := by
  cases h with
  | operand _ | body _ => exact hx
  | next h => exact hx.append h

/-- Deduction extends the path by successors only. -/
theorem links_of_deduce {bound : Nat} {f : Formula} {earlier : List StateId} {n : StateId}
    (h : l.deduce s bound f earlier n = .ok culprit) (hlinks : s.Links (root :: (earlier ++ [n]))) :
    s.Links (root :: culprit.path) := by
  have hpath {x : Formula × List StateId × StateId}
      (hx : ReflTransGen (Pursues s l) (f, earlier, n) x) :
      s.Links (root :: (x.2.1 ++ [x.2.2])) := by
    induction hx with
    | refl => exact hlinks
    | tail _ hstep ih => exact hstep.links ih
  exact hpath (pursued_of_deduce h)

/-- What a check of a left-total space never ends with, and what a culprit takes from the space. -/
structure Blames (s : Space) (r : Except CheckError Conclusion) : Prop where
  not_spatial {cause : Fault} : r = .error (.fault cause) → ¬ cause.Spatial
  checkable : r ≠ .ok .notCheckable
  links {culprit : Culprit} : r = .ok (.unknown culprit) → s.Links (root :: culprit.path)

theorem LabelM.Tame.blames {α : Type} {m : LabelM α} {k : α → LabelM Conclusion} (hm : m.Tame)
    (hk : ∀ a l, Blames s (exec (k a) l).1) (l : Labelling) : Blames s (exec (m >>= k) l).1 := by
  rcases hrun : exec m l with ⟨r, l'⟩
  cases r with
  | ok a =>
    rw [exec_bind_ok hrun]
    exact hk a l'
  | error cause =>
    rw [exec_bind_error hrun]
    refine ⟨fun h => ?_, error_ne_ok, fun h => absurd h error_ne_ok⟩
    obtain rfl := Except.error.inj h
    exact hm l _ (congrArg Prod.fst hrun)

theorem blames_conclude (s : Space) (l : Labelling) (labels : Labels) :
    Blames s (exec (raise (l.conclude s labels)) l).1 := by
  have htame := tame_conclude s l labels
  cases hc : l.conclude s labels with
  | error cause =>
    refine ⟨fun h => ?_, error_ne_ok, fun h => absurd h error_ne_ok⟩
    obtain rfl := CheckError.fault.inj (Except.error.inj h)
    exact htame _ hc
  | ok c =>
    rw [conclude] at hc
    split at hc
    · obtain rfl := pure_eq_ok.1 hc
      exact ⟨fun h => (by cases h), fun h => (by cases h), fun h => (by cases h)⟩
    · split at hc
      · rename_i n hfound
        obtain ⟨culprit, hculprit, hc⟩ := bind_eq_ok.1 hc
        obtain rfl := pure_eq_ok.1 hc
        refine ⟨fun h => (by cases h), fun h => (by cases h), fun h => ?_⟩
        obtain rfl := Conclusion.unknown.inj (Except.ok.inj h)
        -- deduction starts in an initial state, a successor of the root
        refine links_of_deduce hculprit (List.isChain_cons_cons.2 ⟨?_, List.isChain_singleton n⟩)
        exact List.mem_of_find?_eq_some hfound
      · cases hc

theorem blames_check (htotal : s.isLeftTotal = true) (l : Labelling) :
    Blames s (exec (check s) l).1 := by
  rw [exec_check_of_total htotal]
  exact (LabelM.tame_forM (fun n => LabelM.tame_validate s l.formula n) _).blames
    (fun _ => (LabelM.tame_label _ _ _ _).blames fun labels l => blames_conclude s l labels) _

end Labelling

theorem Checker.blames_check (htotal : s.isLeftTotal = true) (c : Checker) (p : Property) :
    Labelling.Blames s (c.check s p).1 := by
  rw [check]
  split
  · rename_i cause hcause
    refine ⟨fun h => ?_, error_ne_ok, fun h => absurd h error_ne_ok⟩
    obtain rfl := CheckError.fault.inj (Except.error.inj h)
    split at hcause
    · cases hcause
    · exact (Formula.tame_ofProperty p).map _ _ hcause
  · exact Labelling.blames_check htotal _

end RefineCheck
