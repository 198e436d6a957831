/-
  RefineCheck.Proofs.Space.Kripke

  The structure that properties are checked on: the nodes of a space with the three-valued
  outcomes of comparisons in their states.
-/

import RefineCheck.Labelling
import RefineCheck.Proofs.Property.Atomic
import RefineCheck.Proofs.Semantics.Normal
import RefineCheck.Proofs.Space.Graph

namespace RefineCheck

namespace Space

/-- The outcome of a comparison in a node, which is unknown where it has none. -/
def outcome (s : Space) (a : Atomic) (n : NodeId) : Kleene :=
  match s.states[n]? with
  | some state => (a.evaluate state).toOption.getD .unknown
  | none => .unknown

/-- The nodes with their successors and the outcomes of comparisons. -/
def kripke (s : Space) : Kripke NodeId Kleene where
  next n := {m | m ∈ s.next n}
  atom := s.outcome

/-- Whether a comparison has an outcome in a node. -/
def Evaluates (s : Space) (a : Atomic) (n : NodeId) : Prop :=
  ∃ state value, s.states[n]? = some state ∧ a.evaluate state = .ok value

theorem outcome_of_evaluate {s : Space} {a : Atomic} {n : NodeId} {state : State} {value : Kleene}
    (hs : s.states[n]? = some state) (hv : a.evaluate state = .ok value) :
    s.outcome a n = value := by
  simp only [outcome, hs, hv]
  rfl

theorem complementary_kripke {s : Space}
    (hs : ∀ {n : NodeId} {state : State}, s.states[n]? = some state → state.Nonempty) :
    Property.Complementary (fun _ => True) s.kripke := by
  intro a _
  funext n
  show s.outcome a.complement n = (s.outcome a n).not
  rw [outcome, outcome]
  cases hn : s.states[n]? with
  | none => rfl
  | some state =>
    simp only [Atomic.evaluate_complement (hs hn)]
    cases a.evaluate state <;> rfl

theorem evaluates_complement {s : Space}
    (hs : ∀ {n : NodeId} {state : State}, s.states[n]? = some state → state.Nonempty)
    (a : Atomic) (n : NodeId) : s.Evaluates a.complement n ↔ s.Evaluates a n := by
  refine exists_congr fun state => ?_
  constructor
  · rintro ⟨value, hstate, hv⟩
    rw [Atomic.evaluate_complement (hs hstate)] at hv
    cases he : a.evaluate state with
    | error e =>
      rw [he] at hv
      cases hv
    | ok v => exact ⟨v, hstate, rfl⟩
  · rintro ⟨value, hstate, hv⟩
    exact ⟨value.not, hstate, by rw [Atomic.evaluate_complement (hs hstate), hv]; rfl⟩

end Space

/-! ## Verdicts over several states -/

theorem foldl_and_ofKleene {σ : Type} (z : σ → Kleene) (xs : List σ) (v : Kleene) :
    (xs.map fun n => Valuation.ofKleene (z n)).foldl Valuation.and (.ofKleene v) =
      Valuation.ofKleene (v ⊓ ⨅ n ∈ {n | n ∈ xs}, z n) := by
  induction xs generalizing v with
  | nil => simp
  | cons x xs ih =>
    rw [List.map_cons, List.foldl_cons, ← Valuation.ofKleene_and, ih, Kleene.and_eq_inf]
    congr 1
    rw [inf_assoc]
    congr 1
    have hset : {n | n ∈ x :: xs} = insert x {n | n ∈ xs} := by
      ext n
      exact List.mem_cons
    rw [hset, iInf_insert]

theorem foldl_or_ofKleene {σ : Type} (z : σ → Kleene) (xs : List σ) (v : Kleene) :
    (xs.map fun n => Valuation.ofKleene (z n)).foldl Valuation.or (.ofKleene v) =
      Valuation.ofKleene (v ⊔ ⨆ n ∈ {n | n ∈ xs}, z n) := by
  induction xs generalizing v with
  | nil => simp
  | cons x xs ih =>
    rw [List.map_cons, List.foldl_cons, ← Valuation.ofKleene_or, ih, Kleene.or_eq_sup]
    congr 1
    rw [sup_assoc]
    congr 1
    have hset : {n | n ∈ x :: xs} = insert x {n | n ∈ xs} := by
      ext n
      exact List.mem_cons
    rw [hset, iSup_insert]

/-- The verdict over a list of states is the value over the set of its members. -/
theorem Paths.combine_eq_over {σ : Type} (paths : Paths) {values : σ → Valuation} {z : σ → Kleene}
    {xs : List σ} (h : ∀ n ∈ xs, values n = .ofKleene (z n)) :
    paths.combine (xs.map values) = .ofKleene (paths.over {n | n ∈ xs} z) := by
  rw [List.map_congr_left h]
  cases paths with
  | all =>
    refine (foldl_and_ofKleene z xs .tt).trans ?_
    rw [← Kleene.top_eq, top_inf_eq]
    rfl
  | some =>
    refine (foldl_or_ofKleene z xs .ff).trans ?_
    rw [← Kleene.bot_eq, bot_sup_eq]
    rfl

end RefineCheck
