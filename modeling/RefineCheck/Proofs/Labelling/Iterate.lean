/-
  RefineCheck.Proofs.Labelling.Iterate

  The iteration of a fixed point. Each round labels the body from the last approximation and
  records what changed. The approximations move to the solution and never past it, and a value
  changes at most twice, so that the rounds end with the solution before the fuel does.
-/

import Mathlib
import RefineCheck.Proofs.Labelling.Coherent

namespace RefineCheck.Labelling

open Formula (Tables)
open Std (TreeMap)

variable {s : Space} {T : Tables} {G : Set NodeId} {l l' : Labelling}

/-! ## Changes that remain -/

/-- How often a value can still change. -/
def remaining (kind : Extremum) (v : Kleene) : Nat :=
  match kind, v with
  | .least, .ff | .greatest, .tt => 2
  | _, .unknown => 1
  | .least, .tt | .greatest, .ff => 0

theorem remaining_le {kind : Extremum} {v u : Kleene} (h : kind.Le v u) :
    remaining kind u ≤ remaining kind v := by
  revert h
  cases kind <;> cases v <;> cases u <;> simp only [Extremum.Le] <;> decide

theorem remaining_lt {kind : Extremum} {v u : Kleene} (h : kind.Le v u) (hne : u ≠ v) :
    remaining kind u < remaining kind v := by
  revert h hne
  cases kind <;> cases v <;> cases u <;> simp only [Extremum.Le] <;> decide

theorem remaining_le_two (kind : Extremum) (v : Kleene) : remaining kind v ≤ 2 := by
  cases kind <;> cases v <;> decide

theorem sum_remaining_le (kind : Extremum) (z : NodeId → Kleene) (targets : List NodeId) :
    (targets.map fun n => remaining kind (z n)).sum ≤ 2 * targets.length := by
  induction targets with
  | nil => exact Nat.le_refl _
  | cons n rest ih =>
    have := remaining_le_two kind (z n)
    rw [List.map_cons, List.sum_cons, List.length_cons]
    omega

theorem sum_remaining_lt {kind : Extremum} {z z' : NodeId → Kleene} {targets : List NodeId}
    (hle : ∀ n ∈ targets, kind.Le (z n) (z' n)) (hne : ∃ n ∈ targets, z' n ≠ z n) :
    (targets.map fun n => remaining kind (z' n)).sum <
      (targets.map fun n => remaining kind (z n)).sum := by
  refine List.sum_lt_sum _ _ (fun n hn => remaining_le (hle n hn)) ?_
  obtain ⟨n, hn, hz⟩ := hne
  exact ⟨n, hn, remaining_lt (hle n hn) hz⟩

/-! ## Results -/

/-- The nodes that are labelled: no step leaves them, and they are stored. -/
structure Region (s : Space) (G : Set NodeId) (region : List NodeId) : Prop where
  closed {n m : NodeId} : n ∈ region → m ∈ s.next n → m ∈ region
  stored {n : NodeId} : n ∈ region → s.contains n = true
  subset {n : NodeId} : n ∈ region → n ∈ G

/-- What labelling targets with a formula results in. -/
structure Answers (s : Space) (T : Tables) (G : Set NodeId) (region : List NodeId) (f : Formula)
    (e : Nat → NodeId → Kleene) (targets : List NodeId) (l : Labelling)
    (r : Except CheckError Labels × Labelling) : Prop where
  coherent : Coherent s T G r.2
  extended : Extended T f.sharedIds f.fixes l r.2
  labelled {labels : Labels} : r.1 = .ok labels →
    (∀ n ∈ targets, labels.valuation n = .ofKleene (f.meaning s.kripke e n) ∧
      Traced s T r.2 (r.2.time + 1) f n (labels.valuation n)) ∧
    ∀ a ∈ f.atoms, ∀ n ∈ region, s.Evaluates a n
  failed {cause : CheckError} : r.1 = .error cause →
    (∃ e, cause = .lookup e) ∧ ∃ a ∈ f.atoms, ∃ n ∈ region, ¬ s.Evaluates a n

/-- What iterating a fixed point results in. -/
structure Iterates (s : Space) (T : Tables) (G : Set NodeId) (region : List NodeId) (id : Nat)
    (body : Formula) (solution : NodeId → Kleene) (targets : List NodeId) (l : Labelling)
    (r : Except CheckError Labels × Labelling) : Prop where
  coherent : Coherent s T G r.2
  extended : Extended T body.sharedIds (insert id body.fixes) l r.2
  labelled {labels : Labels} : r.1 = .ok labels →
    (∀ n ∈ targets, labels.valuation n = .ofKleene (solution n) ∧
      Recorded s T r.2 id n (labels.valuation n)) ∧
    ∀ a ∈ body.atoms, ∀ n ∈ region, s.Evaluates a n
  failed {cause : CheckError} : r.1 = .error cause →
    (∃ e, cause = .lookup e) ∧ ∃ a ∈ body.atoms, ∃ n ∈ region, ¬ s.Evaluates a n

/-- The computation of the body of a fixed point from an approximation. -/
def bodyOf (s : Space) (region : List NodeId) (body : Formula) (env : TreeMap Nat Labels) (id : Nat)
    (labels : Labels) : LabelM Labels :=
  label s region body (env.insert id labels) region {}

theorem Bound.insert {region : List NodeId} {bound : Set Nat} {env : TreeMap Nat Labels}
    {e : Nat → NodeId → Kleene} (h : Bound s T region l bound env e) {id : Nat} {body : Formula}
    (hbody : T.bodies id = some body) {labels : Labels} {z : NodeId → Kleene}
    (hvalue : ∀ n ∈ region, labels.valuation n = .ofKleene (z n))
    (hrec : ∀ n ∈ region, Recorded s T l id n (labels.valuation n)) :
    Bound s T region l (insert id bound) (env.insert id labels) (Function.update e id z) := by
  have hget (j : Nat) : (env.insert id labels).getD j {} =
      if j = id then labels else env.getD j {} := by
    rw [TreeMap.getD_insert]
    exact if_congr (Std.LawfulEqCmp.compare_eq_iff_eq.trans eq_comm) rfl rfl
  refine ⟨fun {j} hj => ?_, fun {j n} hj hn => ?_, fun {j n} hj hn => ?_⟩
  · rcases hj with rfl | hj
    · exact ⟨body, hbody⟩
    · exact h.body hj
  · rw [hget]
    by_cases hji : j = id
    · subst hji
      rw [if_pos rfl, Function.update_self]
      exact hvalue n hn
    · rw [if_neg hji, Function.update_of_ne hji]
      exact h.value (hj.resolve_left hji) hn
  · rw [hget]
    by_cases hji : j = id
    · subst hji
      rw [if_pos rfl]
      exact hrec n hn
    · rw [if_neg hji]
      exact h.recorded (hj.resolve_left hji) hn

theorem ofKleene_injective : Function.Injective Valuation.ofKleene := by
  intro v u
  cases v <;> cases u <;> decide

theorem ofKleene_start (kind : Extremum) : Valuation.ofKleene kind.start = kind.ground := by
  cases kind <;> rfl

/-! ## Approximations

A round replaces the values of the targets by what the body makes of them. The approximations
stay between the first one and the solution, so that the rounds can only go one way. -/

/-- The values after a round. -/
def advance (F : (NodeId → Kleene) → NodeId → Kleene) (targets : List NodeId)
    (z : NodeId → Kleene) (n : NodeId) : Kleene :=
  if n ∈ targets then F z n else z n

/-- Values on the way to a solution. They are the solution outside of the targets, the solution is
    not passed, and a round does not go back. -/
structure Approaches (kind : Extremum) (F : (NodeId → Kleene) → NodeId → Kleene)
    (targets : List NodeId) (z : NodeId → Kleene) : Prop where
  outside {n : NodeId} : n ∉ targets → z n = kind.solution F n
  bounded : kind.Le z (kind.solution F)
  onward {n : NodeId} : n ∈ targets → kind.Le (z n) (F z n)

namespace Approaches

variable {kind : Extremum} {F : (NodeId → Kleene) → NodeId → Kleene} {targets : List NodeId}
  {z : NodeId → Kleene}

/-- The first approximation starts from nothing on the targets. -/
theorem start (kind : Extremum) (F : (NodeId → Kleene) → NodeId → Kleene) (targets : List NodeId) :
    Approaches kind F targets fun n => if n ∈ targets then kind.start else kind.solution F n where
  outside hn := if_neg hn
  bounded := Extremum.Le.pointwise.2 fun n => by
    split
    · exact kind.start_le _
    · exact .refl kind _
  onward {n} hn := by
    rw [if_pos hn]
    exact kind.start_le _

theorem le_advance (h : Approaches kind F targets z) : kind.Le z (advance F targets z) :=
  Extremum.Le.pointwise.2 fun n => by
    rw [Labelling.advance]
    split
    · rename_i hn
      exact h.onward hn
    · exact .refl kind _

theorem advance (h : Approaches kind F targets z) (hF : Monotone F) :
    Approaches kind F targets (advance F targets z) where
  outside {n} hn := by rw [Labelling.advance, if_neg hn, h.outside hn]
  bounded := Extremum.Le.pointwise.2 fun n => by
    rw [Labelling.advance]
    split
    · -- the body keeps the solution, and it does not pass it from below
      have hle := h.bounded.map hF
      rw [kind.solution_fixed hF] at hle
      exact Extremum.Le.pointwise.1 hle n
    · rename_i hn
      rw [h.outside hn]
      exact .refl kind _
  onward {n} hn := by
    rw [Labelling.advance, if_pos hn]
    exact Extremum.Le.pointwise.1 (h.le_advance.map hF) n

/-- A round that changes nothing has found the solution. -/
theorem eq_solution (h : Approaches kind F targets z) (hF : Monotone F)
    (hfixed : ∀ n ∈ targets, F z n = z n) : z = kind.solution F :=
  Extremum.eq_solution hF {n | n ∈ targets} h.bounded (fun _ hn => h.outside hn) hfixed

/-- A round that changes something leaves less to change. -/
theorem sum_remaining_lt (h : Approaches kind F targets z) (hne : ∃ n ∈ targets, F z n ≠ z n) :
    (targets.map fun n => remaining kind (Labelling.advance F targets z n)).sum <
      (targets.map fun n => remaining kind (z n)).sum := by
  refine Labelling.sum_remaining_lt (fun n _ => Extremum.Le.pointwise.1 h.le_advance n) ?_
  obtain ⟨n, hn, hdiff⟩ := hne
  exact ⟨n, hn, by rwa [Labelling.advance, if_pos hn]⟩

end Approaches

/-! ## Rounds -/

/-- The targets whose value a round changes. -/
def changedBy (targets : List NodeId) (approximation values : Labels) : List NodeId :=
  targets.filter fun n => values.valuation n != approximation.valuation n

theorem mem_changedBy {targets : List NodeId} {approximation values : Labels} {n : NodeId} :
    n ∈ changedBy targets approximation values ↔
      n ∈ targets ∧ values.valuation n ≠ approximation.valuation n := by
  rw [changedBy, List.mem_filter, bne_iff_ne]

/-- The labelling after a round: the targets that changed have new entries. -/
def afterRound (id : Nat) (targets : List NodeId) (approximation values : Labels) (l : Labelling) :
    Labelling :=
  l.noted id (changedBy targets approximation values) fun n => (values[n]?).getD ⟨.ff, []⟩

theorem exec_iterate_succ {id : Nat} {targets : List NodeId} {body : Labels → LabelM Labels}
    {fuel : Nat} {approximation values : Labels}
    (h : exec (body approximation) l = (.ok values, l')) :
    exec (iterate id targets body (fuel + 1) approximation) l =
      if changedBy targets approximation values = [] then
        (.ok (approximation.update targets values), afterRound id targets approximation values l')
      else
        exec (iterate id targets body fuel (approximation.update targets values))
          (afterRound id targets approximation values l') := by
  rw [iterate, exec_bind_ok h]
  show exec (if (changedBy targets approximation values).isEmpty then
    pure (approximation.update targets values) else iterate id targets body fuel
      (approximation.update targets values)) (afterRound id targets approximation values l') = _
  by_cases hdone : changedBy targets approximation values = []
  · rw [if_pos hdone, if_pos (by rw [hdone]; rfl)]
    rfl
  · rw [if_neg hdone, if_neg (by simpa using hdone)]

/-- What the body of a fixed point makes of values of its variable. -/
noncomputable abbrev valuesOf (s : Space) (body : Formula) (e : Nat → NodeId → Kleene) (id : Nat)
    (z : NodeId → Kleene) : NodeId → Kleene :=
  body.meaning s.kripke (Function.update e id z)

/-- The labels of an approximation are its values, and the histories end with them. -/
structure Approximates (s : Space) (T : Tables) (G : Set NodeId) (region targets : List NodeId)
    (id : Nat) (approximation : Labels) (z : NodeId → Kleene) (l : Labelling) : Prop where
  coherent : Coherent s T G l
  value {n : NodeId} : n ∈ region → approximation.valuation n = .ofKleene (z n)
  recorded {n : NodeId} : n ∈ region → Recorded s T l id n (approximation.valuation n)
  unsettled {n : NodeId} : n ∈ targets → ¬ Settled T l id n

section Iterate

variable {region targets : List NodeId} {id : Nat} {kind : Extremum} {body : Formula}
  {e : Nat → NodeId → Kleene} {approximation values : Labels} {z : NodeId → Kleene}

/-- The entries of a round are new ones of its own fixed point only. -/
theorem Answers.extended_afterRound
    (hans : Answers s T G region body (Function.update e id z) region l (.ok values, l'))
    (hunsettled : ∀ n ∈ targets, ¬ Settled T l' id n) :
    Extended T ∅ {id} l' (afterRound id targets approximation values l') :=
  extended_noted hans.coherent.timed fun n hn => hunsettled n (mem_changedBy.1 hn).1

/-- A round turns an approximation into the next one. -/
theorem Approximates.round (h : Approximates s T G region targets id approximation z l)
    (hT : T.Lawful) (hbody : T.bodies id = some body) (hid : id ∉ body.fixes)
    (howner : ∀ {share kind name f}, T.shares share = some (.fix id kind name f) →
      share ∉ body.sharedIds)
    (hans : Answers s T G region body (Function.update e id z) region l (.ok values, l')) :
    Extended T body.sharedIds (insert id body.fixes) l
        (afterRound id targets approximation values l') ∧
      Approximates s T G region targets id (approximation.update targets values)
        (advance (valuesOf s body e id) targets z)
        (afterRound id targets approximation values l') := by
  obtain ⟨hvalues, -⟩ := hans.labelled rfl
  have ht := hans.coherent.timed
  -- the labels of the part that the fixed point is itself do not come from its body
  have hunsettled : ∀ n ∈ targets, ¬ Settled T l' id n := by
    rintro n hn ⟨share, kind, name, f, label, hshare, hlabel⟩
    rw [hans.extended.labels_other (howner hshare)] at hlabel
    exact h.unsettled hn ⟨share, kind, name, f, label, hshare, hlabel⟩
  have hnoted : Extended T ∅ {id} l' (afterRound id targets approximation values l') :=
    hans.extended_afterRound hunsettled
  refine ⟨(hans.extended.mono subset_rfl (Set.subset_insert _ _)).trans
      (hnoted.mono (Set.empty_subset _) (Set.singleton_subset_iff.2 (Set.mem_insert _ _))),
    hans.coherent.noted hT hnoted, fun {n} hn => ?_, fun {n} hn => ?_, fun {n} hn => hunsettled n hn⟩
  · rw [Labels.valuation_update, advance]
    split
    · exact (hvalues n hn).1
    · exact h.value hn
  · by_cases hc : n ∈ changedBy targets approximation values
    · -- a new entry has its value from the body, as it was traced before the round
      rw [Labels.valuation_update, if_pos (mem_changedBy.1 hc).1, ← Labels.valuation_getD values n]
      refine recorded_noted ht hc hbody hnoted.toLater fun hu => ?_
      have htraced := (hvalues n hn).2
      rwa [← Labels.valuation_getD values n, hu] at htraced
    · -- an old entry still ends its history
      have hkeep : (approximation.update targets values).valuation n =
          approximation.valuation n := by
        rw [Labels.valuation_update]
        split
        · rename_i hmem
          exact not_not.1 fun hne => hc (mem_changedBy.2 ⟨hmem, hne⟩)
        · rfl
      have hsame : SameEntries l' (afterRound id targets approximation values l') id n := by
        rw [SameEntries, afterRound, entries_noted ht, if_neg hc]
      rw [hkeep]
      exact ((h.recorded hn).later h.coherent.timed hans.extended.toLater
        (hans.extended.untouched hid)).later ht hnoted.toLater hsame

/-- A round changes a label if and only if the body changes the value. -/
theorem Approximates.changed_iff (h : Approximates s T G region targets id approximation z l)
    (hsub : ∀ n ∈ targets, n ∈ region)
    (hans : Answers s T G region body (Function.update e id z) region l (.ok values, l'))
    {n : NodeId} (hn : n ∈ targets) :
    n ∈ changedBy targets approximation values ↔ valuesOf s body e id z n ≠ z n := by
  obtain ⟨hvalues, -⟩ := hans.labelled rfl
  rw [mem_changedBy, and_iff_right hn, h.value (hsub n hn), (hvalues n (hsub n hn)).1]
  exact ofKleene_injective.ne_iff

/-- Iterating the body from an approximation on the right side of the solution finds the solution.
    In each round but the last one some value changes, and each can change at most twice. -/
theorem iterates_iterate (hT : T.Lawful) {bound : Set Nat} {env : TreeMap Nat Labels}
    (hsub : ∀ n ∈ targets, n ∈ region) (hbody : T.bodies id = some body) (hid : id ∉ body.fixes)
    (hdis : Disjoint bound (insert id body.fixes))
    (howner : ∀ {share kind name f}, T.shares share = some (.fix id kind name f) →
      share ∉ body.sharedIds)
    (ih : ∀ {l : Labelling} {labels : Labels} {z : NodeId → Kleene}, Coherent s T G l →
      Bound s T region l (insert id bound) (env.insert id labels) (Function.update e id z) →
      Answers s T G region body (Function.update e id z) region l
        (exec (bodyOf s region body env id labels) l))
    {fuel : Nat} (henv : Bound s T region l bound env e)
    (happrox : Approximates s T G region targets id approximation z l)
    (hnear : Approaches kind (valuesOf s body e id) targets z)
    (hfuel : (targets.map fun n => remaining kind (z n)).sum < fuel) :
    Iterates s T G region id body (kind.solution (valuesOf s body e id)) targets l
      (exec (iterate id targets (bodyOf s region body env id) fuel approximation) l) := by
  have hmono : Monotone (valuesOf s body e id) := body.body_mono e id
  -- the fuel bounds how much the values can still change
  induction fuel generalizing l approximation z with
  | zero => exact absurd hfuel (Nat.not_lt_zero _)
  | succ fuel ihfuel =>
    have hans := ih happrox.coherent
      (henv.insert hbody (fun _ hn => happrox.value hn) fun _ hn => happrox.recorded hn)
    rcases hrun : exec (bodyOf s region body env id approximation) l with ⟨r, l₁⟩
    rw [hrun] at hans
    cases r with
    | error cause =>
      rw [iterate, exec_bind_error hrun]
      exact ⟨hans.coherent, hans.extended.mono subset_rfl (Set.subset_insert _ _),
        (fun h => by cases h), fun h => hans.failed h⟩
    | ok values =>
      obtain ⟨hext, hnext⟩ := happrox.round hT hbody hid howner hans
      obtain ⟨hvalues, heval⟩ := hans.labelled rfl
      rw [exec_iterate_succ hrun]
      by_cases hdone : changedBy targets approximation values = []
      · rw [if_pos hdone]
        have hfixed : ∀ n ∈ targets, valuesOf s body e id z n = z n := fun n hn => by
          refine not_not.1 fun hne => ?_
          have hc := (happrox.changed_iff hsub hans hn).2 hne
          rw [hdone] at hc
          cases hc
        have hsol := hnear.eq_solution hmono hfixed
        refine ⟨hnext.coherent, hext, fun {labels} hlabels => ⟨fun n hn => ?_, heval⟩,
          (fun h => by cases h)⟩
        obtain rfl := Except.ok.inj hlabels
        refine ⟨?_, hnext.recorded (hsub n hn)⟩
        rw [hnext.value (hsub n hn), advance, if_pos hn, hfixed n hn, ← hsol]
      · rw [if_neg hdone]
        obtain ⟨n, hc⟩ := List.exists_mem_of_ne_nil _ hdone
        have hn := (mem_changedBy.1 hc).1
        have hless := hnear.sum_remaining_lt ⟨n, hn, (happrox.changed_iff hsub hans hn).1 hc⟩
        have hrest := ihfuel (henv.later happrox.coherent.timed hext hdis) hnext
          (hnear.advance hmono) (by omega)
        exact ⟨hrest.coherent, hext.trans hrest.extended, hrest.labelled, hrest.failed⟩

end Iterate

end RefineCheck.Labelling
