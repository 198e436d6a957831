/-
  RefineCheck.Proofs.Semantics.Path

  Properties on infinite paths. In a structure in which every state has a successor, the
  temporal operators speak about all or about some infinite paths, which is the same as the
  fixed points that give them their meaning.
-/

import RefineCheck.Proofs.Semantics.Normal

namespace RefineCheck

variable {σ : Type}

/-- Whether each state of a sequence follows the one before it. -/
def Kripke.IsPath (K : Kripke σ Prop) (π : Nat → σ) : Prop := ∀ i, π (i + 1) ∈ K.next (π i)

/-- Whether all or some infinite paths from a state satisfy a condition. -/
def Paths.along (paths : Paths) (K : Kripke σ Prop) (s : σ) (condition : (Nat → σ) → Prop) : Prop :=
  match paths with
  | .all => ∀ π, K.IsPath π → π 0 = s → condition π
  | .some => ∃ π, K.IsPath π ∧ π 0 = s ∧ condition π

/-- Whether a property holds in a state, where the environment says where the free variables hold. -/
def Property.Holds (K : Kripke σ Prop) : (env : String → σ → Prop) → Property → σ → Prop
  | _, .const value => fun _ => value = true
  | _, .atom a => K.atom a
  | env, .not p => fun s => ¬ p.Holds K env s
  | env, .and p q => fun s => p.Holds K env s ∧ q.Holds K env s
  | env, .or p q => fun s => p.Holds K env s ∨ q.Holds K env s
  | env, .next paths p => fun s => paths.along K s fun π => p.Holds K env (π 1)
  | env, .eventually paths p => fun s => paths.along K s fun π => ∃ i, p.Holds K env (π i)
  | env, .always paths p => fun s => paths.along K s fun π => ∀ i, p.Holds K env (π i)
  | env, .holdUntil paths p q => fun s => paths.along K s fun π =>
    ∃ i, q.Holds K env (π i) ∧ ∀ j < i, p.Holds K env (π j)
  | env, .release paths p q => fun s => paths.along K s fun π =>
    ∀ i, q.Holds K env (π i) ∨ ∃ j < i, p.Holds K env (π j)
  | env, .fix kind name p => kind.solution fun z => p.Holds K (Function.update env name z)
  | env, .var name => env name

/-! ## Paths -/

namespace Kripke

variable {K : Kripke σ Prop}

/-- A path from each state, if a successor is chosen for each. -/
def follow (choice : σ → σ) (s : σ) : Nat → σ
  | 0 => s
  | i + 1 => choice (follow choice s i)

theorem isPath_follow {choice : σ → σ} (h : ∀ s, choice s ∈ K.next s) (s : σ) :
    K.IsPath (follow choice s) :=
  fun i => h (follow choice s i)

/-- A path with a state in front. -/
def prepend (s : σ) (π : Nat → σ) : Nat → σ
  | 0 => s
  | i + 1 => π i

theorem IsPath.prepend {s : σ} {π : Nat → σ} (h : K.IsPath π) (hs : π 0 ∈ K.next s) :
    K.IsPath (prepend s π) := by
  intro i
  cases i with
  | zero => exact hs
  | succ i => exact h i

theorem IsPath.tail {π : Nat → σ} (h : K.IsPath π) : K.IsPath fun i => π (i + 1) :=
  fun i => h (i + 1)

theorem exists_path (htotal : ∀ s, (K.next s).Nonempty) (s : σ) : ∃ π, K.IsPath π ∧ π 0 = s := by
  choose choice hchoice using htotal
  exact ⟨follow choice s, isPath_follow hchoice s, rfl⟩

theorem step_all {z : σ → Prop} {s : σ} : K.step .all z s ↔ ∀ t ∈ K.next s, z t := by
  simp [step, Paths.over]

theorem step_some {z : σ → Prop} {s : σ} : K.step .some z s ↔ ∃ t ∈ K.next s, z t := by
  simp [step, Paths.over]

/-- The second state of a path is any successor of the first. -/
theorem along_next (htotal : ∀ s, (K.next s).Nonempty) (paths : Paths) (z : σ → Prop) (s : σ) :
    paths.along K s (fun π => z (π 1)) ↔ K.step paths z s := by
  cases paths with
  | all =>
    rw [step_all]
    constructor
    · intro h t ht
      obtain ⟨π, hπ, h0⟩ := exists_path htotal t
      exact h0 ▸ h (prepend s π) (hπ.prepend (h0 ▸ ht)) rfl
    · rintro h π hπ rfl
      exact h _ (hπ 0)
  | some =>
    rw [step_some]
    constructor
    · rintro ⟨π, hπ, rfl, h⟩
      exact ⟨π 1, hπ 0, h⟩
    · rintro ⟨t, ht, h⟩
      obtain ⟨π, hπ, h0⟩ := exists_path htotal t
      exact ⟨prepend s π, hπ.prepend (h0 ▸ ht), rfl, show z (π 0) from h0 ▸ h⟩

/-! ## Until -/

/-- Some state of a path is a goal, and all before it hold. -/
def Until (hold goal : σ → Prop) (π : Nat → σ) : Prop := ∃ i, goal (π i) ∧ ∀ j < i, hold (π j)

theorem until_of_tail {hold goal : σ → Prop} {π : Nat → σ} (h0 : hold (π 0))
    (h : Until hold goal fun i => π (i + 1)) : Until hold goal π := by
  obtain ⟨i, hi, hj⟩ := h
  refine ⟨i + 1, hi, fun j hlt => ?_⟩
  cases j with
  | zero => exact h0
  | succ j => exact hj j (Nat.lt_of_succ_lt_succ hlt)

section Until

variable {hold goal : σ → Prop}

/-- One round of the iteration that finds the states that reach a goal. -/
abbrev reach (K : Kripke σ Prop) (paths : Paths) (hold goal : σ → Prop) (z : σ → Prop) : σ → Prop :=
  goal ⊔ (hold ⊓ K.step paths z)

theorem reach_mono (paths : Paths) : Monotone (K.reach paths hold goal) :=
  fun _ _ h => sup_le_sup_left (inf_le_inf_left _ (K.step_mono paths h)) _

theorem solution_reach_iff (paths : Paths) (s : σ) :
    Extremum.least.solution (K.reach paths hold goal) s ↔
      goal s ∨ hold s ∧ K.step paths (Extremum.least.solution (K.reach paths hold goal)) s :=
  iff_of_eq (congrFun (Extremum.least.solution_fixed (reach_mono paths)) s).symm

theorem solution_of_until {π : Nat → σ} (hπ : K.IsPath π) (h : Until hold goal π) :
    Extremum.least.solution (K.reach .some hold goal) (π 0) := by
  obtain ⟨i, hi, hj⟩ := h
  induction i generalizing π with
  | zero => exact (solution_reach_iff _ _).2 (.inl hi)
  | succ i ih =>
    refine (solution_reach_iff _ _).2 (.inr ⟨hj 0 (Nat.succ_pos i), step_some.2 ⟨π 1, hπ 0, ?_⟩⟩)
    exact ih hπ.tail hi fun j hlt => hj (j + 1) (Nat.succ_lt_succ hlt)

/-- A path that avoids the least fixed point as long as it has to: each state that is not in it and
    holds has a successor that is not in it. -/
theorem exists_path_avoiding (htotal : ∀ s, (K.next s).Nonempty) {s : σ}
    (hs : ¬ Extremum.least.solution (K.reach .all hold goal) s) :
    ∃ π, K.IsPath π ∧ π 0 = s ∧ ¬ Until hold goal π := by
  set L := Extremum.least.solution (K.reach .all hold goal) with hL
  have hchoice (s : σ) : ∃ t ∈ K.next s, ¬ L s → hold s → ¬ L t := by
    by_cases hout : ∃ t ∈ K.next s, ¬ L t
    · obtain ⟨t, ht, hLt⟩ := hout
      exact ⟨t, ht, fun _ _ => hLt⟩
    · obtain ⟨t, ht⟩ := htotal s
      refine ⟨t, ht, fun hLs hhold => absurd ((solution_reach_iff _ s).2 (.inr ⟨hhold, ?_⟩)) hLs⟩
      exact step_all.2 fun u hu => not_not.1 fun hLu => hout ⟨u, hu, hLu⟩
  choose choice hnext havoid using hchoice
  refine ⟨follow choice s, isPath_follow hnext s, rfl, ?_⟩
  rintro ⟨i, hgoal, hhold⟩
  have hout (k : Nat) (hk : k ≤ i) : ¬ L (follow choice s k) := by
    induction k with
    | zero => exact hs
    | succ k ih => exact havoid _ (ih (Nat.le_of_succ_le hk)) (hhold k hk)
  exact hout i le_rfl ((solution_reach_iff _ _).2 (.inl hgoal))

/-- The least fixed point has the states whose paths reach a goal. -/
theorem along_until (htotal : ∀ s, (K.next s).Nonempty) (paths : Paths) (s : σ) :
    paths.along K s (Until hold goal) ↔
      Extremum.least.solution (K.reach paths hold goal) s := by
  constructor
  · cases paths with
    | all =>
      intro h
      by_contra hs
      obtain ⟨π, hπ, h0, hnot⟩ := exists_path_avoiding htotal hs
      exact hnot (h π hπ h0)
    | some =>
      rintro ⟨π, hπ, rfl, h⟩
      exact solution_of_until hπ h
  · -- the states whose paths reach a goal are closed under the iteration
    suffices hle : Extremum.least.solution (K.reach paths hold goal) ≤
        fun s => paths.along K s (Until hold goal) from hle s
    refine sInf_le fun s hs => ?_
    cases paths with
    | all =>
      rintro π hπ rfl
      rcases hs with hgoal | ⟨hhold, hstep⟩
      · exact ⟨0, hgoal, nofun⟩
      · exact until_of_tail hhold (step_all.1 hstep _ (hπ 0) _ hπ.tail rfl)
    | some =>
      rcases hs with hgoal | ⟨hhold, hstep⟩
      · obtain ⟨π, hπ, rfl⟩ := exists_path htotal s
        exact ⟨π, hπ, rfl, 0, hgoal, nofun⟩
      · obtain ⟨t, ht, π, hπ, rfl, h⟩ := step_some.1 hstep
        exact ⟨prepend s π, hπ.prepend ht, rfl, until_of_tail hhold h⟩

/-! ## Release -/

theorem not_along (paths : Paths) (s : σ) (condition : (Nat → σ) → Prop) :
    ¬ paths.along K s condition ↔ paths.dual.along K s fun π => ¬ condition π := by
  cases paths with
  | all => simp only [Paths.along, Paths.dual, not_forall, exists_prop]
  | some => simp only [Paths.along, Paths.dual, not_exists, not_and]

/-- The greatest fixed point has the states whose paths stay good until they are released. -/
theorem along_release (htotal : ∀ s, (K.next s).Nonempty) {releaser good : σ → Prop}
    (paths : Paths) (s : σ) :
    paths.along K s (fun π => ∀ i, good (π i) ∨ ∃ j < i, releaser (π j)) ↔
      Extremum.greatest.solution (fun z => good ⊓ (releaser ⊔ K.step paths z)) s := by
  have hdual := congrFun (Property.neg_solution .greatest
    fun z => good ⊓ (releaser ⊔ K.step paths z)) s
  have hfun : (fun z => TruthValue.neg (good ⊓ (releaser ⊔ K.step paths (TruthValue.neg z)))) =
      K.reach paths.dual (TruthValue.neg releaser) (TruthValue.neg good) := by
    funext z
    rw [TruthValue.neg_inf, TruthValue.neg_sup, Property.neg_step, TruthValue.neg_neg]
  rw [hfun] at hdual
  rw [← not_iff_not, not_along]
  refine Iff.trans (Iff.trans ?_ (along_until htotal paths.dual s)) (iff_of_eq hdual.symm)
  have hcond (π : Nat → σ) : (¬ ∀ i, good (π i) ∨ ∃ j < i, releaser (π j)) ↔
      Until (TruthValue.neg releaser) (TruthValue.neg good) π := by
    simp only [not_forall, not_or, not_exists, not_and]
    rfl
  simp only [hcond]

end Until

end Kripke

/-! ## Properties -/

/-- On structures without dead ends, the meaning of a property as a fixed point is what it says about
    infinite paths. -/
theorem Property.holds_eq_meaning {K : Kripke σ Prop} (htotal : ∀ s, (K.next s).Nonempty)
    (p : Property) (env : String → σ → Prop) : p.Holds K env = p.meaning K env := by
  induction p generalizing env with
  | const value =>
    funext s
    cases value <;> simp [Holds, meaning]
  | atom _ | var _ => rfl
  | not p ih =>
    funext s
    rw [Holds, meaning, ih]
    rfl
  | and p q ihp ihq | or p q ihp ihq =>
    funext s
    rw [Holds, meaning, ihp, ihq]
    rfl
  | next paths p ih =>
    funext s
    rw [Holds, meaning, ih]
    exact propext (Kripke.along_next htotal paths _ s)
  | eventually paths p ih =>
    funext s
    rw [Holds, meaning, ih]
    -- to reach something is to reach it while nothing is held
    have hreach : (fun z => p.meaning K env ⊔ K.step paths z) = K.reach paths ⊤ (p.meaning K env) := by
      funext z
      rw [Kripke.reach, top_inf_eq]
    have huntil : Kripke.Until ⊤ (p.meaning K env) = fun π => ∃ i, p.meaning K env (π i) := by
      funext π
      simp [Kripke.Until]
    rw [hreach, ← Kripke.along_until htotal, huntil]
  | always paths p ih =>
    funext s
    rw [Holds, meaning, ih]
    -- to hold always is to be released by nothing
    have hrelease := @Kripke.along_release _ K htotal ⊥ (p.meaning K env) paths s
    simp only [bot_sup_eq] at hrelease
    rw [← hrelease]
    simp
  | holdUntil paths p q ihp ihq =>
    funext s
    rw [Holds, meaning, ihp, ihq]
    exact propext (Kripke.along_until htotal paths s)
  | release paths p q ihp ihq =>
    funext s
    rw [Holds, meaning, ihp, ihq]
    exact propext (Kripke.along_release htotal paths s)
  | fix kind x p ih =>
    rw [Holds, meaning]
    congr 1
    funext z
    exact ih _

end RefineCheck
