/-
  RefineCheck.Proofs.Checker.Existential

  Existential normal form. It speaks of some path only, and has the three-valued value of the
  property on every structure: each rule is an equation of fixed points that needs no more than
  a linear order of truth values. So a checker concludes with the same value for both forms.
-/

import RefineCheck.Proofs.Checker.Fresh

namespace RefineCheck

/-! ## Fixed points of three values -/

section Values

variable {σ : Type} {K : Kripke σ Kleene}

/-- What a labelling has above another one. -/
noncomputable def excess (z y : σ → Kleene) : σ → Kleene := fun s => if z s ≤ y s then ⊥ else z s

theorem excess_le {z y x : σ → Kleene} (h : z ≤ y ⊔ x) : excess z y ≤ x := by
  intro s
  rw [excess]
  split
  · exact bot_le
  · rename_i hle
    exact (le_sup_iff.1 (h s)).resolve_left hle

theorem le_sup_excess (z y : σ → Kleene) : z ≤ y ⊔ excess z y := by
  intro s
  show z s ≤ y s ⊔ excess z y s
  rw [excess]
  split
  · rename_i hle
    exact hle.trans le_sup_left
  · exact le_sup_right

theorem step_some_sup (z y : σ → Kleene) :
    K.step .some (z ⊔ y) = K.step .some z ⊔ K.step .some y := by
  funext s
  show ⨆ t ∈ K.next s, z t ⊔ y t = (⨆ t ∈ K.next s, z t) ⊔ ⨆ t ∈ K.next s, y t
  simp only [iSup_sup_eq]

theorem inf_sup_labels (z y x : σ → Kleene) : z ⊓ (y ⊔ x) = z ⊓ y ⊔ z ⊓ x :=
  funext fun s => inf_sup_left (z s) (y s) (x s)

/-- A path is released or stays good forever: what is above the states that reach a release on
    good states keeps itself good. -/
theorem release_some (p q : σ → Kleene) :
    Extremum.greatest.solution (fun z => q ⊓ (p ⊔ K.step .some z)) =
      Extremum.greatest.solution (fun z => q ⊓ K.step .some z) ⊔
        Extremum.least.solution (fun z => p ⊓ q ⊔ q ⊓ K.step .some z) := by
  have hrelease : Monotone fun z => q ⊓ (p ⊔ K.step .some z) :=
    fun _ _ h => inf_le_inf_left q (sup_le_sup_left (K.step_mono .some h) p)
  have halways : Monotone fun z => q ⊓ K.step .some z :=
    fun _ _ h => inf_le_inf_left q (K.step_mono .some h)
  have huntil : Monotone fun z => p ⊓ q ⊔ q ⊓ K.step .some z :=
    fun _ _ h => sup_le_sup_left (inf_le_inf_left q (K.step_mono .some h)) _
  set r := Extremum.greatest.solution fun z => q ⊓ (p ⊔ K.step .some z) with hr
  set g := Extremum.greatest.solution fun z => q ⊓ K.step .some z with hg
  set u := Extremum.least.solution fun z => p ⊓ q ⊔ q ⊓ K.step .some z with hu
  have hrfix : q ⊓ (p ⊔ K.step .some r) = r := Extremum.greatest.solution_fixed hrelease
  have hgfix : q ⊓ K.step .some g = g := Extremum.greatest.solution_fixed halways
  have hufix : p ⊓ q ⊔ q ⊓ K.step .some u = u := Extremum.least.solution_fixed huntil
  apply le_antisymm
  · -- what is in the release but not in the until keeps itself good forever
    have hsplit : r ≤ u ⊔ q ⊓ K.step .some (excess r u) := by
      calc r = q ⊓ (p ⊔ K.step .some r) := hrfix.symm
        _ ≤ q ⊓ (p ⊔ K.step .some (u ⊔ excess r u)) :=
          inf_le_inf_left q (sup_le_sup_left (K.step_mono .some (le_sup_excess r u)) p)
        _ = p ⊓ q ⊔ q ⊓ K.step .some u ⊔ q ⊓ K.step .some (excess r u) := by
          rw [step_some_sup, inf_sup_labels, inf_sup_labels, inf_comm q p, sup_assoc]
        _ = u ⊔ q ⊓ K.step .some (excess r u) := by rw [hufix]
    have hgood : excess r u ≤ g := le_sSup (excess_le hsplit)
    calc r ≤ u ⊔ excess r u := le_sup_excess r u
      _ ≤ u ⊔ g := sup_le_sup_left hgood u
      _ = g ⊔ u := sup_comm u g
  · -- conversely, both parts are releases
    have hgr : g ≤ r := by
      refine le_sSup ?_
      calc g = q ⊓ K.step .some g := hgfix.symm
        _ ≤ q ⊓ (p ⊔ K.step .some g) := inf_le_inf_left q le_sup_right
    have hur : u ≤ r := by
      refine sInf_le ?_
      calc p ⊓ q ⊔ q ⊓ K.step .some r = q ⊓ (p ⊔ K.step .some r) := by
            rw [inf_sup_labels, inf_comm p q]
        _ ≤ r := le_of_eq hrfix
    exact sup_le hgr hur

end Values

namespace Property

/-! ## The form -/

/-- Whether a property speaks of some path only, with no more operators than needed. -/
def Existential : Property → Prop
  | .const _ | .atom _ | .var _ => True
  | .not p | .fix _ _ p | .next .some p | .always .some p => p.Existential
  | .and p q | .or p q | .holdUntil .some p q => p.Existential ∧ q.Existential
  | .next .all _ | .always .all _ | .holdUntil .all _ _ | .eventually _ _ | .release _ _ _ => False

theorem existential_enf (p : Property) : p.enf.Existential := by
  induction p with
  | const _ | atom _ | var _ => trivial
  | not p ih | fix _ _ p ih => exact ih
  | and p q ihp ihq | or p q ihp ihq => exact ⟨ihp, ihq⟩
  | next paths p ih => cases paths <;> exact ih
  | always paths p ih =>
    cases paths with
    | all => exact ⟨trivial, ih⟩
    | some => exact ih
  | eventually paths p ih =>
    cases paths with
    | all => exact ih
    | some => exact ⟨trivial, ih⟩
  | holdUntil paths p q ihp ihq =>
    cases paths with
    | all => exact ⟨⟨ihq, ihp, ihq⟩, ihq⟩
    | some => exact ⟨ihp, ihq⟩
  | release paths p q ihp ihq =>
    cases paths with
    | all => exact ⟨ihp, ihq⟩
    | some => exact ⟨ihq, ihq, ihp, ihq⟩

/-! ## Names and polarity -/

theorem uses_enf {atom : Atomic → Prop} {binder var : String → Prop} (p : Property) :
    p.enf.Uses atom binder var ↔ p.Uses atom binder var := by
  induction p with
  | const _ | atom _ | var _ => exact Iff.rfl
  | not p ih => exact ih
  | and p q ihp ihq | or p q ihp ihq => exact and_congr ihp ihq
  | fix _ _ p ih => exact and_congr_right fun _ => ih
  | next paths p ih => cases paths <;> exact ih
  | always paths p ih =>
    cases paths with
    | all => exact (and_iff_right trivial).trans ih
    | some => exact ih
  | eventually paths p ih =>
    cases paths with
    | all => exact ih
    | some => exact (and_iff_right trivial).trans ih
  -- the existential form of these repeats their parts, without using anything else
  | holdUntil paths p q ihp ihq =>
    cases paths with
    | all =>
      rw [Uses, ← ihp, ← ihq]
      exact ⟨fun h => ⟨h.1.2.1, h.2⟩, fun h => ⟨⟨h.2, h.1, h.2⟩, h.2⟩⟩
    | some => exact and_congr ihp ihq
  | release paths p q ihp ihq =>
    cases paths with
    | all => exact and_congr ihp ihq
    | some =>
      rw [Uses, ← ihp, ← ihq]
      exact ⟨fun h => ⟨h.2.2.1, h.1⟩, fun h => ⟨h.2, h.2, h.1, h.2⟩⟩

theorem closedUnder_enf (p : Property) (bound : List String) :
    p.enf.closedUnder bound = p.closedUnder bound := by
  induction p generalizing bound with
  | const _ | atom _ | var _ => rfl
  | not p ih => exact ih bound
  | fix _ x p ih => exact ih (x :: bound)
  | and p q ihp ihq | or p q ihp ihq => exact congrArg₂ Bool.and (ihp bound) (ihq bound)
  | next paths p ih | always paths p ih | eventually paths p ih => cases paths <;> exact ih bound
  | holdUntil paths p q ihp ihq =>
    cases paths with
    | all =>
      rw [closedUnder, ← ihp, ← ihq]
      show (q.enf.closedUnder bound && (p.enf.closedUnder bound && q.enf.closedUnder bound) &&
        q.enf.closedUnder bound) = (p.enf.closedUnder bound && q.enf.closedUnder bound)
      cases p.enf.closedUnder bound <;> cases q.enf.closedUnder bound <;> rfl
    | some => exact congrArg₂ Bool.and (ihp bound) (ihq bound)
  | release paths p q ihp ihq =>
    cases paths with
    | all => exact congrArg₂ Bool.and (ihp bound) (ihq bound)
    | some =>
      rw [closedUnder, ← ihp, ← ihq]
      show (q.enf.closedUnder bound && (q.enf.closedUnder bound &&
        (p.enf.closedUnder bound && q.enf.closedUnder bound))) =
          (p.enf.closedUnder bound && q.enf.closedUnder bound)
      cases p.enf.closedUnder bound <;> cases q.enf.closedUnder bound <;> rfl

/-- Each rule negates a part twice or not at all. -/
theorem negatedVariable?_enf (p : Property) {negated : Bool} {bindings : List (String × Bool)}
    (h : negatedVariable? negated bindings p = none) :
    negatedVariable? negated bindings p.enf = none := by
  induction p generalizing negated bindings with
  | const _ | atom _ | var _ => exact h
  | not p ih | fix _ _ p ih => exact ih h
  | next paths p ih | always paths p ih | eventually paths p ih =>
    have hp := ih h
    cases paths <;>
      simp only [enf, negatedVariable?, Bool.not_not, hp, Option.orElse_eq_orElse,
        Option.orElse_eq_or, Option.or_self]
  | and p q ihp ihq | or p q ihp ihq =>
    simp only [negatedVariable?, Option.orElse_eq_orElse, Option.orElse_eq_or,
      Option.or_eq_none_iff, enf] at h ⊢
    exact ⟨ihp h.1, ihq h.2⟩
  | holdUntil paths p q ihp ihq | release paths p q ihp ihq =>
    simp only [negatedVariable?, Option.orElse_eq_orElse, Option.orElse_eq_or,
      Option.or_eq_none_iff] at h
    have hp := ihp h.1
    have hq := ihq h.2
    cases paths <;>
      simp only [enf, negatedVariable?, Bool.not_not, hp, hq, Option.orElse_eq_orElse,
        Option.orElse_eq_or, Option.or_self]

theorem Parsed.enf {p : Property} (hp : p.Parsed) : p.enf.Parsed where
  closed := (closedUnder_enf p []).trans hp.closed
  polarity := negatedVariable?_enf p hp.polarity
  unreserved := (uses_enf p).2 hp.unreserved
  wellNamed := (uses_enf p).2 hp.wellNamed

/-! ## Meaning -/

/-- The existential normal form has the value of the property. -/
theorem meaning_enf {σ : Type} {K : Kripke σ Kleene} (p : Property) (env : String → σ → Kleene) :
    p.enf.meaning K env = p.meaning K env := by
  have hnot (z : σ → Kleene) : (fun s => TruthValue.neg (z s)) = TruthValue.neg z := rfl
  have htop : (fun _ : σ => (⊤ : Kleene)) = ⊤ := rfl
  induction p generalizing env with
  | const _ | atom _ | var _ => rfl
  | not p ih => simp only [enf, meaning, ih]
  | and p q ihp ihq | or p q ihp ihq => simp only [enf, meaning, ihp, ihq]
  | fix kind x p ih => simp only [enf, meaning, ih]
  | next paths p ih =>
    cases paths with
    | all =>
      simp only [enf, meaning, ih, hnot, neg_step, Paths.dual, TruthValue.neg_neg]
    | some => simp only [enf, meaning, ih]
  | eventually paths p ih =>
    cases paths with
    | all =>
      simp only [enf, meaning, ih, hnot, neg_solution, TruthValue.neg_inf, neg_step, Paths.dual,
        Extremum.dual, TruthValue.neg_neg]
    | some => simp only [enf, meaning, ih, if_true, htop, top_inf_eq]
  | always paths p ih =>
    cases paths with
    | all =>
      simp only [enf, meaning, ih, hnot, if_true, htop, top_inf_eq, neg_solution, TruthValue.neg_sup,
        neg_step, Paths.dual, Extremum.dual, TruthValue.neg_neg]
    | some => simp only [enf, meaning, ih]
  | holdUntil paths p q ihp ihq =>
    cases paths with
    | all =>
      -- the complement of an until is a release on some path
      have hrelease := release_some (K := K) (TruthValue.neg (p.meaning K env))
        (TruthValue.neg (q.meaning K env))
      have hdual := neg_solution .greatest fun z =>
        TruthValue.neg (q.meaning K env) ⊓ (TruthValue.neg (p.meaning K env) ⊔ K.step .some z)
      simp only [TruthValue.neg_inf, TruthValue.neg_sup, neg_step, Paths.dual, Extremum.dual,
        TruthValue.neg_neg] at hdual
      simp only [enf, meaning, ihp, ihq, hnot]
      rw [← hdual, hrelease, sup_comm]
    | some => simp only [enf, meaning, ihp, ihq]
  | release paths p q ihp ihq =>
    cases paths with
    | all =>
      simp only [enf, meaning, ihp, ihq, hnot, neg_solution, TruthValue.neg_inf, TruthValue.neg_sup,
        neg_step, Paths.dual, Extremum.dual, TruthValue.neg_neg]
    | some =>
      simp only [enf, meaning, ihp, ihq]
      exact (release_some _ _).symm

end Property

/-! ## Verdicts -/

namespace Checker

/-- The existential normal form has a positive normal form, and a checker that knows nothing yet
    succeeds for both forms of a property and concludes with the same value. -/
theorem check_enf {s : Space} {text : String} {p : Property} (hs : s.Built State.Nonempty)
    (htotal : s.isLeftTotal = true) (hp : Property.parse text = .ok p)
    (hatoms : p.AtomsIn fun a =>
      ∀ (n : StateId) st, s.states[n]? = some st → ∃ v, a.evaluate st = .ok v) :
    p.enf.Existential ∧ (∃ q, p.enf.pnf = .ok q) ∧
      ∃ c c', (empty.check s p).1 = .ok c ∧ (empty.check s p.enf).1 = .ok c' ∧
        (∀ b, c = .known b ↔ c' = .known b) ∧
        ((∃ culprit, c = .unknown culprit) ↔ ∃ culprit, c' = .unknown culprit) ∧
        c ≠ .notCheckable ∧ c' ≠ .notCheckable := by
  have hparsed := Property.parsed_of_parse hp
  have hgood {n : NodeId} {st : State} (hst : s.states[n]? = some st) : st.Nonempty := hs.good hst
  have hinterprets := Decides.interprets_of_stored hatoms hs.valid
  obtain ⟨c, hc, hvalue⟩ := (decides_empty hs.valid hgood hparsed).value htotal hinterprets
  obtain ⟨c', hc', hvalue'⟩ := (decides_empty hs.valid hgood hparsed.enf).value htotal
    ((Property.uses_enf p).2 hinterprets)
  have hverdict : s.verdict p.enf = s.verdict p := by
    simp only [Space.verdict, Property.meaning_enf]
  have hsame := hvalue'.value_eq
  rw [hverdict] at hsame
  refine ⟨Property.existential_enf p, Property.pnf_ok hparsed.enf.polarity, c, c', hc, hc',
    fun b => (known_iff hvalue.value_eq b).trans (known_iff hsame b).symm,
    (unknown_iff hvalue.value_eq).trans (unknown_iff hsame).symm, ?_, ?_⟩
  · rintro rfl
    cases hvalue.value_eq
  · rintro rfl
    cases hsame

/-- An until on all paths with a release inside of a fixed point, on the space with one state. -/
theorem check_enf_loop :
    ∃ p c c', Property.parse "lfp![Z, AU![__panic == 0, ER![__panic != 1, AX![Z]]]]" = .ok p ∧
      (empty.check .loop p).1 = .ok c ∧ (empty.check .loop p.enf).1 = .ok c' ∧
      ∀ b, c = .known b ↔ c' = .known b := by
  have hp : Property.parse "lfp![Z, AU![__panic == 0, ER![__panic != 1, AX![Z]]]]" =
      .ok (.fix .least "Z" (.holdUntil .all (.atom ⟨"__panic", none, .signless, .eq, 0⟩)
        (.release .some (.atom ⟨"__panic", none, .signless, .ne, 1⟩) (.next .all (.var "Z"))))) := by
    decide +kernel
  obtain ⟨-, -, c, c', hc, hc', hknown, -⟩ := check_enf Space.built_loop (by decide +kernel) hp
    ⟨trivial, fun _ _ _ => ⟨_, rfl⟩, fun _ _ _ => ⟨_, rfl⟩, trivial⟩
  exact ⟨_, c, c', hp, hc, hc', hknown⟩

end Checker

end RefineCheck
