/-
  RefineCheck.Proofs.Semantics.Canonical

  The form in which properties are checked means what the property says about infinite paths.
  Variables have the polarity of their fixed points, so the body of each fixed point is
  monotone, and its value is the least or the greatest labelling that the body keeps.
-/

import RefineCheck.Proofs.Property.Parsed
import RefineCheck.Proofs.Semantics.Path

namespace RefineCheck

variable {σ A : Type}

/-! ## Fixed points -/

/-- The least or the greatest of the labellings that a function keeps. -/
def Extremum.IsSolution [PartialOrder A] (kind : Extremum) (F : (σ → A) → σ → A) (z : σ → A) : Prop :=
  match kind with
  | .least => IsLeast {z | F z = z} z
  | .greatest => IsGreatest {z | F z = z} z

theorem Extremum.isSolution_solution [CompleteLattice A] (kind : Extremum) {F : (σ → A) → σ → A}
    (hF : Monotone F) : kind.IsSolution F (kind.solution F) := by
  cases kind with
  | least => exact (Extremum.solution_extreme hF).1
  | greatest => exact (Extremum.solution_extreme hF).2

theorem Extremum.dual_dual (kind : Extremum) : kind.dual.dual = kind := by
  cases kind <;> rfl

namespace Property

/-- Whether a reading of properties gives every fixed point inside a property a labelling that solves
    its body, whatever the variables around it stand for. -/
def Solved [PartialOrder A] (read : (String → σ → A) → Property → σ → A) : Property → Prop
  | .const _ | .atom _ | .var _ => True
  | .not p | .next _ p | .eventually _ p | .always _ p => p.Solved read
  | .and p q | .or p q | .holdUntil _ p q | .release _ p q => p.Solved read ∧ q.Solved read
  | .fix kind name p => p.Solved read ∧
    ∀ env, kind.IsSolution (fun z => read (Function.update env name z) p) (read env (.fix kind name p))

/-! ## Polarity -/

/-- The direction in which a property follows a variable that was bound under other negations. -/
def direction (bound negated : Bool) : Extremum := if bound = negated then .least else .greatest

theorem direction_not (bound negated : Bool) : direction bound (!negated) = (direction bound negated).dual := by
  cases bound <;> cases negated <;> rfl

section Order

variable [TruthValue A] {K : Kripke σ A} {way : Extremum}

theorem le_neg {z z' : σ → A} (h : way.Le z z') : way.dual.Le (TruthValue.neg z) (TruthValue.neg z') := by
  cases way with
  | least => exact TruthValue.neg_anti h
  | greatest => exact TruthValue.neg_anti h

theorem le_inf {z z' y y' : σ → A} (h : way.Le z z') (h' : way.Le y y') :
    way.Le (z ⊓ y) (z' ⊓ y') := by
  cases way with
  | least => exact inf_le_inf h h'
  | greatest => exact inf_le_inf h h'

theorem le_sup {z z' y y' : σ → A} (h : way.Le z z') (h' : way.Le y y') :
    way.Le (z ⊔ y) (z' ⊔ y') := by
  cases way with
  | least => exact sup_le_sup h h'
  | greatest => exact sup_le_sup h h'

theorem le_step (paths : Paths) {z z' : σ → A} (h : way.Le z z') :
    way.Le (K.step paths z) (K.step paths z') :=
  h.map (K.step_mono paths)

theorem le_solution (kind : Extremum) {F F' : (σ → A) → σ → A} (h : ∀ z, way.Le (F z) (F' z)) :
    way.Le (kind.solution F) (kind.solution F') := by
  cases way with
  | least => exact Extremum.solution_mono h
  | greatest => exact Extremum.solution_mono h

/-- A property follows a variable in the direction that the negations around it give. -/
theorem meaning_follows {p : Property} {negated bound : Bool} {bindings : List (String × Bool)}
    (hp : negatedVariable? negated bindings p = none) {x : String}
    (hx : bindings.lookup x = some bound) {env env' : String → σ → A}
    (hsame : ∀ y, y ≠ x → env y = env' y) (hle : env x ≤ env' x) :
    (direction bound negated).Le (p.meaning K env) (p.meaning K env') := by
  induction p generalizing negated bindings env env' with
  | const _ | atom _ => exact .refl _ _
  | var y =>
    by_cases hy : y = x
    · subst hy
      rw [negatedVariable?, hx, Option.getD_some] at hp
      split at hp
      · rename_i hbound
        rw [direction, if_pos hbound]
        exact hle
      · cases hp
    · rw [meaning, meaning, hsame y hy]
      exact .refl _ _
  | not p ih =>
    have := le_neg (ih hp hx hsame hle)
    rwa [direction_not, Extremum.dual_dual] at this
  | next paths p ih => exact le_step paths (ih hp hx hsame hle)
  | eventually paths p ih =>
    exact le_solution _ fun z => le_sup (ih hp hx hsame hle) (.refl _ _)
  | always paths p ih =>
    exact le_solution _ fun z => le_inf (ih hp hx hsame hle) (.refl _ _)
  -- the operators are monotone in both parts
  | and p q ihp ihq | or p q ihp ihq | holdUntil _ p q ihp ihq | release _ p q ihp ihq =>
    simp only [negatedVariable?, Option.orElse_eq_orElse, Option.orElse_eq_or,
      Option.or_eq_none_iff] at hp
    have hl := ihp hp.1 hx hsame hle
    have hr := ihq hp.2 hx hsame hle
    first
    | exact le_inf hl hr
    | exact le_sup hl hr
    | exact le_solution _ fun z => le_sup hr (le_inf hl (.refl _ _))
    | exact le_solution _ fun z => le_inf hr (le_sup hl (.refl _ _))
  | fix kind y p ih =>
    refine le_solution kind fun z => ?_
    by_cases hy : y = x
    · -- the variable is bound again, so both sides are the same
      have hupdate : Function.update env y z = Function.update env' y z := by
        funext k
        by_cases hk : k = y
        · rw [hk, Function.update_self, Function.update_self]
        · rw [Function.update_of_ne hk, Function.update_of_ne hk, hsame k (hy ▸ hk)]
      rw [hupdate]
      exact .refl _ _
    · have hxy : x ≠ y := fun h => hy h.symm
      refine ih hp (by rw [List.lookup_cons, beq_eq_false_iff_ne.2 hxy]; exact hx) (fun k hk => ?_) ?_
      · by_cases hky : k = y
        · rw [hky, Function.update_self, Function.update_self]
        · rw [Function.update_of_ne hky, Function.update_of_ne hky, hsame k hk]
      · rw [Function.update_of_ne hxy, Function.update_of_ne hxy]
        exact hle

/-- If variables have the polarity of their fixed points, all fixed points are solutions. -/
theorem solved_meaning {p : Property} {negated : Bool} {bindings : List (String × Bool)}
    (hp : negatedVariable? negated bindings p = none) : p.Solved (meaning K) := by
  induction p generalizing negated bindings with
  | const _ | atom _ | var _ => trivial
  | not p ih | next _ p ih | eventually _ p ih | always _ p ih => exact ih hp
  | and p q ihp ihq | or p q ihp ihq | holdUntil _ p q ihp ihq | release _ p q ihp ihq =>
    simp only [negatedVariable?, Option.orElse_eq_orElse, Option.orElse_eq_or,
      Option.or_eq_none_iff] at hp
    exact ⟨ihp hp.1, ihq hp.2⟩
  | fix kind x p ih =>
    refine ⟨ih hp, fun env => kind.isSolution_solution fun z z' hz => ?_⟩
    have h := @meaning_follows _ _ _ K p negated negated ((x, negated) :: bindings) hp x
      (by simp) (Function.update env x z) (Function.update env x z')
      (fun y hy => by rw [Function.update_of_ne hy, Function.update_of_ne hy])
      (by rwa [Function.update_self, Function.update_self])
    rwa [direction, if_pos rfl] at h

end Order

/-! ## The form that is checked -/

/-- The states that satisfy the canonical form of the positive normal form are those that satisfy the
    property. The canonical form is read by fixed points over direct successors, the property over
    infinite paths, and the fixed points of the property are the extreme solutions of their bodies. -/
theorem canonical_pnf_holds {text : String} {p : Property} (hp : Property.parse text = .ok p) :
    ∃ q, p.pnf = .ok q ∧ q.canonical.IsCanonical ∧
      ∀ {σ : Type} (K : Kripke σ Prop), (∀ s, (K.next s).Nonempty) →
        (∀ a s, K.atom a.complement s ↔ ¬ K.atom a s) →
        p.Solved (Holds K) ∧
          ∀ env env' s, q.canonical.meaning K env' s ↔ p.Holds K env s := by
  have hparsed := parsed_of_parse hp
  obtain ⟨q, hq⟩ := positive_ok hparsed.polarity
  obtain ⟨hunreserved, hneg, hclosed⟩ := positive_shape (fun _ h => h) hq hparsed.unreserved
  refine ⟨q, p.pnf_eq_positive.trans hq, isCanonical_canonicalAt 0 hneg, fun K htotal hcomplement => ⟨?_, fun env env' s => ?_⟩⟩
  · have hreading : Holds K = meaning K :=
      funext fun env => funext fun p => holds_eq_meaning htotal p env
    rw [hreading]
    exact solved_meaning hparsed.polarity
  · have hK : Complementary (fun _ => True) K := fun a _ => funext fun s => propext (hcomplement a s)
    have hcanonical : q.canonical.meaning K env' = q.meaning K env' :=
      canonicalAt_meaning 0 (List.forall_mem_nil _) (hclosed [] hparsed.closed) hunreserved
    have hpositive : q.meaning K env' = p.meaning K env :=
      positive_meaning hK hq (hparsed.unreserved.imp (fun _ h => h) (fun _ _ => trivial) fun _ h => h)
        hparsed.closed fun _ _ h => by cases h
    rw [hcanonical, hpositive, holds_eq_meaning htotal]

/-- Two states that lead to each other, in the first of which equalities and upper bounds hold and in
    the second of which their complements do. -/
def toggle : Kripke Bool Prop where
  next s := {!s}
  atom a s := (a.comparison = .eq ∨ a.comparison = .lt ∨ a.comparison = .le) ↔ s = true

/-- A negated operator with a fixed point inside, in two states that lead to each other. -/
theorem canonical_pnf_holds_toggle :
    ∃ p q, Property.parse "!(EU![x == 1, gfp![Z, y < 3 && AX![AX![Z]]]])" = .ok p ∧ p.pnf = .ok q ∧
      ∀ s, q.canonical.meaning toggle (fun _ _ => False) s ↔ p.Holds toggle (fun _ _ => False) s := by
  have hp : Property.parse "!(EU![x == 1, gfp![Z, y < 3 && AX![AX![Z]]]])" =
      .ok (.not (.holdUntil .some (.atom ⟨"x", none, .signless, .eq, 1⟩)
        (.fix .greatest "Z" (.and (.atom ⟨"y", none, .signless, .lt, 3⟩)
          (.next .all (.next .all (.var "Z"))))))) := by
    decide +kernel
  have hcomplement (a : Atomic) (s : Bool) : toggle.atom a.complement s ↔ ¬ toggle.atom a s := by
    obtain ⟨_, _, _, comparison, _⟩ := a
    cases comparison <;> cases s <;>
      simp [toggle, Atomic.complement, Comparison.complement]
  obtain ⟨q, hq, -, h⟩ := canonical_pnf_holds hp
  exact ⟨_, q, hp, hq, (h toggle (fun s => ⟨!s, rfl⟩) hcomplement).2 _ _⟩

end Property

end RefineCheck
