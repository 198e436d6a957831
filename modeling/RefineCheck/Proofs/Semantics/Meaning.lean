/-
  RefineCheck.Proofs.Semantics.Meaning

  The meaning of properties on Kripke structures, for any complete lattice of truth values
  with a negation. Two lattices are used: the three values of `Kleene`, in which unknown lies
  between false and true, and the propositions. Temporal operators are fixed points.
-/

import Mathlib
import RefineCheck.Kleene
import RefineCheck.Property

namespace RefineCheck

/-! ## Truth values -/

/-- Truth values that can be negated. Negation reverses the order. -/
class TruthValue (A : Type) extends CompleteLattice A where
  neg : A → A
  neg_neg (a : A) : neg (neg a) = a
  neg_anti {a b : A} : a ≤ b → neg b ≤ neg a

namespace TruthValue

variable {A : Type} [TruthValue A]

theorem le_neg_iff {a b : A} : a ≤ neg b ↔ b ≤ neg a := by
  constructor
  · intro h
    have := neg_anti h
    rwa [neg_neg] at this
  · intro h
    have := neg_anti h
    rwa [neg_neg] at this

theorem neg_le_iff {a b : A} : neg a ≤ b ↔ neg b ≤ a := by
  constructor
  · intro h
    have := neg_anti h
    rwa [neg_neg] at this
  · intro h
    have := neg_anti h
    rwa [neg_neg] at this

/-- Negation exchanges least upper and greatest lower bounds. -/
theorem neg_sSup (S : Set A) : neg (sSup S) = sInf (neg '' S) := by
  apply le_antisymm
  · apply le_sInf
    rintro _ ⟨a, ha, rfl⟩
    exact neg_anti (le_sSup ha)
  · rw [le_neg_iff]
    apply sSup_le
    intro a ha
    rw [le_neg_iff]
    exact sInf_le ⟨a, ha, rfl⟩

theorem neg_sInf (S : Set A) : neg (sInf S) = sSup (neg '' S) := by
  apply le_antisymm
  · rw [neg_le_iff]
    apply le_sInf
    intro a ha
    rw [neg_le_iff]
    exact le_sSup ⟨a, ha, rfl⟩
  · apply sSup_le
    rintro _ ⟨a, ha, rfl⟩
    exact neg_anti (sInf_le ha)

theorem neg_top : neg (⊤ : A) = ⊥ :=
  le_bot_iff.1 (neg_le_iff.1 le_top)

theorem neg_bot : neg (⊥ : A) = ⊤ := by
  rw [← neg_top, neg_neg]

theorem neg_inf (a b : A) : neg (a ⊓ b) = neg a ⊔ neg b := by
  apply le_antisymm
  · rw [neg_le_iff]
    exact le_inf (neg_le_iff.1 le_sup_left) (neg_le_iff.1 le_sup_right)
  · exact sup_le (neg_anti inf_le_left) (neg_anti inf_le_right)

theorem neg_sup (a b : A) : neg (a ⊔ b) = neg a ⊓ neg b := by
  apply le_antisymm
  · exact le_inf (neg_anti le_sup_left) (neg_anti le_sup_right)
  · rw [le_neg_iff]
    exact sup_le (le_neg_iff.1 inf_le_left) (le_neg_iff.1 inf_le_right)

theorem neg_iInf {ι : Sort*} (f : ι → A) : neg (⨅ i, f i) = ⨆ i, neg (f i) := by
  rw [iInf, neg_sInf, iSup, ← Set.range_comp]
  rfl

theorem neg_iSup {ι : Sort*} (f : ι → A) : neg (⨆ i, f i) = ⨅ i, neg (f i) := by
  rw [iSup, neg_sSup, iInf, ← Set.range_comp]
  rfl

end TruthValue

instance : TruthValue Prop where
  neg := Not
  neg_neg _ := propext not_not
  neg_anti h := fun hb ha => hb (h ha)

/-! ## Three values as a lattice -/

namespace Kleene

/-- The place of a value in the order. -/
def rank : Kleene → Fin 3
  | .ff => 0
  | .unknown => 1
  | .tt => 2

theorem rank_injective : Function.Injective rank := by
  intro v u h
  cases v <;> cases u <;> first | rfl | exact absurd h (by decide)

instance : Fintype Kleene where
  elems := {.ff, .unknown, .tt}
  complete v := by cases v <;> decide

instance : LinearOrder Kleene := LinearOrder.lift' rank rank_injective

instance : BoundedOrder Kleene where
  top := .tt
  bot := .ff
  le_top v := by cases v <;> decide
  bot_le v := by cases v <;> decide

noncomputable instance : CompleteLattice Kleene := Fintype.toCompleteLattice Kleene

noncomputable instance : TruthValue Kleene where
  neg := Kleene.not
  neg_neg v := by cases v <;> rfl
  neg_anti {v u} h := by
    revert h
    cases v <;> cases u <;> decide

theorem and_eq_inf (v u : Kleene) : v.and u = v ⊓ u := by
  cases v <;> cases u <;> rfl

theorem or_eq_sup (v u : Kleene) : v.or u = v ⊔ u := by
  cases v <;> cases u <;> rfl

theorem top_eq : (⊤ : Kleene) = .tt := rfl

theorem bot_eq : (⊥ : Kleene) = .ff := rfl

end Kleene

/-! ## Structures -/

/-- States with successors, and the value of each atomic property in each state. -/
structure Kripke (σ A : Type) where
  next : σ → Set σ
  atom : Atomic → σ → A

/-- The value over all or over some states of a set. -/
def Paths.over {σ A : Type} [CompleteLattice A] (paths : Paths) (S : Set σ) (z : σ → A) : A :=
  match paths with
  | .all => ⨅ t ∈ S, z t
  | .some => ⨆ t ∈ S, z t

/-- The value in the successors of each state. -/
def Kripke.step {σ A : Type} [CompleteLattice A] (K : Kripke σ A) (paths : Paths) (z : σ → A) :
    σ → A :=
  fun s => paths.over (K.next s) z

/-- The least labelling that a function does not raise, or the greatest that it does not lower. For
    a monotone function these are its least and its greatest fixed point. -/
def Extremum.solution {σ A : Type} [CompleteLattice A] (kind : Extremum)
    (f : (σ → A) → σ → A) : σ → A :=
  match kind with
  | .least => sInf {z | f z ≤ z}
  | .greatest => sSup {z | z ≤ f z}

/-- The value of a property in each state, where the environment labels the free variables. -/
def Property.meaning {σ A : Type} [TruthValue A] (K : Kripke σ A) :
    (env : String → σ → A) → Property → σ → A
  | _, .const value => fun _ => if value then ⊤ else ⊥
  | _, .atom a => K.atom a
  | env, .not p => fun s => TruthValue.neg (meaning K env p s)
  | env, .and p q => meaning K env p ⊓ meaning K env q
  | env, .or p q => meaning K env p ⊔ meaning K env q
  | env, .next paths p => K.step paths (meaning K env p)
  | env, .eventually paths p =>
    Extremum.least.solution fun z => meaning K env p ⊔ K.step paths z
  | env, .always paths p =>
    Extremum.greatest.solution fun z => meaning K env p ⊓ K.step paths z
  | env, .holdUntil paths p q =>
    Extremum.least.solution fun z => meaning K env q ⊔ (meaning K env p ⊓ K.step paths z)
  | env, .release paths p q =>
    Extremum.greatest.solution fun z => meaning K env q ⊓ (meaning K env p ⊔ K.step paths z)
  | env, .fix kind name p => kind.solution fun z => meaning K (Function.update env name z) p
  | env, .var name => env name

/-! ## Fixed points of monotone functions -/

section Solution

variable {σ A : Type} [CompleteLattice A] {f g : (σ → A) → σ → A}

theorem Paths.over_mono (paths : Paths) (S : Set σ) : Monotone (paths.over (A := A) S) := by
  intro z z' h
  cases paths with
  | all => exact iInf₂_mono fun t _ => h t
  | some => exact iSup₂_mono fun t _ => h t

theorem Kripke.step_mono (K : Kripke σ A) (paths : Paths) : Monotone (K.step paths) :=
  fun _ _ h s => paths.over_mono (K.next s) h

theorem Extremum.solution_mono {kind : Extremum} (h : ∀ z, f z ≤ g z) :
    kind.solution f ≤ kind.solution g := by
  cases kind with
  | least => exact sInf_le_sInf fun z hz => le_trans (h z) hz
  | greatest => exact sSup_le_sSup fun z hz => le_trans hz (h z)

/-- The solution of a monotone function is a fixed point. -/
theorem Extremum.solution_fixed (kind : Extremum) (hf : Monotone f) :
    f (kind.solution f) = kind.solution f := by
  cases kind with
  | least => exact OrderHom.map_lfp ⟨f, hf⟩
  | greatest => exact OrderHom.map_gfp ⟨f, hf⟩

/-- It is the least or the greatest of all fixed points. -/
theorem Extremum.solution_extreme (hf : Monotone f) :
    IsLeast {z | f z = z} (Extremum.least.solution f) ∧
      IsGreatest {z | f z = z} (Extremum.greatest.solution f) :=
  ⟨⟨Extremum.least.solution_fixed hf, fun _ hz => sInf_le (le_of_eq hz)⟩,
    ⟨Extremum.greatest.solution_fixed hf, fun _ hz => le_sSup (ge_of_eq hz)⟩⟩

end Solution

/-! ## Iteration -/

namespace Extremum

/-- The order in which a fixed point is approached: from below or from above. -/
def Le {A : Type} [LE A] (kind : Extremum) (a b : A) : Prop :=
  match kind with
  | .least => a ≤ b
  | .greatest => b ≤ a

/-- The value that comes before all others. -/
def start {A : Type} [CompleteLattice A] : Extremum → A
  | .least => ⊥
  | .greatest => ⊤

section Order

variable {A : Type} [PartialOrder A] {kind : Extremum} {a b c : A}

theorem Le.refl (kind : Extremum) (a : A) : kind.Le a a := by
  cases kind <;> exact le_rfl

theorem Le.trans (h : kind.Le a b) (h' : kind.Le b c) : kind.Le a c := by
  cases kind with
  | least => exact le_trans h h'
  | greatest => exact le_trans h' h

theorem Le.antisymm (h : kind.Le a b) (h' : kind.Le b a) : a = b := by
  cases kind with
  | least => exact le_antisymm h h'
  | greatest => exact le_antisymm h' h

theorem Le.pointwise {σ : Type} {z z' : σ → A} : kind.Le z z' ↔ ∀ s, kind.Le (z s) (z' s) := by
  cases kind <;> exact Iff.rfl

end Order

variable {σ A : Type} [CompleteLattice A] {kind : Extremum} {F : (σ → A) → σ → A} {z : σ → A}

theorem start_le (kind : Extremum) (a : A) : kind.Le kind.start a := by
  cases kind with
  | least => exact bot_le
  | greatest => exact le_top

theorem Le.map {z' : σ → A} (h : kind.Le z z') (hF : Monotone F) : kind.Le (F z) (F z') := by
  cases kind with
  | least => exact hF h
  | greatest => exact hF h

theorem solution_le (h : kind.Le (F z) z) : kind.Le (kind.solution F) z := by
  cases kind with
  | least => exact sInf_le h
  | greatest => exact le_sSup h

/-- A labelling that is the solution outside of some states and that the function keeps inside of
    them is the solution, if it was approached from the right side. -/
theorem eq_solution (hF : Monotone F) (targets : Set σ) (hle : kind.Le z (kind.solution F))
    (hout : ∀ s ∉ targets, z s = kind.solution F s) (hin : ∀ s ∈ targets, F z s = z s) :
    z = kind.solution F := by
  refine hle.antisymm (solution_le (Le.pointwise.2 fun s => ?_))
  by_cases hs : s ∈ targets
  · rw [hin s hs]
    exact .refl kind (z s)
  · have := Le.pointwise.1 (hle.map hF) s
    rwa [kind.solution_fixed hF, ← hout s hs] at this

end Extremum

/-! ## Bound variables -/

namespace Property

theorem closedUnder_mono {p : Property} {bound bound' : List String}
    (h : ∀ x ∈ bound, x ∈ bound') (hp : p.closedUnder bound = true) :
    p.closedUnder bound' = true := by
  induction p generalizing bound bound' with
  | const _ | atom _ => rfl
  | var x =>
    rw [closedUnder, List.contains_iff_mem] at *
    exact h x hp
  | not p ih | next _ p ih | eventually _ p ih | always _ p ih => exact ih h hp
  | and p q ihp ihq | or p q ihp ihq | holdUntil _ p q ihp ihq | release _ p q ihp ihq =>
    rw [closedUnder, Bool.and_eq_true] at *
    exact ⟨ihp h hp.1, ihq h hp.2⟩
  | fix _ x p ih =>
    refine ih (fun y hy => ?_) hp
    rcases List.mem_cons.1 hy with rfl | hy
    · exact List.mem_cons_self
    · exact List.mem_cons_of_mem _ (h y hy)

variable {σ A : Type} [TruthValue A] {K : Kripke σ A}

/-- The meaning depends on the variables that are not bound inside only. -/
theorem meaning_congr {p : Property} {bound : List String} {env env' : String → σ → A}
    (hp : p.closedUnder bound = true) (h : ∀ x ∈ bound, env x = env' x) :
    p.meaning K env = p.meaning K env' := by
  induction p generalizing bound env env' with
  | const _ | atom _ => rfl
  | var x =>
    rw [closedUnder, List.contains_iff_mem] at hp
    exact h x hp
  | not p ih | next _ p ih | eventually _ p ih | always _ p ih => simp only [meaning, ih hp h]
  | and p q ihp ihq | or p q ihp ihq | holdUntil _ p q ihp ihq | release _ p q ihp ihq =>
    rw [closedUnder, Bool.and_eq_true] at hp
    simp only [meaning, ihp hp.1 h, ihq hp.2 h]
  | fix kind x p ih =>
    have hbody (z : σ → A) : p.meaning K (Function.update env x z) =
        p.meaning K (Function.update env' x z) := by
      refine ih hp fun y hy => ?_
      by_cases hyx : y = x
      · rw [hyx, Function.update_self, Function.update_self]
      · rw [Function.update_of_ne hyx, Function.update_of_ne hyx]
        exact h y ((List.mem_cons.1 hy).resolve_left hyx)
    simp only [meaning, hbody]

end Property

end RefineCheck
