/-
  RefineCheck.Proofs.Semantics.Embedding

  The value of a property in a state depends only on the states that can be reached from it:
  a part of a structure that no step leaves gives its states the same values as the whole.
-/

import RefineCheck.Proofs.Semantics.Meaning

namespace RefineCheck

variable {σ σ' A : Type}

/-- A structure is a part of another one that no step leaves. -/
structure Kripke.Embeds (i : σ' → σ) (K' : Kripke σ' A) (K : Kripke σ A) : Prop where
  injective : Function.Injective i
  next_eq (t : σ') : K.next (i t) = i '' K'.next t
  atom_eq (a : Atomic) (t : σ') : K.atom a (i t) = K'.atom a t

/-- The part of a structure that consists of some of its states. -/
def Kripke.restrict (K : Kripke σ A) (S : Set σ) : Kripke S A where
  next t := {u | u.1 ∈ K.next t.1}
  atom a t := K.atom a t.1

theorem Kripke.embeds_restrict {K : Kripke σ A} {S : Set σ} (hS : ∀ s ∈ S, K.next s ⊆ S) :
    Embeds Subtype.val (K.restrict S) K where
  injective := Subtype.val_injective
  next_eq t := by
    ext u
    constructor
    · exact fun hu => ⟨⟨u, hS t.1 t.2 hu⟩, hu, rfl⟩
    · rintro ⟨v, hv, rfl⟩
      exact hv
  atom_eq _ _ := rfl

/-! ## Fixed points -/

section Solution

variable [CompleteLattice A] {i : σ' → σ}

/-- A labelling of the part is extended by the value that does not disturb the solution. -/
theorem Extremum.least_comp (hi : Function.Injective i) {F : (σ → A) → σ → A}
    {F' : (σ' → A) → σ' → A} (h : ∀ z, F z ∘ i = F' (z ∘ i)) :
    Extremum.least.solution F ∘ i = Extremum.least.solution F' := by
  apply le_antisymm
  · refine le_sInf fun z hz => ?_
    have hext : Function.extend i z (fun _ => ⊤) ∘ i = z :=
      funext fun t => hi.extend_apply z _ t
    have hclosed : F (Function.extend i z fun _ => ⊤) ≤ Function.extend i z fun _ => ⊤ := by
      intro s
      by_cases hs : ∃ t, i t = s
      · obtain ⟨t, rfl⟩ := hs
        have hzt := hz t
        rw [← hext, ← h] at hzt
        exact hzt
      · rw [Function.extend_apply' _ _ _ hs]
        exact le_top
    intro t
    have hle := (sInf_le hclosed : sInf {z | F z ≤ z} ≤ _) (i t)
    rwa [hi.extend_apply] at hle
  · -- the part of a closed labelling is closed in the part
    intro t
    show sInf {z | F' z ≤ z} t ≤ sInf {z | F z ≤ z} (i t)
    rw [sInf_apply, sInf_apply]
    refine le_iInf fun z => ?_
    have hz : F' (z.1 ∘ i) ≤ z.1 ∘ i := by
      rw [← h]
      exact fun t => z.2 (i t)
    exact iInf_le (fun z : {z | F' z ≤ z} => z.1 t) ⟨z.1 ∘ i, hz⟩

/-- The solution for the whole is the solution for a part, there. -/
theorem Extremum.solution_comp (hi : Function.Injective i) {F : (σ → A) → σ → A}
    {F' : (σ' → A) → σ' → A} (h : ∀ z, F z ∘ i = F' (z ∘ i)) (kind : Extremum) :
    kind.solution F ∘ i = kind.solution F' := by
  cases kind with
  | least => exact Extremum.least_comp hi h
  | greatest => exact Extremum.least_comp (A := Aᵒᵈ) hi h

theorem Kripke.Embeds.step_comp {K' : Kripke σ' A} {K : Kripke σ A} (h : Embeds i K' K)
    (paths : Paths) (z : σ → A) : K.step paths z ∘ i = K'.step paths (z ∘ i) := by
  funext t
  cases paths with
  | all =>
    show ⨅ u ∈ K.next (i t), z u = ⨅ u ∈ K'.next t, z (i u)
    rw [h.next_eq, iInf_image]
  | some =>
    show ⨆ u ∈ K.next (i t), z u = ⨆ u ∈ K'.next t, z (i u)
    rw [h.next_eq, iSup_image]

end Solution

/-! ## Properties -/

/-- A part of a structure that no step leaves gives properties the values that the whole gives. -/
theorem Property.meaning_embeds [TruthValue A] {i : σ' → σ} {K' : Kripke σ' A} {K : Kripke σ A}
    (h : Kripke.Embeds i K' K) (env : String → σ → A) (p : Property) :
    p.meaning K env ∘ i = p.meaning K' fun x => env x ∘ i := by
  induction p generalizing env with
  | const _ | var _ => rfl
  | atom a => exact funext (h.atom_eq a)
  | not p ih =>
    funext t
    exact congrArg TruthValue.neg (congrFun (ih env) t)
  | and p q ihp ihq =>
    funext t
    exact congrArg₂ (· ⊓ ·) (congrFun (ihp env) t) (congrFun (ihq env) t)
  | or p q ihp ihq =>
    funext t
    exact congrArg₂ (· ⊔ ·) (congrFun (ihp env) t) (congrFun (ihq env) t)
  | next paths p ih =>
    rw [meaning, meaning, h.step_comp, ih]
  | eventually paths p ih =>
    refine Extremum.solution_comp h.injective (fun z => ?_) .least
    rw [← ih env, ← h.step_comp]
    rfl
  | always paths p ih =>
    refine Extremum.solution_comp h.injective (fun z => ?_) .greatest
    rw [← ih env, ← h.step_comp]
    rfl
  | holdUntil paths p q ihp ihq =>
    refine Extremum.solution_comp h.injective (fun z => ?_) .least
    rw [← ihp env, ← ihq env, ← h.step_comp]
    rfl
  | release paths p q ihp ihq =>
    refine Extremum.solution_comp h.injective (fun z => ?_) .greatest
    rw [← ihp env, ← ihq env, ← h.step_comp]
    rfl
  | fix kind x p ih =>
    refine Extremum.solution_comp h.injective (fun z => ?_) kind
    rw [ih]
    congr 1
    funext y
    by_cases hy : y = x
    · rw [hy, Function.update_self, Function.update_self]
    · rw [Function.update_of_ne hy, Function.update_of_ne hy]

/-- Structures that agree on a set of states that no step leaves give them the same values. -/
theorem Property.meaning_agree [TruthValue A] {K K' : Kripke σ A} {S : Set σ}
    (hS : ∀ s ∈ S, K.next s ⊆ S) (hnext : ∀ s ∈ S, K.next s = K'.next s)
    (hatom : ∀ a, ∀ s ∈ S, K.atom a s = K'.atom a s) {env env' : String → σ → A}
    (henv : ∀ x, ∀ s ∈ S, env x s = env' x s) (p : Property) {s : σ} (hs : s ∈ S) :
    p.meaning K env s = p.meaning K' env' s := by
  have hrestrict : K.restrict S = K'.restrict S := by
    refine congrArg₂ Kripke.mk (funext fun t => ?_) (funext fun a => funext fun t => hatom a t t.2)
    simp only [hnext t t.2]
  have h := congrFun (meaning_embeds (K.embeds_restrict hS) env p) ⟨s, hs⟩
  have h' := congrFun (meaning_embeds
    (K'.embeds_restrict fun s hs => hnext s hs ▸ hS s hs) env' p) ⟨s, hs⟩
  have hval : (fun x => env x ∘ (Subtype.val : S → σ)) = fun x => env' x ∘ Subtype.val :=
    funext fun x => funext fun t => henv x t t.2
  rw [hrestrict, hval] at h
  exact h.trans h'.symm

end RefineCheck
