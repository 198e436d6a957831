/-
  RefineCheck.Proofs.Labelling.Formula

  The meaning of numbered formulas, and what the numbers guarantee: a number stands for one
  body wherever it occurs, shared parts are closed, and the fixed points that are iterated
  while another part is labelled never have the numbers that part depends on.
-/

import Mathlib
import RefineCheck.Labelling.Formula
import RefineCheck.Proofs.Property.Readable

namespace RefineCheck.Formula

/-! ## Meaning -/

/-- The value of a formula in each state, where the environment labels the variables. -/
def meaning {σ A : Type} [CompleteLattice A] (K : Kripke σ A) :
    (env : Nat → σ → A) → Formula → σ → A
  | _, .const value => fun _ => if value then ⊤ else ⊥
  | _, .atom a => K.atom a
  | env, .and f g => meaning K env f ⊓ meaning K env g
  | env, .or f g => meaning K env f ⊔ meaning K env g
  | env, .next paths f => K.step paths (meaning K env f)
  | env, .fix id kind _ f => kind.solution fun z => meaning K (Function.update env id z) f
  | env, .var id _ => env id
  | env, .shared _ f => meaning K env f

section Meaning

variable {σ A : Type} [CompleteLattice A] {K : Kripke σ A}

theorem meaning_mono (f : Formula) : Monotone fun env => f.meaning K env := by
  induction f with
  | const _ | atom _ => exact fun _ _ _ => le_rfl
  | and f g ihf ihg => exact fun _ _ h => inf_le_inf (ihf h) (ihg h)
  | or f g ihf ihg => exact fun _ _ h => sup_le_sup (ihf h) (ihg h)
  | next paths f ih => exact fun _ _ h => K.step_mono paths (ih h)
  | fix id kind _ f ih =>
    exact fun _ _ h => Extremum.solution_mono fun z => ih (update_le_update_iff.2
      ⟨le_rfl, fun j _ => h j⟩)
  | var id _ => exact fun _ _ h => h id
  | shared _ f ih => exact ih

/-- The body of a fixed point is monotone in its variable. -/
theorem body_mono (f : Formula) (env : Nat → σ → A) (id : Nat) :
    Monotone fun z => f.meaning K (Function.update env id z) := by
  intro z z' h
  exact f.meaning_mono (update_le_update_iff.2 ⟨h, fun _ _ => le_rfl⟩)

end Meaning

/-! ## Free variables -/

/-- Whether every variable is bound inside or belongs to a set, and every shared part is closed. -/
def Closed : (bound : Set Nat) → Formula → Prop
  | _, .const _ | _, .atom _ => True
  | bound, .and f g | bound, .or f g => f.Closed bound ∧ g.Closed bound
  | bound, .next _ f => f.Closed bound
  | bound, .fix id _ _ f => f.Closed (insert id bound)
  | bound, .var id _ => id ∈ bound
  | _, .shared _ f => f.Closed ∅

theorem Closed.mono {f : Formula} {bound bound' : Set Nat} (h : bound ⊆ bound')
    (hf : f.Closed bound) : f.Closed bound' := by
  induction f generalizing bound bound' with
  | const _ | atom _ => trivial
  | and f g ihf ihg | or f g ihf ihg => exact ⟨ihf h hf.1, ihg h hf.2⟩
  | next _ f ih => exact ih h hf
  | fix id _ _ f ih => exact ih (Set.insert_subset_insert h) hf
  | var id _ => exact h hf
  | shared _ f _ => exact hf

/-- The meaning depends on the free variables only. -/
theorem meaning_congr {σ A : Type} [CompleteLattice A] {K : Kripke σ A} {f : Formula}
    {bound : Set Nat} {env env' : Nat → σ → A} (hf : f.Closed bound)
    (h : ∀ id ∈ bound, env id = env' id) : f.meaning K env = f.meaning K env' := by
  induction f generalizing bound env env' with
  | const _ | atom _ => rfl
  | and f g ihf ihg | or f g ihf ihg => simp only [meaning, ihf hf.1 h, ihg hf.2 h]
  | next _ f ih => simp only [meaning, ih hf h]
  | fix id kind _ f ih =>
    have hbody (z : σ → A) : f.meaning K (Function.update env id z) =
        f.meaning K (Function.update env' id z) := by
      refine ih hf fun j hj => ?_
      by_cases hji : j = id
      · rw [hji, Function.update_self, Function.update_self]
      · rw [Function.update_of_ne hji, Function.update_of_ne hji]
        exact h j (hj.resolve_left hji)
    simp only [meaning, hbody]
  | var id _ => exact h id hf
  | shared _ f ih => exact ih hf fun _ hid => hid.elim

/-! ## Numbers -/

/-- The numbers of all fixed points. -/
def fixes : Formula → Set Nat
  | .const _ | .atom _ | .var _ _ => ∅
  | .and f g | .or f g => f.fixes ∪ g.fixes
  | .next _ f | .shared _ f => f.fixes
  | .fix id _ _ f => insert id f.fixes

/-- The numbers of the fixed points outside shared parts. -/
def openFixes : Formula → Set Nat
  | .const _ | .atom _ | .var _ _ | .shared _ _ => ∅
  | .and f g | .or f g => f.openFixes ∪ g.openFixes
  | .next _ f => f.openFixes
  | .fix id _ _ f => insert id f.openFixes

/-- The numbers of the fixed points and variables outside shared parts: the histories that the value
    of the formula is read from. -/
def live : Formula → Set Nat
  | .const _ | .atom _ | .shared _ _ => ∅
  | .var id _ => {id}
  | .and f g | .or f g => f.live ∪ g.live
  | .next _ f => f.live
  | .fix id _ _ f => insert id f.live

/-- While a part is labelled, no fixed point is iterated that another part in use depends on. -/
def Regular : Formula → Prop
  | .const _ | .atom _ | .var _ _ => True
  | .and f g | .or f g => f.Regular ∧ g.Regular ∧ Disjoint f.live g.fixes
  | .next _ f | .shared _ f => f.Regular
  | .fix id _ _ f => f.Regular ∧ id ∉ f.fixes

/-- Whether a formula is a fixed point or reads no history itself. -/
def Flat : Formula → Prop
  | .fix _ _ _ _ => True
  | f => f.live = ∅

/-- The bodies of fixed points and the shared parts by their numbers. -/
structure Tables where
  bodies : Nat → Option Formula
  shares : Nat → Option Formula

namespace Tables

/-- A table that has all entries of another one. -/
structure Extends (T T' : Tables) : Prop where
  bodies {id : Nat} {f : Formula} : T.bodies id = some f → T'.bodies id = some f
  shares {id : Nat} {f : Formula} : T.shares id = some f → T'.shares id = some f

theorem Extends.refl (T : Tables) : T.Extends T := ⟨id, id⟩

theorem Extends.trans {T T' T'' : Tables} (h : T.Extends T') (h' : T'.Extends T'') :
    T.Extends T'' :=
  ⟨fun e => h'.bodies (h.bodies e), fun e => h'.shares (h.shares e)⟩

end Tables

/-- Whether every fixed point and every shared part is the one of the tables. -/
def Agree (T : Tables) : Formula → Prop
  | .const _ | .atom _ | .var _ _ => True
  | .and f g | .or f g => f.Agree T ∧ g.Agree T
  | .next _ f => f.Agree T
  | .fix id _ _ f => T.bodies id = some f ∧ f.Agree T
  | .shared id f => T.shares id = some f ∧ f.Agree T

theorem Agree.extend {T T' : Tables} (h : T.Extends T') {f : Formula} (hf : f.Agree T) :
    f.Agree T' := by
  induction f with
  | const _ | atom _ | var _ _ => trivial
  | and f g ihf ihg | or f g ihf ihg => exact ⟨ihf hf.1, ihg hf.2⟩
  | next _ f ih => exact ih hf
  | fix id _ _ f ih => exact ⟨h.bodies hf.1, ih hf.2⟩
  | shared id f ih => exact ⟨h.shares hf.1, ih hf.2⟩

theorem body?_eq_none {f : Formula} {id : Nat} (hid : id ∉ f.fixes) : f.body? id = none := by
  induction f with
  | const _ | atom _ | var _ _ => rfl
  | and f g ihf ihg | or f g ihf ihg =>
    rw [fixes, Set.mem_union, not_or] at hid
    rw [Formula.body?, ihf hid.1, ihg hid.2]
    rfl
  | next _ f ih | shared _ f ih => exact ih hid
  | fix i _ _ f ih =>
    rw [fixes, Set.mem_insert_iff, not_or] at hid
    rw [Formula.body?, if_neg (Ne.symm hid.1), ih hid.2]

/-- A body is found for every number of a fixed point in the formula, in the tables as well. -/
theorem Agree.exists_body? {T : Tables} {f : Formula} (hf : f.Agree T) {id : Nat}
    (hid : id ∈ f.fixes) : ∃ g, f.body? id = some g ∧ T.bodies id = some g := by
  induction f with
  | const _ | atom _ | var _ _ => exact hid.elim
  | and f g ihf ihg | or f g ihf ihg =>
    rw [Formula.body?]
    by_cases h : id ∈ f.fixes
    · obtain ⟨b, hb, hT⟩ := ihf hf.1 h
      exact ⟨b, by rw [hb]; rfl, hT⟩
    · obtain ⟨b, hb, hT⟩ := ihg hf.2 (hid.resolve_left h)
      exact ⟨b, by rw [body?_eq_none h, hb]; rfl, hT⟩
  | next _ f ih => exact ih hf hid
  | shared _ f ih => exact ih hf.2 hid
  | fix i _ _ f ih =>
    rw [Formula.body?]
    by_cases h : i = id
    · rw [if_pos h]
      exact ⟨f, rfl, h ▸ hf.1⟩
    · rw [if_neg h]
      exact ih hf.2 (hid.resolve_left (Ne.symm h))

/-- The body that is found for a number is the one of the tables. -/
theorem Agree.body? {T : Tables} {f : Formula} (hf : f.Agree T) {id : Nat} (hid : id ∈ f.fixes) :
    f.body? id = T.bodies id := by
  obtain ⟨g, h1, h2⟩ := hf.exists_body? hid
  rw [h1, h2]

/-! ## Names and numbers -/

/-- Whether the number of each variable is the one that its name is bound to. -/
def Scoped : (bindings : List (String × Nat)) → Formula → Prop
  | _, .const _ | _, .atom _ => True
  | bindings, .and f g | bindings, .or f g => f.Scoped bindings ∧ g.Scoped bindings
  | bindings, .next _ f => f.Scoped bindings
  | bindings, .fix id _ name f =>
    id ∉ bindings.map Prod.snd ∧ f.Scoped ((name, id) :: bindings)
  | bindings, .var id name => bindings.lookup name = some id
  | _, .shared _ f => f.Scoped []

theorem mem_of_lookup {bindings : List (String × Nat)} {name : String} {id : Nat}
    (h : bindings.lookup name = some id) : id ∈ bindings.map Prod.snd := by
  induction bindings with
  | nil => cases h
  | cons entry rest ih =>
    obtain ⟨x, i⟩ := entry
    rw [List.lookup_cons] at h
    split at h
    · obtain rfl := Option.some.inj h
      exact List.mem_cons_self
    · exact List.mem_cons_of_mem _ (ih h)

theorem Scoped.closed {bindings : List (String × Nat)} {f : Formula} (h : f.Scoped bindings) :
    f.Closed {id | id ∈ bindings.map Prod.snd} := by
  induction f generalizing bindings with
  | const _ | atom _ => trivial
  | and f g ihf ihg | or f g ihf ihg => exact ⟨ihf h.1, ihg h.2⟩
  | next _ f ih => exact ih h
  | fix id _ name f ih =>
    show f.Closed _
    refine Closed.mono (fun j hj => ?_) (ih h.2)
    exact List.mem_cons.1 hj
  | var id name => exact mem_of_lookup h
  | shared _ f ih =>
    show f.Closed _
    exact Closed.mono (fun j hj => by cases hj) (ih h)

/-- The meaning of a closed formula does not depend on the environment. -/
theorem Scoped.meaning_closed {σ A : Type} [CompleteLattice A] {K : Kripke σ A} {f : Formula}
    (h : f.Scoped []) (env env' : Nat → σ → A) : f.meaning K env = f.meaning K env' :=
  meaning_congr h.closed fun _ hid => by cases hid

/-- The numbers a formula depends on are those of its own fixed points and of the bindings. -/
theorem Scoped.live_subset {bindings : List (String × Nat)} {f : Formula} (h : f.Scoped bindings) :
    f.live ⊆ f.openFixes ∪ {id | id ∈ bindings.map Prod.snd} := by
  induction f generalizing bindings with
  | const _ | atom _ | shared _ _ _ => exact Set.empty_subset _
  | and f g ihf ihg | or f g ihf ihg =>
    rintro j (hj | hj)
    · exact (ihf h.1 hj).imp_left .inl
    · exact (ihg h.2 hj).imp_left .inr
  | next _ f ih => exact ih h
  | fix id _ name f ih =>
    rintro j (rfl | hj)
    · exact .inl (Set.mem_insert j _)
    · rcases ih h.2 hj with hj | hj
      · exact .inl (Set.mem_insert_of_mem id hj)
      · rcases List.mem_cons.1 hj with rfl | hj
        · exact .inl (Set.mem_insert _ _)
        · exact .inr hj
  | var id name =>
    rintro j rfl
    exact .inr (mem_of_lookup h)

/-- A numbered formula means what the property without the numbers means. -/
theorem Scoped.meaning_eq {σ A : Type} [TruthValue A] {K : Kripke σ A} {f : Formula}
    {bindings : List (String × Nat)} (h : f.Scoped bindings) {env : Nat → σ → A}
    {names : String → σ → A}
    (henv : ∀ name id, bindings.lookup name = some id → names name = env id) :
    f.toProperty.meaning K names = f.meaning K env := by
  induction f generalizing bindings env names with
  | const _ | atom _ => rfl
  | and f g ihf ihg | or f g ihf ihg =>
    simp only [toProperty, Property.meaning, meaning, ihf h.1 henv, ihg h.2 henv]
  | next _ f ih => simp only [toProperty, Property.meaning, meaning, ih h henv]
  | fix id kind name f ih =>
    have hbody (z : σ → A) : f.toProperty.meaning K (Function.update names name z) =
        f.meaning K (Function.update env id z) := by
      refine ih h.2 fun x j hj => ?_
      rw [List.lookup_cons] at hj
      by_cases hx : x = name
      · rw [hx, beq_self_eq_true] at hj
        obtain rfl := Option.some.inj hj
        rw [hx, Function.update_self, Function.update_self]
      · rw [beq_eq_false_iff_ne.2 hx] at hj
        have hji : j ≠ id := fun e => h.1 (e ▸ mem_of_lookup hj)
        rw [Function.update_of_ne hx, Function.update_of_ne hji]
        exact henv x j hj
    simp only [toProperty, Property.meaning, meaning, hbody]
  | var id name => exact henv name id h
  | shared _ f ih => exact ih h fun _ _ hid => by cases hid

/-- The numbers of the fixed points in shared parts. -/
def Tables.used (T : Tables) : Set Nat := {i | ∃ id f, T.shares id = some f ∧ i ∈ f.fixes}

/-- Every shared part is closed and regular, and no two of them iterate the same fixed points
    outside their own shared parts. -/
structure Tables.Lawful (T : Tables) : Prop where
  agree {id : Nat} {f : Formula} : T.shares id = some f → f.Agree T
  inScope {id : Nat} {f : Formula} : T.shares id = some f → f.Scoped []
  regular {id : Nat} {f : Formula} : T.shares id = some f → f.Regular
  flat {id : Nat} {f : Formula} : T.shares id = some f → f.Flat
  separate {id id' : Nat} {f f' : Formula} : T.shares id = some f → T.shares id' = some f' →
    id ≠ id' → Disjoint f.openFixes f'.openFixes

theorem openFixes_subset_live (f : Formula) : f.openFixes ⊆ f.live := by
  induction f with
  | const _ | atom _ | var _ _ | shared _ _ _ => exact Set.empty_subset _
  | and f g ihf ihg | or f g ihf ihg => exact Set.union_subset_union ihf ihg
  | next _ f ih => exact ih
  | fix id _ _ f ih => exact Set.insert_subset_insert ih

theorem openFixes_subset (f : Formula) : f.openFixes ⊆ f.fixes := by
  induction f with
  | const _ | atom _ | var _ _ | shared _ _ _ => exact Set.empty_subset _
  | and f g ihf ihg | or f g ihf ihg => exact Set.union_subset_union ihf ihg
  | next _ f ih => exact ih
  | fix id _ _ f ih => exact Set.insert_subset_insert ih

end RefineCheck.Formula
