/-
  RefineCheck.Proofs.Semantics.Normal

  The normal forms keep the meaning of a property. Positive normal form does on every
  structure in which complementary comparisons have complementary values, and the canonical
  form on every structure, as long as the property binds no generated name.
-/

import RefineCheck.Proofs.Result
import RefineCheck.Proofs.Semantics.Meaning
import RefineCheck.Property.Parser

namespace RefineCheck.Property

/-! ## The names of a property -/

/-- Whether the atomic properties, the names that fixed points bind and the variables of a property
    each have a property of their own. -/
def Uses (atom : Atomic → Prop) (binder var : String → Prop) : Property → Prop
  | .const _ => True
  | .atom a => atom a
  | .var name => var name
  | .not p | .next _ p | .eventually _ p | .always _ p => p.Uses atom binder var
  | .and p q | .or p q | .holdUntil _ p q | .release _ p q =>
    p.Uses atom binder var ∧ q.Uses atom binder var
  | .fix _ name p => binder name ∧ p.Uses atom binder var

theorem Uses.imp {atom atom' : Atomic → Prop} {binder binder' var var' : String → Prop}
    (ha : ∀ a, atom a → atom' a) (hb : ∀ x, binder x → binder' x) (hv : ∀ x, var x → var' x)
    {p : Property} (h : p.Uses atom binder var) : p.Uses atom' binder' var' := by
  induction p with
  | const _ => trivial
  | atom a => exact ha a h
  | var x => exact hv x h
  | not p ih | next _ p ih | eventually _ p ih | always _ p ih => exact ih h
  | and p q ihp ihq | or p q ihp ihq | holdUntil _ p q ihp ihq | release _ p q ihp ihq =>
    exact ⟨ihp h.1, ihq h.2⟩
  | fix _ x p ih => exact ⟨hb x h.1, ih h.2⟩

/-- The names of a property that binds no reserved name. -/
abbrev Unreserved (p : Property) : Prop :=
  p.Uses (fun _ => True) (fun x => Parser.isReserved x = false) (fun _ => True)

/-- Whether all atomic properties of a property have a property. -/
abbrev AtomsIn (P : Atomic → Prop) (p : Property) : Prop :=
  p.Uses P (fun _ => True) (fun _ => True)

theorem toList_generatedName (depth : Nat) :
    (generatedName depth).toList = '_' :: '_' :: 'Z' :: (toString depth).toList := by
  rw [generatedName, String.toList_append]
  rfl

theorem isReserved_generatedName (depth : Nat) :
    Parser.isReserved (generatedName depth) = true := by
  rw [Parser.isReserved, toList_generatedName]
  rfl

variable {σ A : Type} [TruthValue A] {K : Kripke σ A}

/-! ## Negation -/

instance : TruthValue (σ → A) where
  neg z s := TruthValue.neg (z s)
  neg_neg _ := funext fun _ => TruthValue.neg_neg _
  neg_anti h s := TruthValue.neg_anti (h s)

theorem neg_least (f : (σ → A) → σ → A) : TruthValue.neg (Extremum.least.solution f) =
    Extremum.greatest.solution fun z => TruthValue.neg (f (TruthValue.neg z)) := by
  show TruthValue.neg (sInf {z | f z ≤ z}) = sSup {z | z ≤ TruthValue.neg (f (TruthValue.neg z))}
  rw [TruthValue.neg_sInf]
  congr 1
  ext z
  constructor
  · rintro ⟨y, hy, rfl⟩
    rw [Set.mem_ofPred_eq] at hy ⊢
    rw [TruthValue.neg_neg]
    exact TruthValue.neg_anti hy
  · intro hz
    rw [Set.mem_ofPred_eq] at hz
    exact ⟨TruthValue.neg z, TruthValue.le_neg_iff.1 hz, TruthValue.neg_neg z⟩

theorem neg_solution (kind : Extremum) (f : (σ → A) → σ → A) :
    TruthValue.neg (kind.solution f) =
      kind.dual.solution fun z => TruthValue.neg (f (TruthValue.neg z)) := by
  cases kind with
  | least => exact neg_least f
  | greatest =>
    -- the greatest solution is the complement of a least one
    have hleast := neg_least fun z => TruthValue.neg (f (TruthValue.neg z))
    simp only [TruthValue.neg_neg] at hleast
    show TruthValue.neg (Extremum.greatest.solution f) = Extremum.least.solution _
    rw [← hleast, TruthValue.neg_neg]

theorem neg_step (paths : Paths) (z : σ → A) :
    TruthValue.neg (K.step paths z) = K.step paths.dual (TruthValue.neg z) := by
  funext s
  cases paths with
  | all =>
    show TruthValue.neg (⨅ t ∈ K.next s, z t) = ⨆ t ∈ K.next s, TruthValue.neg (z t)
    simp only [TruthValue.neg_iInf]
  | some =>
    show TruthValue.neg (⨆ t ∈ K.next s, z t) = ⨅ t ∈ K.next s, TruthValue.neg (z t)
    simp only [TruthValue.neg_iSup]

/-- A labelling, or its negation. -/
def negIf (complement : Bool) (z : σ → A) : σ → A := if complement then TruthValue.neg z else z

/-- Complementing a comparison of a class complements its value. -/
def Complementary (P : Atomic → Prop) (K : Kripke σ A) : Prop :=
  ∀ a, P a → K.atom a.complement = TruthValue.neg (K.atom a)

/-! ## Positive normal form -/

theorem lookup_isSome {β : Type} {name : String} {bindings : List (String × β)}
    (h : name ∈ bindings.map Prod.fst) : ∃ b, bindings.lookup name = some b := by
  induction bindings with
  | nil => cases h
  | cons entry rest ih =>
    obtain ⟨x, b⟩ := entry
    rw [List.lookup_cons]
    by_cases hx : name = x
    · exact ⟨b, by simp [hx]⟩
    · rw [List.map_cons, List.mem_cons] at h
      obtain ⟨c, hc⟩ := ih (h.resolve_left hx)
      exact ⟨c, by rw [beq_eq_false_iff_ne.2 hx]; exact hc⟩

section Parts

variable {f : Property → Property} {g : Property → Property → Property} {p q r : Property}
  {c c' : Bool} {bindings bindings' : List (String × Bool)}

/-- The form of an operator is made of the form of its part. -/
theorem positive_unary (h : (do return f (← positive c bindings p)) = .ok r) :
    ∃ p', positive c bindings p = .ok p' ∧ f p' = r := by
  simpa only [bind_eq_ok, pure_eq_ok] using h

theorem positive_binary
    (h : (do return g (← positive c bindings p) (← positive c' bindings' q)) = .ok r) :
    ∃ p', positive c bindings p = .ok p' ∧ ∃ q', positive c' bindings' q = .ok q' ∧ g p' q' = r := by
  simpa only [bind_eq_ok, pure_eq_ok] using h

end Parts

/-! ### Dual operators

The dual of an operator on complemented parts is the complement of the operator. -/

section Dual

variable {complement : Bool} {paths : Paths} {p p' q q' : Property} {env env' : String → σ → A}

theorem meaning_dual_and (hp : p'.meaning K env' = negIf complement (p.meaning K env))
    (hq : q'.meaning K env' = negIf complement (q.meaning K env)) :
    (if complement then Property.or p' q' else .and p' q').meaning K env' =
      negIf complement ((Property.and p q).meaning K env) := by
  cases complement
  · simp only [Bool.false_eq_true, if_false, meaning, hp, hq, negIf]
  · simp only [if_true, meaning, hp, hq, negIf]
    exact (TruthValue.neg_inf (A := σ → A) _ _).symm

theorem meaning_dual_or (hp : p'.meaning K env' = negIf complement (p.meaning K env))
    (hq : q'.meaning K env' = negIf complement (q.meaning K env)) :
    (if complement then Property.and p' q' else .or p' q').meaning K env' =
      negIf complement ((Property.or p q).meaning K env) := by
  cases complement
  · simp only [Bool.false_eq_true, if_false, meaning, hp, hq, negIf]
  · simp only [if_true, meaning, hp, hq, negIf]
    exact (TruthValue.neg_sup (A := σ → A) _ _).symm

theorem meaning_dual_next (hp : p'.meaning K env' = negIf complement (p.meaning K env)) :
    (Property.next (if complement then paths.dual else paths) p').meaning K env' =
      negIf complement ((Property.next paths p).meaning K env) := by
  cases complement
  · simp only [Bool.false_eq_true, if_false, meaning, hp, negIf]
  · simp only [if_true, meaning, hp, negIf, neg_step]

theorem meaning_dual_eventually (hp : p'.meaning K env' = negIf complement (p.meaning K env)) :
    (if complement then Property.always paths.dual p' else .eventually paths p').meaning K env' =
      negIf complement ((Property.eventually paths p).meaning K env) := by
  cases complement
  · simp only [Bool.false_eq_true, if_false, meaning, hp, negIf]
  · -- the complement turns the solution around and is cancelled at its variable
    simp only [if_true, meaning, hp, negIf, neg_solution, TruthValue.neg_sup, neg_step,
      TruthValue.neg_neg, Extremum.dual]

theorem meaning_dual_always (hp : p'.meaning K env' = negIf complement (p.meaning K env)) :
    (if complement then Property.eventually paths.dual p' else .always paths p').meaning K env' =
      negIf complement ((Property.always paths p).meaning K env) := by
  cases complement
  · simp only [Bool.false_eq_true, if_false, meaning, hp, negIf]
  · simp only [if_true, meaning, hp, negIf, neg_solution, TruthValue.neg_inf, neg_step,
      TruthValue.neg_neg, Extremum.dual]

theorem meaning_dual_until (hp : p'.meaning K env' = negIf complement (p.meaning K env))
    (hq : q'.meaning K env' = negIf complement (q.meaning K env)) :
    (if complement then Property.release paths.dual p' q' else
      .holdUntil paths p' q').meaning K env' =
      negIf complement ((Property.holdUntil paths p q).meaning K env) := by
  cases complement
  · simp only [Bool.false_eq_true, if_false, meaning, hp, hq, negIf]
  · simp only [if_true, meaning, hp, hq, negIf, neg_solution, TruthValue.neg_inf,
      TruthValue.neg_sup, neg_step, TruthValue.neg_neg, Extremum.dual]

theorem meaning_dual_release (hp : p'.meaning K env' = negIf complement (p.meaning K env))
    (hq : q'.meaning K env' = negIf complement (q.meaning K env)) :
    (if complement then Property.holdUntil paths.dual p' q' else
      .release paths p' q').meaning K env' =
      negIf complement ((Property.release paths p q).meaning K env) := by
  cases complement
  · simp only [Bool.false_eq_true, if_false, meaning, hp, hq, negIf]
  · simp only [if_true, meaning, hp, hq, negIf, neg_solution, TruthValue.neg_inf,
      TruthValue.neg_sup, neg_step, TruthValue.neg_neg, Extremum.dual]

/-- A complemented fixed point is the dual one of the complemented body, whose variable stands for
    the negated labelling. -/
theorem meaning_dual_fix {kind : Extremum} {x : String}
    (h : ∀ z, p'.meaning K (Function.update env' x (negIf complement z)) =
      negIf complement (p.meaning K (Function.update env x z))) :
    (Property.fix (if complement then kind.dual else kind) x p').meaning K env' =
      negIf complement ((Property.fix kind x p).meaning K env) := by
  cases complement
  · simp only [negIf, Bool.false_eq_true, if_false] at h ⊢
    simp only [meaning, h]
  · simp only [negIf, if_true] at h ⊢
    simp only [meaning, neg_solution]
    congr 1
    funext z
    rw [← h, TruthValue.neg_neg]

end Dual

/-- The positive normal form has the meaning of the property, or of its negation. A variable of
    a complemented fixed point stands for the negated labelling. -/
theorem positive_meaning {P : Atomic → Prop} (hK : Complementary P K) {p q : Property}
    {complement : Bool} {bindings : List (String × Bool)} {env env' : String → σ → A}
    (h : positive complement bindings p = .ok q) (hu : p.AtomsIn P)
    (hp : p.closedUnder (bindings.map Prod.fst) = true)
    (henv : ∀ x b, bindings.lookup x = some b → env' x = negIf b (env x)) :
    q.meaning K env' = negIf complement (p.meaning K env) := by
  induction p generalizing q complement bindings env env' with
  | const value =>
    obtain rfl := Except.ok.inj h
    funext s
    cases value <;> cases complement <;>
      simp [meaning, negIf, TruthValue.neg, TruthValue.neg_top, TruthValue.neg_bot]
  | atom a =>
    obtain rfl := Except.ok.inj h
    cases complement
    · rfl
    · exact hK a hu
  | var x =>
    -- a variable has a form only under the polarity of its fixed point
    obtain ⟨b, hb⟩ := lookup_isSome (List.contains_iff_mem.1 hp)
    rw [positive, hb] at h
    simp only at h
    split at h
    · rename_i e
      obtain rfl := Except.ok.inj h
      rw [meaning, henv x b hb, e, meaning]
    · cases h
  | not p ih =>
    rw [positive] at h
    rw [ih h hu hp henv]
    cases complement
    · rfl
    · exact (TruthValue.neg_neg (p.meaning K env)).symm
  | and p q ihp ihq =>
    rw [closedUnder, Bool.and_eq_true] at hp
    obtain ⟨p', hp', q', hq', rfl⟩ := positive_binary h
    exact meaning_dual_and (ihp hp' hu.1 hp.1 henv) (ihq hq' hu.2 hp.2 henv)
  | or p q ihp ihq =>
    rw [closedUnder, Bool.and_eq_true] at hp
    obtain ⟨p', hp', q', hq', rfl⟩ := positive_binary h
    exact meaning_dual_or (ihp hp' hu.1 hp.1 henv) (ihq hq' hu.2 hp.2 henv)
  | next paths p ih =>
    obtain ⟨p', hp', rfl⟩ := positive_unary h
    exact meaning_dual_next (ih hp' hu hp henv)
  | eventually paths p ih =>
    obtain ⟨p', hp', rfl⟩ := positive_unary h
    exact meaning_dual_eventually (ih hp' hu hp henv)
  | always paths p ih =>
    obtain ⟨p', hp', rfl⟩ := positive_unary h
    exact meaning_dual_always (ih hp' hu hp henv)
  | holdUntil paths p q ihp ihq =>
    rw [closedUnder, Bool.and_eq_true] at hp
    obtain ⟨p', hp', q', hq', rfl⟩ := positive_binary h
    exact meaning_dual_until (ihp hp' hu.1 hp.1 henv) (ihq hq' hu.2 hp.2 henv)
  | release paths p q ihp ihq =>
    rw [closedUnder, Bool.and_eq_true] at hp
    obtain ⟨p', hp', q', hq', rfl⟩ := positive_binary h
    exact meaning_dual_release (ihp hp' hu.1 hp.1 henv) (ihq hq' hu.2 hp.2 henv)
  | fix kind x p ih =>
    obtain ⟨p', hp', rfl⟩ := positive_unary h
    refine meaning_dual_fix fun z => ih hp' hu.2 hp fun y b hb => ?_
    -- inside, the variable has the polarity of this fixed point, the others keep theirs
    by_cases hy : y = x
    · subst hy
      have e : complement = b := by simpa [List.lookup_cons] using hb
      rw [Function.update_self, Function.update_self, e]
    · rw [List.lookup_cons, beq_eq_false_iff_ne.2 hy] at hb
      rw [Function.update_of_ne hy, Function.update_of_ne hy]
      exact henv y b hb

/-- The polarity test finds out beforehand whether there is a positive normal form. -/
theorem positive_ok {p : Property} {complement : Bool} {bindings : List (String × Bool)}
    (h : negatedVariable? complement bindings p = none) :
    ∃ q, positive complement bindings p = .ok q := by
  induction p generalizing complement bindings with
  | const _ | atom _ => exact ⟨_, rfl⟩
  | var x =>
    rw [negatedVariable?] at h
    rw [positive]
    cases hb : bindings.lookup x with
    | none => exact ⟨_, rfl⟩
    | some b =>
      rw [hb, Option.getD_some] at h
      simp only
      split at h
      · rw [if_pos ‹_›]
        exact ⟨_, rfl⟩
      · cases h
  | not p ih => exact ih h
  | next _ p ih | eventually _ p ih | always _ p ih =>
    obtain ⟨p', hp'⟩ := ih h
    rw [positive, hp']
    exact ⟨_, rfl⟩
  | and p q ihp ihq | or p q ihp ihq | holdUntil _ p q ihp ihq | release _ p q ihp ihq =>
    simp only [negatedVariable?, Option.orElse_eq_orElse, Option.orElse_eq_or,
      Option.or_eq_none_iff] at h
    obtain ⟨p', hp'⟩ := ihp h.1
    obtain ⟨q', hq'⟩ := ihq h.2
    rw [positive, hp', hq']
    exact ⟨_, rfl⟩
  | fix kind x p ih =>
    obtain ⟨p', hp'⟩ := ih h
    rw [positive, hp']
    exact ⟨_, rfl⟩

/-- A positive normal form binds what the property binds and has no negation. -/
theorem positive_shape {atom : Atomic → Prop} {binder var : String → Prop}
    (ha : ∀ a, atom a → atom a.complement) {p q : Property} {complement : Bool}
    {bindings : List (String × Bool)} (h : positive complement bindings p = .ok q)
    (hp : p.Uses atom binder var) :
    q.Uses atom binder var ∧ q.hasNegation = false ∧
      ∀ bound, p.closedUnder bound = true → q.closedUnder bound = true := by
  induction p generalizing q complement bindings with
  | const value =>
    obtain rfl := Except.ok.inj h
    exact ⟨trivial, rfl, fun _ _ => rfl⟩
  | atom a =>
    obtain rfl := Except.ok.inj h
    refine ⟨?_, rfl, fun _ _ => rfl⟩
    cases complement
    · exact hp
    · exact ha a hp
  | var x =>
    have e : q = .var x := by
      rw [positive] at h
      split at h
      · split at h
        · exact (Except.ok.inj h).symm
        · cases h
      · exact (Except.ok.inj h).symm
    subst e
    exact ⟨hp, rfl, fun _ h => h⟩
  | not p ih => exact ih h hp
  | next _ p ih =>
    obtain ⟨p', hp', rfl⟩ := positive_unary h
    obtain ⟨up, np, cp⟩ := ih hp' hp
    exact ⟨up, np, cp⟩
  | eventually _ p ih | always _ p ih =>
    obtain ⟨p', hp', rfl⟩ := positive_unary h
    obtain ⟨up, np, cp⟩ := ih hp' hp
    cases complement
    · exact ⟨up, np, cp⟩
    · exact ⟨up, np, cp⟩
  | and p q ihp ihq | or p q ihp ihq | holdUntil _ p q ihp ihq | release _ p q ihp ihq =>
    obtain ⟨p', hp', q', hq', rfl⟩ := positive_binary h
    obtain ⟨up, np, cp⟩ := ihp hp' hp.1
    obtain ⟨uq, nq, cq⟩ := ihq hq' hp.2
    -- both polarities give an operator with the two forms as parts
    cases complement <;>
    · refine ⟨⟨up, uq⟩, ?_, fun bound hb => ?_⟩
      · simp only [if_true, Bool.false_eq_true, if_false, hasNegation, np, nq, Bool.or_self]
      · rw [closedUnder, Bool.and_eq_true] at hb
        simp only [if_true, Bool.false_eq_true, if_false, closedUnder, Bool.and_eq_true]
        exact ⟨cp bound hb.1, cq bound hb.2⟩
  | fix kind x p ih =>
    obtain ⟨p', hp', rfl⟩ := positive_unary h
    obtain ⟨up, np, cp⟩ := ih hp' hp.2
    exact ⟨⟨hp.1, up⟩, np, fun bound hb => cp (x :: bound) hb⟩

theorem uses_true (p : Property) : p.Uses (fun _ => True) (fun _ => True) fun _ => True := by
  induction p with
  | const _ | atom _ | var _ => trivial
  | not _ ih | next _ _ ih | eventually _ _ ih | always _ _ ih => exact ih
  | and _ _ ihp ihq | or _ _ ihp ihq | holdUntil _ _ _ ihp ihq | release _ _ _ ihp ihq =>
    exact ⟨ihp, ihq⟩
  | fix _ _ _ ih => exact ⟨trivial, ih⟩

/-- The last check of the positive normal form never fails. -/
theorem pnf_eq_positive (p : Property) : p.pnf = positive false [] p := by
  cases h : positive false [] p with
  | error cause => rw [pnf, h]; rfl
  | ok q =>
    obtain ⟨-, hneg, -⟩ := positive_shape (fun _ h => h) h p.uses_true
    rw [pnf, h]
    show (if q.hasNegation then _ else _) = _
    rw [hneg]
    rfl

/-- A property whose variables keep their polarity has a positive normal form. -/
theorem pnf_ok {p : Property} (h : negatedVariable? false [] p = none) : ∃ q, p.pnf = .ok q := by
  rw [pnf_eq_positive]
  exact positive_ok h

/-- The positive normal form has the atomic properties of the property or their complements. -/
theorem atomsIn_positive {P : Atomic → Prop} (hP : ∀ a, P a.complement ↔ P a) {p q : Property}
    {complement : Bool} {bindings : List (String × Bool)}
    (h : positive complement bindings p = .ok q) : q.AtomsIn P ↔ p.AtomsIn P := by
  induction p generalizing q complement bindings with
  | const value =>
    obtain rfl := Except.ok.inj h
    exact Iff.rfl
  | atom a =>
    obtain rfl := Except.ok.inj h
    cases complement
    · exact Iff.rfl
    · exact hP a
  | var x =>
    rw [positive.eq_def] at h
    simp only at h
    split at h
    · split at h
      · obtain rfl := Except.ok.inj h
        exact Iff.rfl
      · cases h
    · obtain rfl := Except.ok.inj h
      exact Iff.rfl
  | not p ih =>
    rw [positive] at h
    exact ih h
  | and p q ihp ihq | or p q ihp ihq | holdUntil _ p q ihp ihq | release _ p q ihp ihq =>
    obtain ⟨p', hp', q', hq', rfl⟩ := positive_binary h
    cases complement <;> exact and_congr (ihp hp') (ihq hq')
  | next _ p ih | eventually _ p ih | always _ p ih =>
    obtain ⟨p', hp', rfl⟩ := positive_unary h
    have e := ih hp'
    cases complement <;> exact e
  | fix kind x p ih =>
    obtain ⟨p', hp', rfl⟩ := positive_unary h
    cases complement <;> exact and_congr_right fun _ => ih hp'

/-! ## Canonical form -/

theorem atomsIn_canonicalAt {P : Atomic → Prop} {p : Property} (depth : Nat) :
    (canonicalAt depth p).AtomsIn P ↔ p.AtomsIn P := by
  induction p generalizing depth with
  | const _ | atom _ | var _ => exact Iff.rfl
  | not p ih | next _ p ih => exact ih depth
  | and p q ihp ihq | or p q ihp ihq => exact and_congr (ihp depth) (ihq depth)
  | eventually _ p ih | always _ p ih =>
    have h := ih (depth + 1)
    exact ⟨fun hp => h.1 hp.2.1, fun hp => ⟨trivial, h.2 hp, trivial, trivial⟩⟩
  | holdUntil _ p q ihp ihq | release _ p q ihp ihq =>
    have hp := ihp (depth + 1)
    have hq := ihq (depth + 1)
    exact ⟨fun h => ⟨hp.1 h.2.2.1, hq.1 h.2.1⟩, fun h => ⟨trivial, hq.2 h.2, hp.2 h.1, trivial⟩⟩
  | fix _ x p ih => exact and_congr_right fun _ => ih (depth + 1)

theorem closedUnder_canonicalAt {p : Property} {bound : List String} (depth : Nat)
    (hp : p.closedUnder bound = true) : (canonicalAt depth p).closedUnder bound = true := by
  have weaken {q : Property} (x : String) {bound : List String}
      (hq : q.closedUnder bound = true) : q.closedUnder (x :: bound) = true :=
    closedUnder_mono (fun _ => List.mem_cons_of_mem x) hq
  have hagain (x : String) (bound : List String) : (x :: bound).contains x = true :=
    List.contains_iff_mem.2 List.mem_cons_self
  induction p generalizing bound depth with
  | const _ | atom _ => rfl
  | var x => exact hp
  | not p ih | next _ p ih => exact ih depth hp
  | and p q ihp ihq | or p q ihp ihq =>
    rw [closedUnder, Bool.and_eq_true] at hp
    exact Bool.and_eq_true_iff.2 ⟨ihp depth hp.1, ihq depth hp.2⟩
  | eventually _ p ih | always _ p ih =>
    exact Bool.and_eq_true_iff.2 ⟨weaken _ (ih (depth + 1) hp), hagain _ _⟩
  | holdUntil _ p q ihp ihq | release _ p q ihp ihq =>
    rw [closedUnder, Bool.and_eq_true] at hp
    exact Bool.and_eq_true_iff.2 ⟨weaken _ (ihq (depth + 1) hp.2),
      Bool.and_eq_true_iff.2 ⟨weaken _ (ihp (depth + 1) hp.1), hagain _ _⟩⟩
  | fix _ x p ih => exact ih (depth + 1) hp

theorem uses_canonicalAt {atom : Atomic → Prop} {binder var : String → Prop}
    (hb : ∀ depth, binder (generatedName depth)) (hv : ∀ depth, var (generatedName depth))
    {p : Property} (depth : Nat) (hp : p.Uses atom binder var) :
    (canonicalAt depth p).Uses atom binder var := by
  induction p generalizing depth with
  | const _ | atom _ | var _ => exact hp
  | not p ih | next _ p ih => exact ih depth hp
  | and p q ihp ihq | or p q ihp ihq => exact ⟨ihp depth hp.1, ihq depth hp.2⟩
  | eventually _ p ih | always _ p ih =>
    exact ⟨hb depth, ih (depth + 1) hp, trivial, hv depth⟩
  | holdUntil _ p q ihp ihq | release _ p q ihp ihq =>
    exact ⟨hb depth, ihq (depth + 1) hp.2, ihp (depth + 1) hp.1, hv depth⟩
  | fix _ x p ih => exact ⟨hp.1, ih (depth + 1) hp.2⟩

/-- A generated variable does not occur in what it is introduced around. -/
theorem meaning_update_generated {p : Property} {bound : List String} {env : String → σ → A}
    (hbound : ∀ x ∈ bound, Parser.isReserved x = false) (hp : p.closedUnder bound = true)
    (depth : Nat) (z : σ → A) :
    p.meaning K (Function.update env (generatedName depth) z) = p.meaning K env := by
  refine meaning_congr hp fun x hx => Function.update_of_ne ?_ z env
  rintro rfl
  have := hbound _ hx
  rw [isReserved_generatedName] at this
  cases this

/-- The canonical form has the meaning of the property. -/
theorem canonicalAt_meaning {p : Property} {bound : List String} {env : String → σ → A}
    (depth : Nat) (hbound : ∀ x ∈ bound, Parser.isReserved x = false)
    (hp : p.closedUnder bound = true) (hu : p.Unreserved) :
    (canonicalAt depth p).meaning K env = p.meaning K env := by
  induction p generalizing bound env depth with
  | const _ | atom _ | var _ => rfl
  | not p ih | next _ p ih => simp only [canonicalAt, meaning, ih depth hbound hp hu]
  | and p q ihp ihq | or p q ihp ihq =>
    rw [closedUnder, Bool.and_eq_true] at hp
    simp only [canonicalAt, meaning, ihp depth hbound hp.1 hu.1, ihq depth hbound hp.2 hu.2]
  | eventually _ p ih | always _ p ih =>
    have hp : p.closedUnder bound = true := hp
    simp only [canonicalAt, canonicalAt.least, canonicalAt.greatest, canonicalAt.again, meaning,
      ih (depth + 1) hbound hp hu, meaning_update_generated hbound hp, Function.update_self]
    congr 1
    funext z
    congr 1
    funext s
    simp
  | holdUntil _ p q ihp ihq | release _ p q ihp ihq =>
    rw [closedUnder, Bool.and_eq_true] at hp
    simp only [canonicalAt, canonicalAt.least, canonicalAt.greatest, canonicalAt.again, meaning,
      ihp (depth + 1) hbound hp.1 hu.1, ihq (depth + 1) hbound hp.2 hu.2,
      meaning_update_generated hbound hp.1, meaning_update_generated hbound hp.2,
      Function.update_self]
  | fix kind x p ih =>
    have hbody (z : σ → A) : (canonicalAt (depth + 1) p).meaning K (Function.update env x z) =
        p.meaning K (Function.update env x z) :=
      ih (depth + 1) (List.forall_mem_cons.2 ⟨hu.1, hbound⟩) hp hu.2
    simp only [canonicalAt, meaning, hbody]

/-- The operators that a property in canonical form is made of. -/
def IsCanonical : Property → Prop
  | .const _ | .atom _ | .var _ => True
  | .and p q | .or p q => p.IsCanonical ∧ q.IsCanonical
  | .next _ p | .fix _ _ p => p.IsCanonical
  | .not _ | .eventually _ _ | .always _ _ | .holdUntil _ _ _ | .release _ _ _ => False

theorem isCanonical_canonicalAt {p : Property} (depth : Nat) (hp : p.hasNegation = false) :
    (canonicalAt depth p).IsCanonical := by
  induction p generalizing depth with
  | const _ | atom _ | var _ => trivial
  | not p _ => cases hp
  | next _ p ih => exact ih depth hp
  | and p q ihp ihq | or p q ihp ihq =>
    rw [hasNegation, Bool.or_eq_false_iff] at hp
    exact ⟨ihp depth hp.1, ihq depth hp.2⟩
  | eventually _ p ih | always _ p ih => exact ⟨ih (depth + 1) hp, trivial, trivial⟩
  | holdUntil _ p q ihp ihq | release _ p q ihp ihq =>
    rw [hasNegation, Bool.or_eq_false_iff] at hp
    exact ⟨ihq (depth + 1) hp.2, ihp (depth + 1) hp.1, trivial⟩
  | fix _ x p ih => exact ih (depth + 1) hp

end RefineCheck.Property
