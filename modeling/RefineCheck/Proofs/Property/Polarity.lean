/-
  RefineCheck.Proofs.Property.Polarity

  Polarity. The test that a reader makes beforehand and the computation of the positive normal
  form agree on every closed property, however its variables shadow one another: one fails with
  a variable if and only if the other one does. A property that passes has normal forms that
  pass again, and can be labelled.
-/

import RefineCheck.Proofs.Checker.Existential

namespace RefineCheck

namespace Property

/-! ## The test finds the failure -/

/-- The computation fails at the first variable the test meets. Both carry the same bindings, one
    of the negations around a fixed point and the other of the complements it is taken under. -/
theorem positive_error {p : Property} {complement : Bool} {bindings : List (String × Bool)}
    {name : String} (hp : p.closedUnder (bindings.map Prod.fst) = true)
    (h : negatedVariable? complement bindings p = some name) :
    positive complement bindings p = .error (.oppositePolarity name) := by
  induction p generalizing complement bindings with
  | const _ | atom _ => cases h
  | var x =>
    obtain ⟨bound, hbound⟩ := lookup_isSome (List.contains_iff_mem.1 hp)
    rw [negatedVariable?, hbound, Option.getD_some] at h
    rw [positive, hbound]
    split at h
    · cases h
    · obtain rfl := Option.some.inj h
      exact if_neg ‹_›
  | not p ih => exact ih hp h
  | next _ p ih | eventually _ p ih | always _ p ih =>
    rw [positive, ih hp h]
    rfl
  | fix kind x p ih =>
    rw [positive, @ih _ ((x, complement) :: bindings) hp h]
    rfl
  | and p q ihp ihq | or p q ihp ihq | holdUntil _ p q ihp ihq | release _ p q ihp ihq =>
    rw [closedUnder, Bool.and_eq_true] at hp
    rw [negatedVariable?] at h
    cases hfirst : negatedVariable? complement bindings p with
    | some y =>
      rw [hfirst] at h
      obtain rfl : y = name := Option.some.inj h
      rw [positive, ihp hp.1 hfirst]
      rfl
    | none =>
      -- the first part passes, so its form is there when the second one fails
      rw [hfirst] at h
      obtain ⟨p', hp'⟩ := positive_ok hfirst
      rw [positive, hp', ihq hp.2 h]
      rfl

/-! ## Properties without negations -/

/-- A property without negations is its own positive normal form. -/
theorem positive_self {p : Property} {bindings : List (String × Bool)}
    (hp : p.hasNegation = false) (hb : ∀ entry ∈ bindings, entry.2 = false) :
    positive false bindings p = .ok p := by
  induction p generalizing bindings with
  | const value =>
    rw [positive, Bool.bne_false]
    rfl
  | atom _ => rfl
  | var x =>
    rw [positive]
    cases hbound : bindings.lookup x with
    | none => rfl
    | some bound =>
      obtain ⟨before, after, rfl, -⟩ := List.lookup_eq_some_iff.1 hbound
      exact if_pos (hb _ (List.mem_append_right _ List.mem_cons_self))
  | not _ _ => cases hp
  | next _ p ih | eventually _ p ih | always _ p ih =>
    rw [positive, ih hp hb]
    rfl
  | fix kind x p ih =>
    rw [positive, @ih ((x, false) :: bindings) hp (List.forall_mem_cons.2 ⟨rfl, hb⟩)]
    rfl
  | and p q ihp ihq | or p q ihp ihq | holdUntil _ p q ihp ihq | release _ p q ihp ihq =>
    rw [hasNegation, Bool.or_eq_false_iff] at hp
    rw [positive, ihp hp.1 hb, ihq hp.2 hb]
    rfl

theorem hasNegation_of_isCanonical {p : Property} (hp : p.IsCanonical) : p.hasNegation = false := by
  induction p with
  | const _ | atom _ | var _ => rfl
  | next _ p ih | fix _ _ p ih => exact ih hp
  | and p q ihp ihq | or p q ihp ihq => rw [hasNegation, ihp hp.1, ihq hp.2]; rfl
  | not _ _ | eventually _ _ _ | always _ _ _ | holdUntil _ _ _ _ _ | release _ _ _ _ _ =>
    exact hp.elim

end Property

/-! ## Numbering -/

namespace Formula

/-- Sharing fails with the part only. -/
theorem share_ok {p : Property} {fresh : StateT Numbering (Except Fault) Formula}
    (h : ∀ st, ∃ r, fresh st = .ok r) (st : Numbering) : ∃ r, share p fresh st = .ok r := by
  obtain ⟨r, hr⟩ := h st
  rw [share_run, hr]
  split
  · split
    · exact ⟨_, rfl⟩
    · exact ⟨_, rfl⟩
  · exact ⟨_, rfl⟩

/-- Numbering a closed property in canonical form succeeds whatever its names are, also where
    different closed parts have the same text. -/
theorem number_ok {p : Property} {bindings : List (String × Nat)} (hc : p.IsCanonical)
    (hp : p.closedUnder (bindings.map Prod.fst) = true) (st : Numbering) :
    ∃ r, number bindings p st = .ok r := by
  induction p generalizing bindings st with
  | const _ | atom _ => exact share_ok (fun _ => ⟨_, rfl⟩) st
  | var name =>
    obtain ⟨id, hid⟩ := Property.lookup_isSome (List.contains_iff_mem.1 hp)
    rw [number, hid]
    exact ⟨_, rfl⟩
  | and p q ihp ihq | or p q ihp ihq =>
    rw [Property.closedUnder, Bool.and_eq_true] at hp
    refine share_ok (fun st => ?_) st
    obtain ⟨⟨f, st₁⟩, hf⟩ := ihp hc.1 hp.1 st
    obtain ⟨⟨g, st₂⟩, hg⟩ := ihq hc.2 hp.2 st₁
    rw [bind_run hf, bind_run hg]
    exact ⟨_, rfl⟩
  | next paths p ih =>
    refine share_ok (fun st => ?_) st
    obtain ⟨⟨f, st'⟩, hf⟩ := ih hc hp st
    rw [bind_run hf]
    exact ⟨_, rfl⟩
  | fix kind name p ih =>
    refine share_ok (fun st => ?_) st
    obtain ⟨⟨f, st'⟩, hf⟩ := @ih ((name, st.next) :: bindings) hc hp { st with next := st.next + 1 }
    rw [bind_run (m := get) rfl, bind_run (m := modify _) rfl, bind_run hf]
    exact ⟨_, rfl⟩
  | not _ _ | eventually _ _ _ | always _ _ _ | holdUntil _ _ _ _ _ | release _ _ _ _ _ =>
    exact hc.elim

end Formula

/-! ## Normal forms of closed properties -/

/-- A closed property with a positive normal form can be labelled. -/
theorem Labelling.ofProperty_total {p q : Property} (hq : p.pnf = .ok q)
    (hclosed : q.isClosed = true) (hneg : q.hasNegation = false) :
    ∃ l, Labelling.ofProperty p = .ok l := by
  obtain ⟨⟨f, st⟩, hf⟩ := @Formula.number_ok q.canonical []
    (Property.isCanonical_canonicalAt 0 hneg) (Property.closedUnder_canonicalAt 0 hclosed) {}
  refine ⟨{ property := p, formula := f }, ?_⟩
  rw [Labelling.ofProperty, Formula.ofProperty, hq]
  show ((Formula.number [] q.canonical {} >>= _) >>= _) = _
  rw [hf]
  rfl

namespace Property

/-- What the normal forms of a closed property `p` with the positive normal form `q` satisfy. -/
structure Normalised (p q : Property) : Prop where
  closed : q.isClosed = true
  negationFree : q.hasNegation = false
  again : q.pnf = .ok q
  enf_closed : p.enf.isClosed = true
  enf_polarity : negatedVariable? false [] p.enf = none
  canonical_closed : q.canonical.isClosed = true
  canonical_negationFree : q.canonical.hasNegation = false
  isCanonical : q.canonical.IsCanonical
  labelled : ∃ l, Labelling.ofProperty p = .ok l
  enf_labelled : ∃ l, Labelling.ofProperty p.enf = .ok l

theorem pnf_shape {p q : Property} (hp : p.isClosed = true) (hq : p.pnf = .ok q) :
    q.isClosed = true ∧ q.hasNegation = false := by
  rw [pnf_eq_positive] at hq
  obtain ⟨-, hneg, hclosed⟩ := positive_shape (fun _ h => h) hq p.uses_true
  exact ⟨hclosed [] hp, hneg⟩

/-- A closed property passes the polarity test if and only if it has a positive normal form, and
    fails both with the same variable. If it has one, that form and the existential one pass
    again, and a checker can label the property and its existential form. -/
theorem polarity_iff_pnf {p : Property} (hp : p.isClosed = true) :
    (∀ name, negatedVariable? false [] p = some name ↔ p.pnf = .error (.oppositePolarity name)) ∧
      (negatedVariable? false [] p = none ↔ ∃ q, p.pnf = .ok q) ∧
      ∀ q, p.pnf = .ok q → Normalised p q := by
  have hfound {name : String} (h : negatedVariable? false [] p = some name) :
      p.pnf = .error (.oppositePolarity name) := p.pnf_eq_positive.trans (positive_error hp h)
  have hnone (q : Property) (hq : p.pnf = .ok q) : negatedVariable? false [] p = none := by
    refine Option.eq_none_iff_forall_not_mem.2 fun name h => ?_
    rw [hfound h] at hq
    cases hq
  refine ⟨fun name => ⟨hfound, fun h => ?_⟩, ⟨pnf_ok, fun h => h.elim hnone⟩, fun q hq => ?_⟩
  · -- the normal form fails only where the test does, with the variable that the test finds
    cases htest : negatedVariable? false [] p with
    | none =>
      obtain ⟨q, hq⟩ := pnf_ok htest
      rw [hq] at h
      cases h
    | some found =>
      rw [hfound htest] at h
      cases h
      rfl
  · obtain ⟨hclosed, hneg⟩ := pnf_shape hp hq
    have hcanonical := isCanonical_canonicalAt 0 hneg
    -- the existential form passes the test again, and so has a positive form itself
    have henf : p.enf.isClosed = true := (closedUnder_enf p []).trans hp
    have hpolarity := negatedVariable?_enf p (hnone q hq)
    obtain ⟨r, hr⟩ := pnf_ok hpolarity
    obtain ⟨hr_closed, hr_neg⟩ := pnf_shape henf hr
    exact
      { closed := hclosed
        negationFree := hneg
        again := q.pnf_eq_positive.trans (positive_self hneg (List.forall_mem_nil _))
        enf_closed := henf
        enf_polarity := hpolarity
        canonical_closed := closedUnder_canonicalAt 0 hclosed
        canonical_negationFree := hasNegation_of_isCanonical hcanonical
        isCanonical := hcanonical
        labelled := Labelling.ofProperty_total hq hclosed hneg
        enf_labelled := Labelling.ofProperty_total hr hr_closed hr_neg }

/-- Both fixed points bind the same name, one of them under a negation. -/
theorem polarity_iff_pnf_shadowed :
    ∃ q, pnf (.fix .least "Z" (.or (.not (.fix .greatest "Z" (.next .all (.var "Z"))))
      (.next .some (.var "Z")))) = .ok q ∧
      Normalised (.fix .least "Z" (.or (.not (.fix .greatest "Z" (.next .all (.var "Z"))))
        (.next .some (.var "Z")))) q := by
  refine ⟨.fix .least "Z" (.or (.fix .least "Z" (.next .some (.var "Z"))) (.next .some (.var "Z"))),
    rfl, (polarity_iff_pnf rfl).2.2 _ rfl⟩

end Property

end RefineCheck
