/-
  RefineCheck.Proofs.Labelling.Check

  Checking a property on a space: if the labels that are left after settling are right, the
  conclusion states the value of the property over the initial states, and an unknown one is
  explained by a path to an unknown comparison. A check fails exactly if some comparison has
  no outcome.
-/

import RefineCheck.Checker
import RefineCheck.Proofs.Labelling.Label
import RefineCheck.Proofs.Labelling.Numbering
import RefineCheck.Proofs.Labelling.Settle

namespace RefineCheck

open Formula (Tables)
open Relation (ReflTransGen)
open Std (TreeMap TreeSet)

/-! ## Verdicts -/

/-- The value of a property over all initial states of a space. -/
noncomputable def Space.verdict (s : Space) (p : Property) : Kleene :=
  ⨅ n ∈ {n | n ∈ s.initialStates}, p.meaning s.kripke (fun _ _ => ⊥) n

/-- The truth value that a conclusion states, if it states one. -/
def Conclusion.value? : Conclusion → Option Kleene
  | .known value => some (.ofBool value)
  | .unknown _ => some .unknown
  | .notCheckable => none

/-- Whether every comparison of a property has an outcome in every state that can be reached. -/
def Space.Interprets (s : Space) (p : Property) : Prop :=
  p.AtomsIn fun a => ∀ n ∈ s.reachable, n ≠ root → s.Evaluates a n

/-- The atomic properties in the order they are written. -/
def Property.atoms : Property → List Atomic
  | .const _ | .var _ => []
  | .atom a => [a]
  | .not p | .next _ p | .eventually _ p | .always _ p | .fix _ _ p => p.atoms
  | .and p q | .or p q | .holdUntil _ p q | .release _ p q => p.atoms ++ q.atoms

theorem Formula.atoms_toProperty (f : Formula) : f.toProperty.atoms = f.atoms := by
  induction f with
  | const _ | atom _ | var _ _ => rfl
  | next _ f ih | fix _ _ _ f ih | shared _ f ih => exact ih
  | and f g ihf ihg | or f g ihf ihg =>
    rw [toProperty, Property.atoms, ihf, ihg]
    rfl

/-- The parts whose values are those of the same state. -/
def Formula.operands : Formula → List Formula
  | .and f g | .or f g => [f, g]
  | .fix _ _ _ f | .shared _ f => [f]
  | .const _ | .atom _ | .var _ _ | .next _ _ => []

theorem Formula.mem_atoms_of_operand {f g : Formula} (h : g ∈ f.operands) {a : Atomic}
    (ha : a ∈ g.atoms) : a ∈ f.atoms := by
  cases f with
  | const _ | atom _ | var _ _ | next _ _ => cases h
  | and f f' | or f f' =>
    rw [Formula.operands, List.mem_cons, List.mem_singleton] at h
    rw [Formula.atoms, List.mem_append]
    rcases h with rfl | rfl
    · exact .inl ha
    · exact .inr ha
  | fix _ _ _ f | shared _ f =>
    obtain rfl := List.mem_singleton.1 h
    exact ha

/-- A conclusion that states a value, and explains it if it is unknown. -/
structure Space.Concludes (s : Space) (v : Kleene) (c : Conclusion) : Prop where
  value_eq : c.value? = some v
  explained {culprit : Culprit} : c = .unknown culprit →
    ∃ n ∈ s.initialStates, Labelling.Follows s n culprit.earlier culprit.state ∧
      ∃ state, s.states[culprit.state]? = some state ∧
        culprit.atomic.evaluate state = .ok .unknown

namespace Labelling

variable {s : Space} {T : Tables} {l : Labelling}

/-! ## Validation -/

/-- Validates one comparison in a state. -/
def validateOne (s : Space) (n : NodeId) (a : Atomic) : LabelM Unit := do
  match a.evaluate (← raise (s.state n)) with
  | .ok _ => return ()
  | .error cause => throw (.invalid a cause)

/-- Validation fails exactly if some comparison has no outcome in the state, and then with the error
    of this comparison. It leaves the labelling as it is. -/
theorem exec_validate {n : NodeId} {st : State} (hst : s.states[n]? = some st) (f : Formula)
    (l : Labelling) :
    (exec (validate s f n) l = (.ok (), l) ∧ ∀ a ∈ f.atoms, ∀ e, a.evaluate st ≠ .error e) ∨
      ∃ a ∈ f.atoms, ∃ e, a.evaluate st = .error e ∧
        exec (validate s f n) l = (.error (.invalid a e), l) := by
  have hforM : validate s f n = forM f.atoms (validateOne s n) := rfl
  rw [hforM]
  induction f.atoms with
  | nil => exact .inl ⟨rfl, nofun⟩
  | cons a rest ih =>
    rw [List.forM_cons]
    cases heval : a.evaluate st with
    | error e =>
      have hrun : exec (validateOne s n a) l = (.error (.invalid a e), l) := by
        rw [validateOne, state_ok hst]
        simp only [raise, pure_bind, heval]
        rfl
      rw [exec_bind_error hrun]
      exact .inr ⟨a, List.mem_cons_self, e, heval, rfl⟩
    | ok v =>
      have hrun : exec (validateOne s n a) l = (.ok (), l) := by
        rw [validateOne, state_ok hst]
        simp only [raise, pure_bind, heval]
        rfl
      rw [exec_bind_ok hrun]
      rcases ih with ⟨hrest, hall⟩ | ⟨b, hb, e, he, hrest⟩
      · refine .inl ⟨hrest, List.forall_mem_cons.2 ⟨fun e h => ?_, hall⟩⟩
        rw [heval] at h
        cases h
      · exact .inr ⟨b, List.mem_cons_of_mem a hb, e, he, hrest⟩

/-! ## Conclusions -/

theorem toBool?_ofKleene (v : Kleene) : (Valuation.ofKleene v).toBool? = v.toBool? := by
  cases v <;> rfl

/-- Labels that are right and traced lead to the conclusion that states the value over the initial
    states. -/
theorem conclude_ok (hT : ∀ {id g}, T.bodies id = some g → l.formula.body? id = some g)
    {labels : Labels} {z : NodeId → Kleene}
    (h : ∀ n ∈ s.initialStates, labels.valuation n = .ofKleene (z n) ∧
      Traced s T l (l.time + 1) l.formula n (labels.valuation n)) :
    ∃ c, l.conclude s labels = .ok c ∧ s.Concludes (⨅ n ∈ {n | n ∈ s.initialStates}, z n) c := by
  have hover : Paths.all.combine (s.initialStates.map labels.valuation) =
      .ofKleene (⨅ n ∈ {n | n ∈ s.initialStates}, z n) :=
    Paths.all.combine_eq_over fun n hn => (h n hn).1
  rw [conclude, hover, toBool?_ofKleene]
  cases hv : (⨅ n ∈ {n | n ∈ s.initialStates}, z n) with
  | ff => exact ⟨.known false, rfl, rfl, nofun⟩
  | tt => exact ⟨.known true, rfl, rfl, nofun⟩
  | unknown =>
    rw [hv] at hover
    obtain ⟨n, hinit, hunknown, hn⟩ := exists_find?_unknown hover
    obtain ⟨between, last, a, hok, hpath, hlast⟩ :=
      (h n hinit).2.deduce_ok hT hunknown []
    refine ⟨.unknown ⟨[] ++ between, last, a⟩, ?_, rfl, fun {culprit} hc => ?_⟩
    · simp only [Kleene.toBool?, hn, endOfTime, hok]
      rfl
    · obtain rfl := Conclusion.unknown.inj hc
      exact ⟨n, hinit, hpath, hlast⟩

/-- The bodies of fixed points are parts of the formula. -/
theorem mem_atoms_of_body? {f g : Formula} {id : Nat} (h : f.body? id = some g) {a : Atomic}
    (ha : a ∈ g.atoms) : a ∈ f.atoms := by
  induction f with
  | const _ | atom _ | var _ _ => cases h
  | and f f' ihf ihg | or f f' ihf ihg =>
    rw [Formula.body?, Option.orElse_eq_orElse, Option.orElse_eq_or, Option.or_eq_some_iff] at h
    rw [Formula.atoms, List.mem_append]
    exact h.imp ihf fun h => ihg h.2
  | next _ f ih | shared _ f ih => exact ih h
  | fix i _ _ f ih =>
    rw [Formula.body?] at h
    split at h
    · obtain rfl := Option.some.inj h
      exact ha
    · exact ih h

/-- One step of the deduction: from a formula at a state to an operand, from a variable to the body of
    its fixed point, or to a successor. -/
inductive Pursues (s : Space) (l : Labelling) :
    Formula × List StateId × StateId → Formula × List StateId × StateId → Prop
  | operand {f g : Formula} {earlier : List StateId} {n : StateId} (h : g ∈ f.operands) :
    Pursues s l (f, earlier, n) (g, earlier, n)
  | body {id : Nat} {name : String} {f : Formula} {earlier : List StateId} {n : StateId}
    (h : l.formula.body? id = some f) : Pursues s l (.var id name, earlier, n) (f, earlier, n)
  | next {paths : Paths} {f : Formula} {earlier : List StateId} {n m : StateId} (h : m ∈ s.next n) :
    Pursues s l (.next paths f, earlier, n) (f, earlier ++ [n], m)

theorem mem_of_findM? {α : Type} {holds : α → Except Fault Bool} {xs : List α} {a : α}
    (h : findM? holds xs = .ok (some a)) : a ∈ xs := by
  induction xs with
  | nil => cases h
  | cons x xs ih =>
    rw [findM?, bind_eq_ok] at h
    obtain ⟨found, -, h⟩ := h
    split at h
    · obtain rfl := Option.some.inj (Except.ok.inj h)
      exact List.mem_cons_self
    · exact List.mem_cons_of_mem _ (ih h)

/-- Deduction goes step by step to the comparison that is to blame. -/
theorem pursued_of_deduce {bound : Nat} {f : Formula} {earlier : List StateId} {n : StateId}
    {c : Culprit} (h : l.deduce s bound f earlier n = .ok c) :
    ReflTransGen (Pursues s l) (f, earlier, n) (.atom c.atomic, c.earlier, c.state) := by
  fun_induction deduce s l bound f earlier n with
  | case1 => exact absurd h error_ne_ok
  | case2 bound earlier n a =>
    obtain rfl := pure_eq_ok.1 h
    exact .refl
  | case3 bound earlier n isUnknown f g refuse ihf ihg
  | case4 bound earlier n isUnknown f g refuse ihf ihg =>
    simp only [bind_eq_ok] at h
    obtain ⟨left, -, h⟩ := h
    split at h
    · exact .head (.operand List.mem_cons_self) (ihf h)
    · simp only [bind_eq_ok] at h
      obtain ⟨right, -, h⟩ := h
      split at h
      · exact .head (.operand (List.mem_cons_of_mem _ List.mem_cons_self)) (ihg h)
      · exact absurd h error_ne_ok
  | case5 bound earlier n isUnknown paths f refuse ih =>
    simp only [bind_eq_ok] at h
    obtain ⟨found, hfound, h⟩ := h
    split at h
    · exact .head (.next (mem_of_findM? hfound)) (ih _ h)
    · exact absurd h error_ne_ok
  | case6 bound earlier n id kind name f ih =>
    simp only [bind_eq_ok] at h
    obtain ⟨⟨e, he⟩, -, h⟩ := h
    exact .head (.operand List.mem_cons_self) (ih e he h)
  | case7 bound earlier n id name refuse ih =>
    simp only [bind_eq_ok] at h
    obtain ⟨⟨e, he⟩, -, h⟩ := h
    split at h
    · rename_i g hg
      exact .head (.body hg) (ih e he g h)
    · exact absurd h error_ne_ok
  | case8 bound earlier n id f ih => exact .head (.operand List.mem_cons_self) (ih h)

/-- A step stays in the formula of the labelling. -/
theorem Pursues.mem_atoms {x y : Formula × List StateId × StateId} (h : Pursues s l x y)
    (hx : ∀ a ∈ x.1.atoms, a ∈ l.formula.atoms) : ∀ a ∈ y.1.atoms, a ∈ l.formula.atoms := by
  cases h with
  | operand h => exact fun a ha => hx a (Formula.mem_atoms_of_operand h ha)
  | body h => exact fun a ha => mem_atoms_of_body? h ha
  | next h => exact hx

/-- Deduction stays in the formula of the labelling. -/
theorem deduce_atomic {bound : Nat} {earlier : List StateId} {n : StateId} {c : Culprit}
    (h : l.deduce s bound l.formula earlier n = .ok c) : c.atomic ∈ l.formula.atoms := by
  have hatoms {x : Formula × List StateId × StateId}
      (hx : ReflTransGen (Pursues s l) (l.formula, earlier, n) x) :
      ∀ a ∈ x.1.atoms, a ∈ l.formula.atoms := by
    induction hx with
    | refl => exact fun a ha => ha
    | tail _ hstep ih => exact hstep.mem_atoms ih
  exact hatoms (pursued_of_deduce h) _ List.mem_cons_self

theorem conclude_atomic {labels : Labels} {c : Culprit}
    (h : l.conclude s labels = .ok (.unknown c)) : c.atomic ∈ l.formula.atoms := by
  rw [conclude] at h
  split at h
  · cases h
  · split at h
    · simp only [bind_eq_ok, pure_eq_ok] at h
      obtain ⟨c', hc, h⟩ := h
      obtain rfl := Conclusion.unknown.inj h
      exact deduce_atomic hc
    · cases h

/-! ## Checks -/

/-- The states that can be reached. -/
def regionOf (s : Space) : List NodeId := s.reachable.filter fun n => n != root

theorem mem_regionOf {n : NodeId} : n ∈ regionOf s ↔ n ∈ s.reachable ∧ n ≠ root := by
  rw [regionOf, List.mem_filter, bne_iff_ne]

theorem mem_regionOf_of_next (hs : s.Valid) {n m : NodeId} (hn : n ∈ s.reachable)
    (hm : m ∈ s.next n) : m ∈ regionOf s :=
  mem_regionOf.2 ⟨Space.reachable_closed hn hm, (hs.contains_lt (hs.target hm)).1⟩

theorem region_regionOf (hs : s.Valid) : Region s {n | s.contains n = true} (regionOf s) where
  closed hn hm := mem_regionOf_of_next hs (mem_regionOf.1 hn).1 hm
  stored hn := hs.contains_of_reachable (mem_regionOf.1 hn).1 (mem_regionOf.1 hn).2
  subset hn := hs.contains_of_reachable (mem_regionOf.1 hn).1 (mem_regionOf.1 hn).2

theorem mem_regionOf_initial (hs : s.Valid) {n : NodeId} (hn : n ∈ s.initialStates) :
    n ∈ regionOf s :=
  mem_regionOf_of_next hs (Space.mem_reachable.2 .refl) hn

/-- The comparisons of a formula have outcomes where those of the property have. -/
theorem interprets_iff (hgood : ∀ {n : NodeId} {st : State}, s.states[n]? = some st → st.Nonempty) {p : Property}
    {f : Formula} (hf : Formula.Prepared p f) :
    s.Interprets p ↔ ∀ a ∈ f.atoms, ∀ n ∈ regionOf s, s.Evaluates a n := by
  rw [Space.Interprets, ← hf.atoms_iff]
  · simp only [mem_regionOf, and_imp]
  · intro a
    simp only [Space.evaluates_complement hgood]

/-- What a check on a left-total space results in. -/
structure Checks (s : Space) (T : Tables) (p : Property) (l : Labelling)
    (r : Except CheckError Conclusion × Labelling) : Prop where
  coherent : Coherent s T {n | s.contains n = true} r.2
  later : Later (settle s l) r.2
  result : (s.Interprets p ∧ ∃ c, r.1 = .ok c ∧ s.Concludes (s.verdict p) c) ∨
    ¬ s.Interprets p ∧ ∃ cause, r.1 = .error cause ∧ ∀ fault, cause ≠ .fault fault
  blamed {culprit : Culprit} : r.1 = .ok (.unknown culprit) → culprit.atomic ∈ l.formula.atoms

theorem exec_check_of_not_total (h : s.isLeftTotal = false) (l : Labelling) :
    exec (check s) l = (.ok .notCheckable, l) := by
  simp only [check, h, Bool.not_false, if_true]
  rfl

/-- The initial states are labelled after the first of them is validated. -/
theorem exec_check_of_total (h : s.isLeftTotal = true) (l : Labelling) :
    exec (check s) l =
      exec (do
        (s.initialStates.take 1).forM (validate s l.formula)
        let labels ← label s (regionOf s) l.formula {} (regionOf s) {}
        raise ((← get).conclude s labels)) (settle s l) := by
  simp only [check, h, Bool.not_true]
  rfl

/-- A space that is left-total has an initial state, and the first one is validated. -/
theorem exec_check_first (hs : s.Valid) (h : s.isLeftTotal = true) (l : Labelling) :
    ∃ first ∈ regionOf s, exec (check s) l =
      exec (do
        validate s l.formula first
        let labels ← label s (regionOf s) l.formula {} (regionOf s) {}
        raise ((← get).conclude s labels)) (settle s l) := by
  obtain ⟨first, rest, hinit⟩ : ∃ first rest, s.initialStates = first :: rest :=
    List.exists_cons_of_ne_nil (Space.isLeftTotal_iff.1 h root (Space.mem_reachable.2 .refl))
  have hforM : (s.initialStates.take 1).forM (validate s l.formula) =
      validate s l.formula first := by
    rw [hinit]
    exact bind_pure _
  refine ⟨first, mem_regionOf_initial hs (hinit ▸ List.mem_cons_self), ?_⟩
  rw [exec_check_of_total h, hforM]

section Run

variable {p : Property}

/-- The region is labelled as a whole, with nothing known about it beforehand. -/
theorem answers_check (hs : s.Valid) (hf : Formula.Prepared p l.formula) (hT : T.Lawful)
    (hagree : l.formula.Agree T) (hcoh : Coherent s T {n | s.contains n = true} (settle s l)) :
    Answers s T {n | s.contains n = true} (regionOf s) l.formula (fun _ _ => ⊥) (regionOf s)
      (settle s l) (exec (label s (regionOf s) l.formula {} (regionOf s) {}) (settle s l)) := by
  refine answers_label hT (region_regionOf hs) hagree hf.regular
    (hf.inScope.closed.mono fun _ hj => by cases hj) (Set.empty_disjoint _)
    (List.Sublist.refl _) hcoh ⟨nofun, nofun, nofun⟩ (fun _ hid => ?_) fun n hn hne =>
      absurd hn hne
  have hlive := l.formula.openFixes_subset_live hid
  rw [hf.live_eq] at hlive
  exact hlive.elim

/-- A failure of the labelling comes from a comparison without an outcome, and is no fault. -/
theorem checks_of_failed
    (hinterprets : s.Interprets p ↔ ∀ a ∈ l.formula.atoms, ∀ n ∈ regionOf s, s.Evaluates a n)
    {cause : CheckError} {l₁ : Labelling}
    (hans : Answers s T {n | s.contains n = true} (regionOf s) l.formula (fun _ _ => ⊥) (regionOf s)
      (settle s l) (.error cause, l₁)) : Checks s T p l (.error cause, l₁) := by
  obtain ⟨⟨e, rfl⟩, a, ha, n, hn, hne⟩ := hans.failed rfl
  exact ⟨hans.coherent, hans.extended.toLater,
    .inr ⟨fun h => hne (hinterprets.1 h a ha n hn), _, rfl, nofun⟩, nofun⟩

/-- The labels of the initial states decide what is concluded. -/
theorem checks_of_labelled (hs : s.Valid)
    (hgood : ∀ {n : NodeId} {st : State}, s.states[n]? = some st → st.Nonempty)
    (hf : Formula.Prepared p l.formula)
    (hbodies : ∀ {id g}, T.bodies id = some g → l.formula.body? id = some g)
    {labels : Labels} {l₁ : Labelling}
    (hans : Answers s T {n | s.contains n = true} (regionOf s) l.formula (fun _ _ => ⊥) (regionOf s)
      (settle s l) (.ok labels, l₁)) :
    Checks s T p l (exec (do raise ((← get).conclude s labels)) l₁) := by
  obtain ⟨hlabels, heval⟩ := hans.labelled rfl
  have hinterprets : s.Interprets p := (interprets_iff hgood hf).2 heval
  have hformula : l₁.formula = l.formula := hans.extended.formula_eq
  obtain ⟨c, hc, hconcludes⟩ := conclude_ok (l := l₁) (by rw [hformula]; exact hbodies)
    fun n hn => by
      rw [hformula]
      exact hlabels n (mem_regionOf_initial hs hn)
  have hend : exec (do raise ((← get).conclude s labels)) l₁ = (.ok c, l₁) := by
    rw [exec_bind_ok (exec_get l₁), hc]
    rfl
  rw [hend]
  refine ⟨hans.coherent, hans.extended.toLater, .inl ⟨hinterprets, c, rfl, ?_⟩, fun hblame => ?_⟩
  · rw [Space.verdict, ← hf.meaning_eq (Space.complementary_kripke hgood)
      (hinterprets.imp (fun _ _ => trivial) (fun _ h => h) fun _ h => h) fun _ _ => ⊥]
    exact hconcludes
  · obtain rfl := Except.ok.inj hblame
    exact hformula ▸ conclude_atomic hc

theorem checks_check (hs : s.Valid)
    (hgood : ∀ {n : NodeId} {st : State}, s.states[n]? = some st → st.Nonempty)
    (htotal : s.isLeftTotal = true) (hf : Formula.Prepared p l.formula)
    (hT : T.Lawful) (hagree : l.formula.Agree T)
    (hbodies : ∀ {id g}, T.bodies id = some g → l.formula.body? id = some g)
    (hcoh : Coherent s T {n | s.contains n = true} (settle s l)) :
    Checks s T p l (exec (check s) l) := by
  obtain ⟨first, hfirst, hcheck⟩ := exec_check_first hs htotal l
  obtain ⟨st, hst⟩ := Space.contains_iff.1 ((region_regionOf hs).stored hfirst)
  rw [hcheck]
  rcases exec_validate hst l.formula (settle s l) with ⟨hrun, -⟩ | ⟨a, ha, e, he, hrun⟩
  · have hans := answers_check hs hf hT hagree hcoh
    rw [exec_bind_ok hrun]
    rcases hlabel : exec (label s (regionOf s) l.formula {} (regionOf s) {}) (settle s l) with
      ⟨r, l₁⟩
    rw [hlabel] at hans
    cases r with
    | error cause =>
      rw [exec_bind_error hlabel]
      exact checks_of_failed (interprets_iff hgood hf) hans
    | ok labels =>
      rw [exec_bind_ok hlabel]
      exact checks_of_labelled hs hgood hf hbodies hans
  · -- the comparison that the first state refuses has no outcome there
    rw [exec_bind_error hrun]
    refine ⟨hcoh, .refl _, .inr ⟨fun h => ?_, _, rfl, nofun⟩, nofun⟩
    obtain ⟨st', v, hst', hv⟩ := (interprets_iff hgood hf).1 h a ha first hfirst
    obtain rfl := Option.some.inj (hst.symm.trans hst')
    exact absurd (he.symm.trans hv) error_ne_ok

end Run

end Labelling

end RefineCheck
