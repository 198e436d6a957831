/-
  RefineCheck.Proofs.Labelling.Trace

  Values that can be explained. A value is traced if it is what the labels and histories say,
  and if an unknown value was computed from values that were traced at an earlier time. The
  deduction of a culprit succeeds for every traced unknown value.
-/

import RefineCheck.Labelling.Culprit
import RefineCheck.Proofs.Labelling.Formula
import RefineCheck.Proofs.Labelling.History
import RefineCheck.Proofs.Space.Kripke

namespace RefineCheck.Labelling

open Formula (Tables)

/-- The value of a formula in a node before a time, as the labels and histories have it. A fixed
    point that is unknown has its value from its body, as it was when the value was recorded. -/
inductive Traced (s : Space) (T : Tables) (l : Labelling) :
    (bound : Nat) → Formula → NodeId → Valuation → Prop
  | const {bound : Nat} {value : Bool} {n : NodeId} :
    Traced s T l bound (.const value) n (.ofBool value)
  | atom {bound : Nat} {a : Atomic} {n : NodeId} {state : State} {value : Kleene} :
    s.states[n]? = some state → a.evaluate state = .ok value →
    Traced s T l bound (.atom a) n (.ofKleene value)
  | and {bound : Nat} {f g : Formula} {n : NodeId} {v u : Valuation} :
    Traced s T l bound f n v → Traced s T l bound g n u →
    Traced s T l bound (.and f g) n (v.and u)
  | or {bound : Nat} {f g : Formula} {n : NodeId} {v u : Valuation} :
    Traced s T l bound f n v → Traced s T l bound g n u →
    Traced s T l bound (.or f g) n (v.or u)
  | next {bound : Nat} {paths : Paths} {f : Formula} {n : NodeId} (values : NodeId → Valuation) :
    (∀ m ∈ s.next n, Traced s T l bound f m (values m)) →
    Traced s T l bound (.next paths f) n (paths.combine ((s.next n).map values))
  | fix {bound id : Nat} {kind : Extremum} {name : String} {f : Formula} {n : NodeId}
    {e : History.Entry} : (l.history id).before? bound n = some e →
    (e.label.valuation = .unknown → Traced s T l e.time f n .unknown) →
    Traced s T l bound (.fix id kind name f) n e.label.valuation
  | var {bound id : Nat} {name : String} {f : Formula} {n : NodeId} {e : History.Entry} :
    T.bodies id = some f → (l.history id).before? bound n = some e →
    (e.label.valuation = .unknown → Traced s T l e.time f n .unknown) →
    Traced s T l bound (.var id name) n e.label.valuation
  | shared {bound id : Nat} {f : Formula} {n : NodeId} {label : Label} :
    (l.labelsOf id)[n]? = some label → Traced s T l bound f n label.valuation →
    Traced s T l bound (.shared id f) n label.valuation

variable {s : Space} {T : Tables} {l : Labelling} {bound : Nat} {f : Formula} {n : NodeId}
  {v : Valuation}

/-! ## Values -/

theorem mapM_ok {α β : Type} {g : α → Except Fault β} {values : α → β} {xs : List α}
    (h : ∀ a ∈ xs, g a = .ok (values a)) : xs.mapM g = .ok (xs.map values) := by
  induction xs with
  | nil => rfl
  | cons a rest ih =>
    rw [List.mapM_cons, h a List.mem_cons_self, ih fun b hb => h b (List.mem_cons_of_mem _ hb)]
    rfl

theorem entryBefore_ok {id : Nat} {e : History.Entry} (h : (l.history id).before? bound n = some e) :
    ∃ ht, l.entryBefore id bound n = .ok ⟨e, ht⟩ := by
  refine ⟨History.time_lt_of_before? h, ?_⟩
  rw [entryBefore]
  split
  · rename_i e' he'
    obtain rfl := Option.some.inj (h.symm.trans he')
    rfl
  · rename_i hnone
    rw [h] at hnone
    cases hnone

theorem state_ok {state : State} (h : s.states[n]? = some state) : s.state n = .ok state := by
  rw [Space.state, h]

/-- A traced value is the one that is read. -/
theorem Traced.valueBefore_eq (h : Traced s T l bound f n v) : l.valueBefore s bound f n = .ok v := by
  induction h with
  | const => rfl
  | atom hstate hv =>
    rw [valueBefore, state_ok hstate]
    simp only [bind, Except.bind, hv]
    rfl
  | and _ _ ihf ihg | or _ _ ihf ihg =>
    rw [valueBefore, ihf, ihg]
    rfl
  | next values _ ih =>
    rw [valueBefore, mapM_ok ih]
    rfl
  | fix he _ _ | var _ he _ _ =>
    obtain ⟨ht, hok⟩ := entryBefore_ok he
    rw [valueBefore, hok]
    rfl
  | shared hlabel _ _ =>
    rw [valueBefore, hlabel]
    rfl

/-! ## Culprits -/

/-- A path of steps from a node to another one, without the last node. -/
inductive Follows (s : Space) : NodeId → List NodeId → NodeId → Prop
  | here (n : NodeId) : Follows s n [] n
  | step {n m last : NodeId} {path : List NodeId} : m ∈ s.next n → Follows s m path last →
    Follows s n (n :: path) last

theorem unknown_of_and {v u : Valuation} (h : v.and u = .unknown) : v = .unknown ∨ u = .unknown := by
  revert h
  cases v <;> cases u <;> decide

theorem unknown_of_or {v u : Valuation} (h : v.or u = .unknown) : v = .unknown ∨ u = .unknown := by
  revert h
  cases v <;> cases u <;> decide

theorem unknown_of_foldl {op : Valuation → Valuation → Valuation}
    (hop : ∀ {v u}, op v u = .unknown → v = .unknown ∨ u = .unknown) {xs : List Valuation}
    {v : Valuation} (h : xs.foldl op v = .unknown) : v = .unknown ∨ .unknown ∈ xs := by
  induction xs generalizing v with
  | nil => exact .inl h
  | cons x xs ih =>
    rcases ih h with hx | hx
    · rcases hop hx with hv | rfl
      · exact .inl hv
      · exact .inr List.mem_cons_self
    · exact .inr (List.mem_cons_of_mem _ hx)

theorem unknown_of_combine {paths : Paths} {values : NodeId → Valuation} {xs : List NodeId}
    (h : paths.combine (xs.map values) = .unknown) : ∃ m ∈ xs, values m = .unknown := by
  have hmem : Valuation.unknown ∈ xs.map values := by
    cases paths with
    | all => exact (unknown_of_foldl unknown_of_and h).resolve_left (by decide)
    | some => exact (unknown_of_foldl unknown_of_or h).resolve_left (by decide)
  exact List.mem_map.1 hmem

theorem isUnknown_iff {v : Valuation} : v.isUnknown = true ↔ v = .unknown := beq_iff_eq

/-- If values combine to an unknown one, the first unknown one of them is found. -/
theorem exists_find?_unknown {paths : Paths} {values : NodeId → Valuation} {xs : List NodeId}
    (h : paths.combine (xs.map values) = .unknown) :
    ∃ m ∈ xs, values m = .unknown ∧ xs.find? (fun m => (values m).isUnknown) = some m := by
  obtain ⟨k, hk, hkv⟩ := unknown_of_combine h
  have hsome : (xs.find? fun m => (values m).isUnknown).isSome = true := by
    rw [List.find?_isSome]
    exact ⟨k, hk, isUnknown_iff.2 hkv⟩
  obtain ⟨m, hm⟩ := Option.isSome_iff_exists.1 hsome
  exact ⟨m, List.mem_of_find?_eq_some hm, isUnknown_iff.1 (List.find?_some hm :), hm⟩

theorem findM?_ok {α : Type} {g : α → Except Fault Bool} {test : α → Bool} {xs : List α}
    (h : ∀ a ∈ xs, g a = .ok (test a)) : findM? g xs = .ok (xs.find? test) := by
  induction xs with
  | nil => rfl
  | cons a rest ih =>
    rw [findM?, h a List.mem_cons_self, List.find?_cons]
    simp only [bind, Except.bind]
    cases test a with
    | true => rfl
    | false =>
      simp only [Bool.false_eq_true, if_false]
      exact ih fun b hb => h b (List.mem_cons_of_mem _ hb)

theorem isUnknown_ok {g : Formula} {m : NodeId} (h : l.valueBefore s bound g m = .ok v) :
    (do return (← l.valueBefore s bound g m).isUnknown : Except Fault Bool) = .ok v.isUnknown := by
  rw [h]
  rfl

/-- An unknown value leads to a node with an unknown comparison. -/
theorem Traced.deduce_ok (hT : ∀ {id g}, T.bodies id = some g → l.formula.body? id = some g)
    (h : Traced s T l bound f n v) (hv : v = .unknown) (earlier : List NodeId) :
    ∃ between last a, l.deduce s bound f earlier n = .ok ⟨earlier ++ between, last, a⟩ ∧
      Follows s n between last ∧
      ∃ state, s.states[last]? = some state ∧ a.evaluate state = .ok .unknown := by
  -- a traced unknown value has a part with a traced unknown value, at an earlier time if the part
  -- is the body of a fixed point
  induction h generalizing earlier with
  | @const _ value _ => cases value <;> cases hv
  | @atom _ a n state value hstate heval =>
    obtain rfl : value = .unknown := by
      revert hv
      cases value <;> decide
    refine ⟨[], n, a, ?_, .here n, state, hstate, heval⟩
    rw [deduce, List.append_nil]
    rfl
  | @and _ f g n v u hf hg ihf ihg | @or _ f g n v u hf hg ihf ihg =>
    by_cases hleft : v = .unknown
    · obtain ⟨between, last, a, hok, hrest⟩ := ihf hleft earlier
      refine ⟨between, last, a, ?_, hrest⟩
      rw [deduce]
      simp only [hf.valueBefore_eq, ok_bind, pure_ok, isUnknown_iff.2 hleft, if_true]
      exact hok
    · -- the left part is definite, so that the right one makes the value unknown
      have hright : u = .unknown := by
        first
        | exact (unknown_of_and hv).resolve_left hleft
        | exact (unknown_of_or hv).resolve_left hleft
      obtain ⟨between, last, a, hok, hrest⟩ := ihg hright earlier
      refine ⟨between, last, a, ?_, hrest⟩
      rw [deduce]
      simp only [hf.valueBefore_eq, hg.valueBefore_eq, ok_bind, pure_ok, isUnknown_iff, hleft,
        if_false, isUnknown_iff.2 hright, if_true]
      exact hok
  | @next bound paths f n values hvalues ih =>
    obtain ⟨k, hkn, hkv, hk⟩ := exists_find?_unknown hv
    obtain ⟨between, last, a, hok, hpath, hrest⟩ := ih k hkn hkv (earlier ++ [n])
    refine ⟨n :: between, last, a, ?_, .step hkn hpath, hrest⟩
    have hfound : findM? (fun m => do return (← l.valueBefore s bound f m).isUnknown) (s.next n) =
        .ok (some k) := by
      rw [findM?_ok fun m hm => isUnknown_ok (hvalues m hm).valueBefore_eq, hk]
    rw [deduce]
    simp only [hfound, ok_bind]
    rw [hok, List.append_assoc]
    rfl
  | @fix bound id kind name f n e he _ ih =>
    obtain ⟨between, last, a, hok, hrest⟩ := ih hv rfl earlier
    obtain ⟨ht, hentry⟩ := entryBefore_ok he
    refine ⟨between, last, a, ?_, hrest⟩
    rw [deduce, hentry]
    exact hok
  | @var bound id name f n e hbody he _ ih =>
    obtain ⟨between, last, a, hok, hrest⟩ := ih hv rfl earlier
    obtain ⟨ht, hentry⟩ := entryBefore_ok he
    refine ⟨between, last, a, ?_, hrest⟩
    rw [deduce, hentry]
    simp only [ok_bind, hT hbody]
    exact hok
  | shared _ _ ih =>
    obtain ⟨between, last, a, hok, hrest⟩ := ih hv earlier
    refine ⟨between, last, a, ?_, hrest⟩
    rw [deduce]
    exact hok

end RefineCheck.Labelling
