/-
  RefineCheck.Proofs.Labelling.Label

  Labelling computes the three-valued meaning. Closed parts that have labels are not labelled
  again; fixed points are iterated on the states without a label, with the known labels of
  the others as a boundary. A failure comes from a comparison without an outcome, and leaves
  a labelling that is right as far as it goes.

  There is a lemma for each kind of formula, and the induction over the formula only has to
  show that the parts may be labelled when it is their turn.
-/

import Mathlib
import RefineCheck.Proofs.Labelling.Iterate

namespace RefineCheck.Labelling

open Formula (Tables)
open Std (TreeMap)

variable {s : Space} {T : Tables} {G : Set NodeId} {l l' : Labelling}

/-! ## Comparisons -/

/-- Labels one state with a comparison. -/
def evaluateOne (s : Space) (a : Atomic) (labels : Labels) (n : NodeId) : LabelM Labels := do
  match a.evaluate (← raise (s.state n)) with
  | .ok value => return labels.insert n ⟨.ofKleene value, []⟩
  | .error cause => throw (.lookup cause)

theorem exec_evaluateOne (a : Atomic) (labels : Labels) {n : NodeId} (h : s.contains n = true)
    (l : Labelling) :
    (∃ state value, s.states[n]? = some state ∧ a.evaluate state = .ok value ∧
      exec (evaluateOne s a labels n) l = (.ok (labels.insert n ⟨.ofKleene value, []⟩), l)) ∨
    ¬ s.Evaluates a n ∧
      ∃ cause, exec (evaluateOne s a labels n) l = (.error (.lookup cause), l) := by
  obtain ⟨state, hstate⟩ := Space.contains_iff.1 h
  cases heval : a.evaluate state with
  | ok value =>
    refine .inl ⟨state, value, hstate, heval, ?_⟩
    rw [evaluateOne, state_ok hstate]
    simp only [raise, pure_bind, heval]
    rfl
  | error cause =>
    refine .inr ⟨?_, cause, ?_⟩
    · rintro ⟨state', value, hst, hval⟩
      obtain rfl := Option.some.inj (hstate.symm.trans hst)
      rw [heval] at hval
      cases hval
    · rw [evaluateOne, state_ok hstate]
      simp only [raise, pure_bind, heval]
      rfl

/-- Labelling with a comparison looks at one state after the other. -/
theorem exec_label_atom (a : Atomic) {targets : List NodeId} (labels : Labels)
    (hstored : ∀ n ∈ targets, s.contains n = true) (l : Labelling) :
    (∃ labels', exec (targets.foldlM (evaluateOne s a) labels) l = (.ok labels', l) ∧
      (∀ n ∈ targets, ∃ state value, s.states[n]? = some state ∧ a.evaluate state = .ok value ∧
        labels'[n]? = some ⟨.ofKleene value, []⟩) ∧ ∀ n ∉ targets, labels'[n]? = labels[n]?) ∨
    ∃ cause, exec (targets.foldlM (evaluateOne s a) labels) l = (.error (.lookup cause), l) ∧
      ∃ n ∈ targets, ¬ s.Evaluates a n := by
  induction targets generalizing labels with
  | nil => exact .inl ⟨labels, rfl, (fun _ h => by cases h), fun _ _ => rfl⟩
  | cons m rest ih =>
    obtain ⟨hm, hstored⟩ := List.forall_mem_cons.1 hstored
    rw [List.foldlM_cons]
    rcases exec_evaluateOne a labels hm l with ⟨state, value, hst, hval, hrun⟩ | ⟨hne, cause, hrun⟩
    · rw [exec_bind_ok hrun]
      rcases ih (labels.insert m ⟨.ofKleene value, []⟩) hstored with
        ⟨labels', hrest, hin, hout⟩ | ⟨cause, hrest, n, hn, hne⟩
      · refine .inl ⟨labels', hrest, fun n hn => ?_, fun n hn => ?_⟩
        · by_cases hr : n ∈ rest
          · exact hin n hr
          · obtain rfl : n = m := (List.mem_cons.1 hn).resolve_right hr
            refine ⟨state, value, hst, hval, ?_⟩
            rw [hout n hr, TreeMap.getElem?_insert_self]
        · rw [List.mem_cons, not_or] at hn
          rw [hout n hn.2, TreeMap.getElem?_insert,
            if_neg fun h => hn.1 (Std.LawfulEqCmp.compare_eq_iff_eq.1 h).symm]
      · exact .inr ⟨cause, hrest, n, List.mem_cons_of_mem _ hn, hne⟩
    · rw [exec_bind_error hrun]
      exact .inr ⟨cause, rfl, m, List.mem_cons_self, hne⟩

/-! ## Shared parts -/

/-- The labelling with other labels of a shared part. -/
def remembered (l : Labelling) (id : Nat) (labels : Labels) : Labelling :=
  { l with labels := l.labels.insert id labels }

theorem labelsOf_remembered (l : Labelling) (id : Nat) (labels : Labels) (j : Nat) :
    (l.remembered id labels).labelsOf j = if j = id then labels else l.labelsOf j := by
  rw [labelsOf, remembered, TreeMap.getD_insert]
  exact if_congr (Std.LawfulEqCmp.compare_eq_iff_eq.trans eq_comm) rfl rfl

/-- Remembering labels of states that had none keeps everything else. -/
theorem extended_remembered {id : Nat} {labels : Labels}
    (h : ∀ {n : NodeId} {label : Label}, (l.labelsOf id)[n]? = some label →
      labels[n]? = some label) :
    Extended T {id} ∅ l (l.remembered id labels) := by
  refine ⟨⟨rfl, rfl, rfl, le_rfl, fun {j n label} hj => ?_, fun _ => rfl⟩, fun {j} hj => ?_,
    fun _ => rfl, fun _ => rfl⟩
  · rw [labelsOf_remembered]
    split
    · rename_i hid
      exact h (hid ▸ hj)
    · exact hj
  · exact (l.labelsOf_remembered id labels j).trans (if_neg hj)

/-- Labels that were computed on the missing states of a region are right, and so are the labels
    that were there before. -/
theorem coherent_remembered (hT : T.Lawful) {id : Nat} {f : Formula} {e : Nat → NodeId → Kleene}
    {region missing : List NodeId} {fresh : Labels} (hshare : T.shares id = some f)
    (hcoh : Coherent s T G l) (hmissing : ∀ n ∈ missing, n ∈ region ∧ (l.labelsOf id)[n]? = none)
    (hfresh : ∀ n ∈ missing, fresh.valuation n = .ofKleene (f.meaning s.kripke e n) ∧
      Traced s T l (l.time + 1) f n (fresh.valuation n))
    (heval : ∀ a ∈ f.atoms, ∀ n ∈ region, s.Evaluates a n) :
    Extended T {id} ∅ l (l.remembered id ((l.labelsOf id).update missing fresh)) ∧
      Coherent s T G (l.remembered id ((l.labelsOf id).update missing fresh)) := by
  set l' := l.remembered id ((l.labelsOf id).update missing fresh) with hl'
  have hext : Extended T {id} ∅ l l' := by
    refine extended_remembered fun {n label} hlabel => ?_
    rw [Labels.getElem?_update, if_neg, hlabel]
    intro hn
    rw [(hmissing n hn).2] at hlabel
    cases hlabel
  refine ⟨hext, hcoh.timed, fun {j g n label} hj hn hlabel => ?_⟩
  by_cases hold : (l.labelsOf j)[n]? = some label
  · exact (hcoh.right hj hn hold).later hT hj hcoh.timed hcoh.timed hext.toLater hext.settled
  · -- a new label belongs to the shared part and to a missing state
    have hlabel' := hlabel
    rw [hl', labelsOf_remembered] at hlabel'
    split at hlabel'
    · rename_i hji
      subst hji
      obtain rfl := Option.some.inj (hshare.symm.trans hj)
      rw [Labels.getElem?_update] at hlabel'
      split at hlabel'
      · rename_i hmem
        have hval : label.valuation = fresh.valuation n := by
          rw [← Option.some.inj hlabel', Labels.valuation_getD]
        obtain ⟨hv, htraced⟩ := hfresh n hmem
        refine ⟨?_, .shared hlabel ?_, fun a ha => heval a ha n (hmissing n hmem).1⟩
        · rw [hval, hv]
          rw [(hT.inScope hshare).meaning_closed e fun _ _ => ⊥]
        · rw [hval]
          exact htraced.past hext.toLater le_rfl
      · exact absurd hlabel' hold
    · exact absurd hlabel' hold

section Missing

variable {region targets : List NodeId} {e : Nat → NodeId → Kleene} {id : Nat} {f : Formula}

/-- The states of a region that have no label. -/
def missingFrom (region : List NodeId) (known : Labels) : List NodeId :=
  region.filter fun n => !known.contains n

theorem mem_missingFrom {known : Labels} {n : NodeId} :
    n ∈ missingFrom region known ↔ n ∈ region ∧ known[n]? = none := by
  rw [missingFrom, List.mem_filter, Bool.not_eq_true', TreeMap.contains_eq_isSome_getElem?,
    Option.isSome_eq_false_iff, Option.isNone_iff_eq_none]

/-- Once every state of the region has a label of a shared part, the labels are the answer. -/
theorem Coherent.labelled_shared (hcoh : Coherent s T G l) (hT : T.Lawful)
    (hregion : Region s G region) (hsub : ∀ n ∈ targets, n ∈ region)
    (hshare : T.shares id = some f)
    (hfull : ∀ n ∈ region, ∃ label, (l.labelsOf id)[n]? = some label) :
    (∀ n ∈ targets, (l.labelsOf id).valuation n =
        .ofKleene ((Formula.shared id f).meaning s.kripke e n) ∧
      Traced s T l (l.time + 1) (.shared id f) n ((l.labelsOf id).valuation n)) ∧
      ∀ a ∈ f.atoms, ∀ n ∈ region, s.Evaluates a n := by
  have hright (n : NodeId) (hn : n ∈ region) :
      Right s T l id f n ((l.labelsOf id).valuation n) := by
    obtain ⟨label, hlabel⟩ := hfull n hn
    rw [Labels.valuation, hlabel]
    exact hcoh.right hshare (hregion.subset hn) hlabel
  refine ⟨fun n hn => ?_, fun a ha n hn => (hright n hn).evaluates a ha⟩
  have h := hright n (hsub n hn)
  exact ⟨by rw [h.meaning_eq, Formula.meaning, (hT.inScope hshare).meaning_closed e], h.traced⟩

/-- What the labels of a shared part already say of the states that are not missing. -/
theorem Coherent.known_shared (hcoh : Coherent s T G l) (hT : T.Lawful) (hregion : Region s G region)
    (hshare : T.shares id = some f) {n : NodeId} (hn : n ∈ region)
    (ht : n ∉ missingFrom region (l.labelsOf id)) :
    (l.labelsOf id).valuation n = .ofKleene (f.meaning s.kripke e n) ∧
      Traced s T l (l.time + 1) f n ((l.labelsOf id).valuation n) ∧
      ∀ a ∈ f.atoms, s.Evaluates a n := by
  obtain ⟨label, hlabel⟩ :=
    Option.ne_none_iff_exists'.1 fun hn' => ht (mem_missingFrom.2 ⟨hn, hn'⟩)
  have hright := hcoh.right hshare (hregion.subset hn) hlabel
  have hval : (l.labelsOf id).valuation n = label.valuation := by rw [Labels.valuation, hlabel]
  rw [hval]
  exact ⟨by rw [hright.meaning_eq, (hT.inScope hshare).meaning_closed e], hright.traced.of_shared,
    hright.evaluates⟩

end Missing

/-! ## One kind of formula at a time

Each lemma takes what its parts answer and says what the whole formula answers. -/

section Cases

variable {region targets : List NodeId} {e : Nat → NodeId → Kleene}

theorem answers_atom {a : Atomic} (hregion : Region s G region) (hsub : ∀ n ∈ targets, n ∈ region)
    (hcoh : Coherent s T G l)
    (hknown : ∀ n ∈ region, n ∉ targets → s.Evaluates a n) :
    Answers s T G region (.atom a) e targets l
      (exec (targets.foldlM (evaluateOne s a) {}) l) := by
  rcases exec_label_atom a {} (fun n hn => hregion.stored (hsub n hn)) l with
    ⟨labels, hrun, hin, -⟩ | ⟨cause, hrun, n, hn, hne⟩
  · rw [hrun]
    refine ⟨hcoh, .refl _ _ _ _, fun {labels'} hlabels => ⟨fun n hn => ?_, fun b hb n hn => ?_⟩,
      (fun h => by cases h)⟩
    · obtain rfl := Except.ok.inj hlabels
      obtain ⟨state, value, hst, hval, hlabel⟩ := hin n hn
      have hvalue : labels.valuation n = .ofKleene value := by rw [Labels.valuation, hlabel]
      rw [hvalue]
      exact ⟨congrArg _ (Space.outcome_of_evaluate hst hval).symm, .atom hst hval⟩
    · obtain rfl := List.mem_singleton.1 hb
      by_cases ht : n ∈ targets
      · obtain ⟨state, value, hst, hval, -⟩ := hin n ht
        exact ⟨state, value, hst, hval⟩
      · exact hknown n hn ht
  · rw [hrun]
    refine ⟨hcoh, .refl _ _ _ _, (fun h => by cases h), fun h => ⟨⟨cause, ?_⟩, ?_⟩⟩
    · exact (Except.error.inj h).symm
    · exact ⟨a, List.mem_singleton_self a, n, hsub n hn, hne⟩

/-- Two parts are labelled one after the other. The second one does not touch the histories that the
    values of the first one are read from. -/
theorem answers_pair (hT : T.Lawful) (hsub : ∀ n ∈ targets, n ∈ region)
    {f g h : Formula} {op : Valuation → Valuation → Valuation}
    {left right : LabelM Labels} (hagree : f.Agree T) (hdis : Disjoint f.live g.fixes)
    (hatoms : h.atoms = f.atoms ++ g.atoms) (hshared : h.sharedIds = f.sharedIds ∪ g.sharedIds)
    (hfixes : h.fixes = f.fixes ∪ g.fixes)
    (hmeaning : ∀ n, Valuation.ofKleene (h.meaning s.kripke e n) =
      op (.ofKleene (f.meaning s.kripke e n)) (.ofKleene (g.meaning s.kripke e n)))
    (htraced : ∀ {l : Labelling} {t n v u}, Traced s T l t f n v → Traced s T l t g n u →
      Traced s T l t h n (op v u))
    (hleft : Answers s T G region f e region l (exec left l))
    (hright : ∀ {l₁ : Labelling}, Coherent s T G l₁ → Extended T f.sharedIds f.fixes l l₁ →
      Answers s T G region g e region l₁ (exec right l₁)) :
    Answers s T G region h e targets l (exec (do
      let left ← left
      let right ← right
      return .tabulate targets fun id => ⟨op (left.valuation id) (right.valuation id), []⟩) l) := by
  have hext₁ : Extended T h.sharedIds h.fixes l (exec left l).2 :=
    hleft.extended.mono (hshared ▸ Set.subset_union_left) (hfixes ▸ Set.subset_union_left)
  rcases hrun : exec left l with ⟨r, l₁⟩
  rw [hrun] at hleft hext₁
  cases r with
  | error cause =>
    rw [exec_bind_error hrun]
    refine ⟨hleft.coherent, hext₁, (fun h => by cases h), fun h => ?_⟩
    obtain ⟨hlookup, a, ha, hn⟩ := hleft.failed h
    exact ⟨hlookup, a, hatoms ▸ List.mem_append_left _ ha, hn⟩
  | ok labels =>
    rw [exec_bind_ok hrun]
    have hright := hright hleft.coherent hleft.extended
    have hext₂ : Extended T h.sharedIds h.fixes l₁ (exec right l₁).2 :=
      hright.extended.mono (hshared ▸ Set.subset_union_right) (hfixes ▸ Set.subset_union_right)
    rcases hrun₂ : exec right l₁ with ⟨r₂, l₂⟩
    rw [hrun₂] at hright hext₂
    cases r₂ with
    | error cause =>
      rw [exec_bind_error hrun₂]
      refine ⟨hright.coherent, hext₁.trans hext₂, (fun h => by cases h), fun h => ?_⟩
      obtain ⟨hlookup, a, ha, hn⟩ := hright.failed h
      exact ⟨hlookup, a, hatoms ▸ List.mem_append_right _ ha, hn⟩
    | ok labels₂ =>
      rw [exec_bind_ok hrun₂]
      obtain ⟨hf, hevalf⟩ := hleft.labelled rfl
      obtain ⟨hg, hevalg⟩ := hright.labelled rfl
      refine ⟨hright.coherent, hext₁.trans hext₂, fun {labels'} hlabels => ⟨fun n hn => ?_, ?_⟩, (fun h => by cases h)⟩
      · obtain rfl := Except.ok.inj hlabels
        obtain ⟨hfv, hft⟩ := hf n (hsub n hn)
        obtain ⟨hgv, hgt⟩ := hg n (hsub n hn)
        rw [Labels.valuation_tabulate hn]
        refine ⟨by rw [hmeaning, ← hfv, ← hgv], htraced ?_ hgt⟩
        -- what the first part was traced with is still there
        exact hft.later hT hleft.coherent.timed hright.coherent.timed hright.extended.toLater
          hright.extended.settled hagree fun id hid _ =>
            hright.extended.untouched (Set.disjoint_left.1 hdis hid)
      · rw [hatoms]
        intro a ha
        exact (List.mem_append.1 ha).elim (hevalf a) (hevalg a)

/-- The labels of the steps are in the region, since no step leaves it. -/
theorem answers_next (hregion : Region s G region) (hsub : ∀ n ∈ targets, n ∈ region)
    {paths : Paths} {f : Formula} {inner : LabelM Labels}
    (hans : Answers s T G region f e region l (exec inner l)) :
    Answers s T G region (.next paths f) e targets l (exec (do
      let inner ← inner
      return .tabulate targets (nextLabel s paths inner.valuation)) l) := by
  rcases hrun : exec inner l with ⟨r, l₁⟩
  rw [hrun] at hans
  cases r with
  | error cause =>
    rw [exec_bind_error hrun]
    exact ⟨hans.coherent, hans.extended, (fun h => by cases h), fun h => hans.failed h⟩
  | ok labels =>
    rw [exec_bind_ok hrun]
    obtain ⟨hf, heval⟩ := hans.labelled rfl
    refine ⟨hans.coherent, hans.extended, fun {labels'} hlabels => ⟨fun n hn => ?_, heval⟩,
      (fun h => by cases h)⟩
    obtain rfl := Except.ok.inj hlabels
    have hnext (m : NodeId) (hm : m ∈ s.next n) : m ∈ region := hregion.closed (hsub n hn) hm
    rw [Labels.valuation_tabulate hn]
    refine ⟨?_, .next labels.valuation fun m hm => (hf m (hnext m hm)).2⟩
    exact paths.combine_eq_over fun m hm => (hf m (hnext m hm)).1

theorem answers_var {bound : Set Nat} {env : TreeMap Nat Labels} {id : Nat} {name : String}
    (hid : id ∈ bound) (hsub : ∀ n ∈ targets, n ∈ region) (hcoh : Coherent s T G l)
    (henv : Bound s T region l bound env e) :
    Answers s T G region (.var id name) e targets l
      (.ok (Labels.update {} targets (env.getD id {})), l) := by
  refine ⟨hcoh, .refl _ _ _ _, fun {labels} hlabels => ⟨fun n hn => ?_, (fun _ ha => by cases ha)⟩,
    (fun h => by cases h)⟩
  obtain rfl := Except.ok.inj hlabels
  obtain ⟨body, hbody⟩ := henv.body hid
  rw [Labels.valuation_update, if_pos hn]
  exact ⟨henv.value hid (hsub n hn),
    (henv.recorded hid (hsub n hn)).traced_var hcoh.timed hbody⟩

/-- The approximation that an iteration starts with. -/
def firstOf (kind : Extremum) (region targets : List NodeId) (known : Labels) : Labels :=
  (if targets.length < region.length then known else {}).update targets
    (.tabulate targets fun _ => ⟨kind.ground, []⟩)

section First

variable {kind : Extremum} {known : Labels} {n : NodeId}

theorem valuation_firstOf_of_mem (hn : n ∈ targets) :
    (firstOf kind region targets known).valuation n = kind.ground := by
  rw [firstOf, Labels.valuation_update, if_pos hn, Labels.valuation_tabulate hn]

/-- Where something is known, the targets are not the whole region. -/
theorem valuation_firstOf_of_not_mem (htargets : targets.Sublist region) (hn : n ∈ region)
    (ht : n ∉ targets) : (firstOf kind region targets known).valuation n = known.valuation n := by
  have hlt : targets.length < region.length := by
    refine lt_of_le_of_ne htargets.length_le fun heq => ht ?_
    rwa [htargets.eq_of_length heq]
  rw [firstOf, Labels.valuation_update, if_neg ht, if_pos hlt]

end First

/-- The first entries are the ground value for the targets. The values that are known elsewhere end
    the histories already. -/
theorem approximates_firstOf (hT : T.Lawful) {id : Nat} {kind : Extremum} (name : String)
    {body : Formula} {known : Labels} (htargets : targets.Sublist region)
    (hbody : T.bodies id = some body) (hcoh : Coherent s T G l)
    (hunsettled : ∀ n ∈ targets, ¬ Settled T l id n)
    (hknown : ∀ n ∈ region, n ∉ targets →
      known.valuation n = .ofKleene ((Formula.fix id kind name body).meaning s.kripke e n) ∧
        Traced s T l (l.time + 1) (.fix id kind name body) n (known.valuation n)) :
    Approximates s T G region targets id (firstOf kind region targets known)
      (fun n => if n ∈ targets then kind.start else kind.solution (valuesOf s body e id) n)
      (l.noted id targets fun _ => ⟨kind.ground, []⟩) := by
  have hnoted : Extended T ∅ {id} l (l.noted id targets fun _ => ⟨kind.ground, []⟩) :=
    extended_noted hcoh.timed hunsettled
  refine ⟨hcoh.noted hT hnoted, fun {n} hn => ?_, fun {n} hn => ?_, fun {n} hn => hunsettled n hn⟩
  · by_cases ht : n ∈ targets
    · rw [valuation_firstOf_of_mem ht, if_pos ht, ofKleene_start]
    · rw [valuation_firstOf_of_not_mem htargets hn ht, if_neg ht]
      exact (hknown n hn ht).1
  · by_cases ht : n ∈ targets
    · rw [valuation_firstOf_of_mem ht]
      exact recorded_noted hcoh.timed ht hbody hnoted.toLater fun hu => by cases kind <;> cases hu
    · rw [valuation_firstOf_of_not_mem htargets hn ht]
      refine ((hknown n hn ht).2.recorded_fix hcoh.timed hbody).later hcoh.timed hnoted.toLater ?_
      rw [SameEntries, entries_noted hcoh.timed, if_neg ht]

theorem exec_label_fix (s : Space) (region targets : List NodeId) (id : Nat) (kind : Extremum)
    (name : String) (body : Formula) (env : TreeMap Nat Labels) (known : Labels) (l : Labelling) :
    exec (label s region (.fix id kind name body) env targets known) l = exec (do
      let result ← iterate id targets (bodyOf s region body env id) (2 * targets.length + 1)
        (firstOf kind region targets known)
      return Labels.update {} targets result) (l.noted id targets fun _ => ⟨kind.ground, []⟩) :=
  rfl

/-- A fixed point is answered by what its iteration finds from the first entries on. -/
theorem answers_fix {id : Nat} {kind : Extremum} {name : String} {body : Formula}
    {iteration : LabelM Labels} (hbody : T.bodies id = some body)
    (hext : Extended T ∅ {id} l l')
    (hiter : Iterates s T G region id body (kind.solution (valuesOf s body e id)) targets l'
      (exec iteration l')) :
    Answers s T G region (.fix id kind name body) e targets l (exec (do
      let result ← iteration
      return Labels.update {} targets result) l') := by
  have hext₁ : Extended T body.sharedIds (insert id body.fixes) l l' :=
    hext.mono (Set.empty_subset _) (Set.singleton_subset_iff.2 (Set.mem_insert _ _))
  rcases hrun : exec iteration l' with ⟨r, l₂⟩
  rw [hrun] at hiter
  cases r with
  | error cause =>
    rw [exec_bind_error hrun]
    exact ⟨hiter.coherent, hext₁.trans hiter.extended, (fun h => by cases h),
      fun h => hiter.failed h⟩
  | ok labels =>
    rw [exec_bind_ok hrun]
    obtain ⟨hlabels, heval⟩ := hiter.labelled rfl
    refine ⟨hiter.coherent, hext₁.trans hiter.extended,
      fun {labels'} heq => ⟨fun n hn => ?_, heval⟩, (fun h => by cases h)⟩
    obtain rfl := Except.ok.inj heq
    rw [Labels.valuation_update, if_pos hn]
    obtain ⟨hv, hr⟩ := hlabels n hn
    exact ⟨hv, hr.traced_fix hiter.coherent.timed hbody⟩

/-- A shared part is labelled where it has no label, and its labels are remembered. -/
theorem answers_shared {id : Nat} {f : Formula} (hT : T.Lawful) (hregion : Region s G region)
    (hsub : ∀ n ∈ targets, n ∈ region) (hshare : T.shares id = some f) (hcoh : Coherent s T G l)
    {compute : List NodeId → Labels → LabelM Labels}
    (hans : Answers s T G region f e (missingFrom region (l.labelsOf id)) l
      (exec (compute (missingFrom region (l.labelsOf id)) (l.labelsOf id)) l)) :
    Answers s T G region (.shared id f) e targets l (exec (do
      let known := (← get).labelsOf id
      let missing := region.filter fun n => !known.contains n
      if missing.isEmpty then return known
      else
        let fresh ← compute missing known
        let labels := known.update missing fresh
        remember id labels
        return labels) l) := by
  set old := l.labelsOf id with hold
  set missing := missingFrom region old with hmissing
  rw [exec_bind_ok (exec_get l)]
  show Answers s T G region (.shared id f) e targets l (exec (if missing.isEmpty then _ else _) l)
  by_cases hempty : missing = []
  · rw [if_pos (by rw [hempty]; rfl)]
    refine ⟨hcoh, .refl _ _ _ _, fun {labels} hlabels => ?_, (fun h => by cases h)⟩
    obtain rfl := Except.ok.inj hlabels
    refine hcoh.labelled_shared hT hregion hsub hshare fun n hn => ?_
    refine Option.ne_none_iff_exists'.1 fun hn' => ?_
    have hmem : n ∈ missing := mem_missingFrom.2 ⟨hn, hn'⟩
    rw [hempty] at hmem
    cases hmem
  · rw [if_neg (by simpa using hempty)]
    show Answers s T G region (.shared id f) e targets l (exec (compute missing old >>= _) l)
    rcases hrun : exec (compute missing old) l with ⟨r, l₁⟩
    rw [hrun] at hans
    have hext₁ : Extended T (insert id f.sharedIds) f.fixes l l₁ :=
      hans.extended.mono (Set.subset_insert _ _) subset_rfl
    cases r with
    | error cause =>
      rw [exec_bind_error hrun]
      exact ⟨hans.coherent, hext₁, (fun h => by cases h), fun h => hans.failed h⟩
    | ok fresh =>
      rw [exec_bind_ok hrun]
      obtain ⟨hfresh, heval⟩ := hans.labelled rfl
      -- a part does not share itself, so that its labels are still those from before
      have hsame : l₁.labelsOf id = old :=
        hans.extended.labels_other (hT.not_mem_sharedIds hshare)
      obtain ⟨hext, hcoh₂⟩ := coherent_remembered hT hshare hans.coherent
        (fun n hn => by rw [hsame]; exact mem_missingFrom.1 hn) hfresh heval
      rw [hsame] at hext hcoh₂
      show Answers s T G region (.shared id f) e targets l
        (.ok (old.update missing fresh), l₁.remembered id (old.update missing fresh))
      refine ⟨hcoh₂, hext₁.trans (hext.mono ?_ (Set.empty_subset _)), fun {labels} hlabels => ?_,
        (fun h => by cases h)⟩
      · exact Set.singleton_subset_iff.2 (Set.mem_insert _ _)
      · obtain rfl := Except.ok.inj hlabels
        have hnew := labelsOf_remembered l₁ id (old.update missing fresh) id
        rw [if_pos rfl] at hnew
        have hanswer := hcoh₂.labelled_shared (e := e) hT hregion hsub hshare fun n hn => by
          rw [hnew, Labels.getElem?_update]
          split
          · exact ⟨_, rfl⟩
          · rename_i ht
            exact Option.ne_none_iff_exists'.1 fun hn' => ht (mem_missingFrom.2 ⟨hn, hn'⟩)
        rw [hnew] at hanswer
        exact hanswer

end Cases

/-! ## Formulas -/

theorem ofKleene_const (value : Bool) :
    Valuation.ofKleene (if value then ⊤ else ⊥) = .ofBool value := by
  cases value <;> rfl

/-- The fixed points of shared parts are iterated only for states that have no label. -/
def Unsettled (T : Tables) (l : Labelling) (f : Formula) (targets : List NodeId) : Prop :=
  ∀ {share id kind name body}, T.shares share = some (.fix id kind name body) →
    id ∈ f.openFixes → f = .fix id kind name body ∧ ∀ n ∈ targets, (l.labelsOf share)[n]? = none

theorem Unsettled.of_inner {l₁ : Labelling} {f g : Formula} {targets region : List NodeId}
    (h : Unsettled T l f targets) (hsub : g.openFixes ⊆ f.openFixes)
    (hne : ∀ {id kind name body}, f = .fix id kind name body → id ∉ g.openFixes) :
    Unsettled T l₁ g region :=
  fun hshare hid => absurd hid (hne (h hshare (hsub hid)).1)

/-- The fixed points of a shared part are not settled where the part is missing. Another shared part
    that a fixed point is has fixed points of its own. -/
theorem unsettled_missing (hT : T.Lawful) {id : Nat} {f : Formula} (hshare : T.shares id = some f)
    (region : List NodeId) : Unsettled T l f (missingFrom region (l.labelsOf id)) := by
  intro share' id' kind name body hshare' hid
  by_cases hne : id = share'
  · subst hne
    obtain rfl := Option.some.inj (hshare.symm.trans hshare')
    exact ⟨rfl, fun n hn => (mem_missingFrom.1 hn).2⟩
  · exact absurd (Set.mem_insert id' _) (Set.disjoint_left.1 (hT.separate hshare hshare' hne) hid)

/-- Labelling computes the meaning and keeps the labelling coherent. -/
theorem answers_label (hT : T.Lawful) {region : List NodeId} (hregion : Region s G region)
    {f : Formula} (hagree : f.Agree T) (hregular : f.Regular) {bound : Set Nat}
    (hclosed : f.Closed bound) (hdis : Disjoint bound f.fixes) {env : TreeMap Nat Labels}
    {e : Nat → NodeId → Kleene} {targets : List NodeId} (htargets : targets.Sublist region)
    {known : Labels} (hcoh : Coherent s T G l) (henv : Bound s T region l bound env e)
    (hun : Unsettled T l f targets)
    (hknown : ∀ n ∈ region, n ∉ targets →
      known.valuation n = .ofKleene (f.meaning s.kripke e n) ∧
        Traced s T l (l.time + 1) f n (known.valuation n) ∧ ∀ a ∈ f.atoms, s.Evaluates a n) :
    Answers s T G region f e targets l (exec (label s region f env targets known) l) := by
  have hall {n : NodeId} (hn : n ∈ region) (hne : n ∉ region) {P : Prop} : P := absurd hn hne
  -- parts are labelled on the whole region, so that nothing has to be known about them
  induction f generalizing bound env e targets known l with
  | const value =>
    refine ⟨hcoh, .refl _ _ _ _, fun {labels} hlabels => ⟨fun n hn => ?_, (fun _ ha => by cases ha)⟩,
      (fun h => by cases h)⟩
    obtain rfl := Except.ok.inj hlabels
    rw [Labels.valuation_tabulate hn]
    exact ⟨(ofKleene_const value).symm, .const⟩
  | atom a =>
    exact answers_atom hregion (fun n hn => htargets.subset hn) hcoh
      fun n hn ht => (hknown n hn ht).2.2 a (List.mem_singleton_self a)
  | and f g ihf ihg | or f g ihf ihg =>
    have hdf : Disjoint bound f.fixes := hdis.mono_right Set.subset_union_left
    have hdg : Disjoint bound g.fixes := hdis.mono_right Set.subset_union_right
    refine answers_pair hT (fun n hn => htargets.subset hn) hagree.1 hregular.2.2 rfl rfl rfl
      (fun n => ?_) (by first | exact .and | exact .or)
      (ihf hagree.1 hregular.1 hclosed.1 hdf (List.Sublist.refl _) hcoh henv
        (hun.of_inner Set.subset_union_left (fun h => by cases h)) fun n hn hne => hall hn hne)
      fun hcoh₁ hext => ihg hagree.2 hregular.2.1 hclosed.2 hdg (List.Sublist.refl _) hcoh₁
        (henv.later hcoh.timed hext hdf) (hun.of_inner Set.subset_union_right (fun h => by cases h))
        fun n hn hne => hall hn hne
    first
    | rw [← Valuation.ofKleene_and, Kleene.and_eq_inf]
    | rw [← Valuation.ofKleene_or, Kleene.or_eq_sup]
    rfl
  | next paths f ih =>
    rw [label]
    exact answers_next hregion (fun n hn => htargets.subset hn)
      (ih hagree hregular hclosed hdis (List.Sublist.refl _) hcoh henv
        (hun.of_inner (g := f) subset_rfl (fun h => by cases h)) fun n hn hne => hall hn hne)
  | fix id kind name body ih =>
    obtain ⟨hbody, hagree⟩ := hagree
    obtain ⟨hregular, hid⟩ := hregular
    have hunsettled : ∀ n ∈ targets, ¬ Settled T l id n := by
      rintro n hn ⟨share, kind', name', f, label, hshare, hlabel⟩
      have hnone := (hun hshare (Set.mem_insert id _)).2 n hn
      rw [hlabel] at hnone
      cases hnone
    have hnoted : Extended T ∅ {id} l (l.noted id targets fun _ => ⟨kind.ground, []⟩) :=
      extended_noted hcoh.timed hunsettled
    have hbound : Bound s T region (l.noted id targets fun _ => ⟨kind.ground, []⟩) bound env e :=
      henv.later hcoh.timed hnoted
        (hdis.mono_right (Set.singleton_subset_iff.2 (Set.mem_insert _ _)))
    have happrox := approximates_firstOf hT name htargets hbody hcoh hunsettled
      fun n hn ht => ⟨(hknown n hn ht).1, (hknown n hn ht).2.1⟩
    rw [exec_label_fix]
    refine answers_fix hbody hnoted (iterates_iterate hT (fun n hn => htargets.subset hn) hbody hid
      hdis (fun hshare => ?_) (fun hc hb => ?_) hbound happrox (.start _ _ _)
      (Nat.lt_succ_of_le (sum_remaining_le kind _ targets)))
    · -- a shared part that is this fixed point does not occur in its body
      have hself := (hun hshare (Set.mem_insert id _)).1
      rw [← hself] at hshare
      exact (hT.not_mem_sharedIds hshare :)
    · refine ih hagree hregular hclosed ?_ (List.Sublist.refl _) hc hb (hun.of_inner ?_ ?_)
        fun n hn hne => hall hn hne
      · exact Set.disjoint_insert_left.2 ⟨hid, hdis.mono_right (Set.subset_insert _ _)⟩
      · exact Set.subset_insert _ _
      · rintro j _ _ _ ⟨⟩ hj
        exact hid (body.openFixes_subset hj)
  | var id name => exact answers_var hclosed (fun n hn => htargets.subset hn) hcoh henv
  | shared id f ih =>
    obtain ⟨hshare, hagree⟩ := hagree
    rw [label]
    exact answers_shared hT hregion (fun n hn => htargets.subset hn) hshare hcoh
      (ih hagree hregular hclosed (Set.empty_disjoint _) List.filter_sublist hcoh
        ⟨fun h => h.elim, fun h => h.elim, fun h => h.elim⟩ (unsettled_missing hT hshare region)
        fun n hn ht => hcoh.known_shared hT hregion hshare hn ht)

end RefineCheck.Labelling
