/-
  RefineCheck.Proofs.Labelling.Coherent

  Labellings that are right in some nodes: every label there is the three-valued meaning of
  its closed part, is traced, and comes from comparisons that have an outcome. Recording
  entries of a fixed point keeps this.
-/

import RefineCheck.Proofs.Labelling.Frame

namespace RefineCheck

open Formula (Tables)
open Std (TreeMap)

/-! ## Tables of labels -/

namespace Labels

theorem getElem?_foldl_insert (targets : List StateId) (label : StateId → Label) (labels : Labels)
    (n : NodeId) : (targets.foldl (fun labels id => labels.insert id (label id)) labels)[n]? =
      if n ∈ targets then some (label n) else labels[n]? := by
  induction targets generalizing labels with
  | nil => exact (if_neg List.not_mem_nil).symm
  | cons m rest ih =>
    rw [List.foldl_cons, ih, TreeMap.getElem?_insert]
    by_cases hm : m = n
    · subst hm
      simp
    · have hmem : n ∈ m :: rest ↔ n ∈ rest := by simp [Ne.symm hm]
      simp only [Std.LawfulEqCmp.compare_eq_iff_eq, hm, hmem, if_false]

theorem getElem?_tabulate (targets : List StateId) (label : StateId → Label) (n : NodeId) :
    (tabulate targets label)[n]? = if n ∈ targets then some (label n) else none :=
  (getElem?_foldl_insert targets label {} n).trans (by simp)

theorem valuation_tabulate {targets : List StateId} {label : StateId → Label} {n : NodeId}
    (hn : n ∈ targets) : (tabulate targets label).valuation n = (label n).valuation := by
  rw [valuation, getElem?_tabulate, if_pos hn]

theorem getElem?_update (labels : Labels) (targets : List StateId) (other : Labels) (n : NodeId) :
    (labels.update targets other)[n]? =
      if n ∈ targets then some ((other[n]?).getD ⟨.ff, []⟩) else labels[n]? :=
  getElem?_foldl_insert targets (fun id => (other[id]?).getD ⟨.ff, []⟩) labels n

theorem valuation_getD (labels : Labels) (n : NodeId) :
    ((labels[n]?).getD ⟨.ff, []⟩).valuation = labels.valuation n := by
  rw [valuation]
  cases labels[n]? <;> rfl

theorem valuation_update (labels : Labels) (targets : List StateId) (other : Labels) (n : NodeId) :
    (labels.update targets other).valuation n =
      if n ∈ targets then other.valuation n else labels.valuation n := by
  by_cases hn : n ∈ targets
  · rw [if_pos hn, valuation, getElem?_update, if_pos hn]
    exact valuation_getD other n
  · rw [if_neg hn, valuation, getElem?_update, if_neg hn]
    rfl

end Labels

namespace Labelling

/-! ## Runs -/

/-- The outcome of a computation and the labelling it leaves. -/
def exec {α : Type} (m : LabelM α) (l : Labelling) : Except CheckError α × Labelling := m.run.run l

theorem exec_pure {α : Type} (a : α) (l : Labelling) : exec (pure a) l = (.ok a, l) := rfl

theorem exec_bind {α β : Type} (m : LabelM α) (k : α → LabelM β) (l : Labelling) :
    exec (m >>= k) l =
      match exec m l with
      | (.ok a, l') => exec (k a) l'
      | (.error e, l') => (.error e, l') := by
  show (ExceptT.bind m k).run.run l = _
  simp only [ExceptT.bind, ExceptT.run, ExceptT.mk, bind, StateT.bind, StateT.run, exec]
  rcases m l with ⟨e | a, l'⟩ <;> rfl

theorem exec_bind_ok {α β : Type} {m : LabelM α} {k : α → LabelM β} {l l' : Labelling} {a : α}
    (h : exec m l = (.ok a, l')) : exec (m >>= k) l = exec (k a) l' := by
  rw [exec_bind, h]

theorem exec_bind_error {α β : Type} {m : LabelM α} {k : α → LabelM β} {l l' : Labelling}
    {e : CheckError} (h : exec m l = (.error e, l')) : exec (m >>= k) l = (.error e, l') := by
  rw [exec_bind, h]

theorem exec_get (l : Labelling) : exec get l = (.ok l, l) := rfl

/-! ## Recording -/

/-- The labelling with new entries for some states, at the next time. -/
def noted (l : Labelling) (id : Nat) (targets : List StateId) (label : StateId → Label) :
    Labelling :=
  { l with
    time := l.time + 1
    histories := l.histories.insert id
      ((l.history id).recordAll (l.time + 1) (targets.map fun n => (n, label n))) }

section Noted

variable {l : Labelling} {id : Nat} {targets : List StateId} {label : StateId → Label}

theorem history_noted_self :
    (l.noted id targets label).history id =
      (l.history id).recordAll (l.time + 1) (targets.map fun n => (n, label n)) :=
  TreeMap.getD_insert_self

theorem history_noted_other {j : Nat} (hj : j ≠ id) :
    (l.noted id targets label).history j = l.history j := by
  rw [history, noted, TreeMap.getD_insert,
    if_neg fun h => hj (Std.LawfulEqCmp.compare_eq_iff_eq.1 h).symm]
  rfl

theorem entries_noted (ht : Timed l) (n : NodeId) :
    ((l.noted id targets label).history id).entries n =
      if n ∈ targets then (l.history id).entries n ++ [⟨l.time + 1, label n⟩]
      else (l.history id).entries n := by
  rw [history_noted_self, History.entries_recordAll (ht id)]

theorem timed_noted (ht : Timed l) : Timed (l.noted id targets label) := by
  intro j
  by_cases hj : j = id
  · subst hj
    rw [history_noted_self]
    exact History.older_recordAll (ht j) targets label
  · rw [history_noted_other hj]
    exact fun n e he => Nat.lt_succ_of_lt (ht j n e he)

theorem extended_noted (ht : Timed l) {T : Tables} (hsettled : ∀ n ∈ targets, ¬ Settled T l id n) :
    Extended T ∅ {id} l (l.noted id targets label) := by
  have hother {j : Nat} {n : NodeId} (h : j ≠ id ∨ n ∉ targets) :
      SameEntries l (l.noted id targets label) j n := by
    by_cases hj : j = id
    · subst hj
      rw [SameEntries, entries_noted ht, if_neg (h.resolve_left fun hne => hne rfl)]
    · rw [SameEntries, history_noted_other hj]
  refine ⟨⟨rfl, rfl, rfl, Nat.le_succ _, fun h => h, fun {bound j n} hb => ?_⟩, fun _ => rfl,
    fun hj => hother (.inl hj), fun {j n} hs => ?_⟩
  · by_cases hj : j = id
    · subst hj
      rw [history_noted_self, History.before?_recordAll (ht j) targets label hb]
    · rw [history_noted_other hj]
  · by_cases hj : j = id
    · subst hj
      exact hother (.inr fun hn => hsettled n hn hs)
    · exact hother (.inl hj)

/-- The recorded states have their label from what was traced when it was recorded. -/
theorem recorded_noted (ht : Timed l) {s : Space} {T : Tables} {f : Formula} {n : NodeId}
    (hn : n ∈ targets) (hbody : T.bodies id = some f) (hl : Later l (l.noted id targets label))
    (htraced : (label n).valuation = .unknown → Traced s T l (l.time + 1) f n .unknown) :
    Recorded s T (l.noted id targets label) id n (label n).valuation := by
  refine ⟨⟨l.time + 1, label n⟩, ?_, rfl, fun hb hu => ?_⟩
  · rw [entries_noted ht, if_pos hn, List.getLast?_append]
    rfl
  · obtain rfl := Option.some.inj (hbody.symm.trans hb)
    exact (htraced hu).past hl le_rfl

end Noted

/-! ## Right labels -/

/-- What a label of a shared part must say. -/
structure Right (s : Space) (T : Tables) (l : Labelling) (id : Nat) (f : Formula) (n : NodeId)
    (v : Valuation) : Prop where
  meaning_eq : v = .ofKleene (f.meaning s.kripke (fun _ _ => ⊥) n)
  traced : Traced s T l (l.time + 1) (.shared id f) n v
  evaluates : ∀ a ∈ f.atoms, s.Evaluates a n

/-- Every label in some nodes is right. -/
structure Coherent (s : Space) (T : Tables) (G : Set NodeId) (l : Labelling) : Prop where
  timed : Timed l
  right {id : Nat} {f : Formula} {n : NodeId} {label : Label} : T.shares id = some f → n ∈ G →
    (l.labelsOf id)[n]? = some label → Right s T l id f n label.valuation

variable {s : Space} {T : Tables} {G : Set NodeId} {l l' : Labelling}

theorem Right.later {id : Nat} {f : Formula} {n : NodeId} {v : Valuation}
    (h : Right s T l id f n v) (hT : T.Lawful) (hshare : T.shares id = some f) (ht : Timed l)
    (ht' : Timed l') (hl : Later l l')
    (hsettled : ∀ {id n}, Settled T l id n → SameEntries l l' id n) : Right s T l' id f n v :=
  { h with
    traced := h.traced.later hT ht ht' hl hsettled ⟨hshare, hT.agree hshare⟩ fun _ hj => hj.elim }

theorem Coherent.mono {G' : Set NodeId} (h : Coherent s T G l) (hG : G' ⊆ G) : Coherent s T G' l where
  timed := h.timed
  right hshare hn hlabel := h.right hshare (hG hn) hlabel

theorem Coherent.noted (h : Coherent s T G l) (hT : T.Lawful) {id : Nat} {targets : List StateId}
    {label : StateId → Label} (he : Extended T ∅ {id} l (l.noted id targets label)) :
    Coherent s T G (l.noted id targets label) where
  timed := timed_noted h.timed
  right hshare hn hlabel :=
    (h.right hshare hn hlabel).later hT hshare h.timed (timed_noted h.timed) he.toLater he.settled

/-! ## Values of variables -/

/-- The environment has the values of the variables, and their histories end with them. -/
structure Bound (s : Space) (T : Tables) (region : List NodeId) (l : Labelling) (bound : Set Nat)
    (env : TreeMap Nat Labels) (e : Nat → NodeId → Kleene) : Prop where
  body {id : Nat} : id ∈ bound → ∃ f, T.bodies id = some f
  value {id : Nat} {n : NodeId} : id ∈ bound → n ∈ region →
    (env.getD id {}).valuation n = .ofKleene (e id n)
  recorded {id : Nat} {n : NodeId} : id ∈ bound → n ∈ region →
    Recorded s T l id n ((env.getD id {}).valuation n)

theorem Bound.later {region : List NodeId} {bound shares fixes : Set Nat} {env : TreeMap Nat Labels}
    {e : Nat → NodeId → Kleene} (h : Bound s T region l bound env e) (ht : Timed l)
    (he : Extended T shares fixes l l') (hdis : Disjoint bound fixes) :
    Bound s T region l' bound env e :=
  { h with
    recorded := fun hid hn => (h.recorded hid hn).later ht he.toLater
      (he.untouched (Set.disjoint_left.1 hdis hid)) }

end Labelling

end RefineCheck
