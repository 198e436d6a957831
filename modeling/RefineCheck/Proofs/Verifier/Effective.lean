/-
  RefineCheck.Proofs.Verifier.Effective

  What a precision tells apart at a state, whichever node the state has. Marks of states that were
  removed still count for equal states that are stored later, so a precision that gives a node a
  more precise mark tells more apart at this state and no less at any other. The bits that are not
  told apart are finitely many, which bounds the number of such marks.
-/

import Mathlib
import RefineCheck.Proofs.Mark.Bounds
import RefineCheck.Proofs.State.Finite
import RefineCheck.Proofs.Verifier.Grounded

namespace RefineCheck.Precision

variable {M : Type} [Refinable M] {L : Marks M} {t : Shape} {q q' : Precision M} {s : Space}
  {n : NodeId} {st : State} {m old : M} {σ : Option State}

/-! ## Marks of states -/

/-- The bits that a precision tells apart at a state, or at the root. -/
def effective (L : Marks M) (q : Precision M) : Option State → Set (Nat × Nat × Nat)
  | none => L.marked (q.own root)
  | some st => {x | x ∈ L.marked q.default ∨
      ∃ (k : NodeId) (e : Entry M), q.entries[k]? = some e ∧ e.Covers st ∧ x ∈ L.marked e.mark}

/-- A precision whose entries mark at least what its default does and have the states of their
    nodes. -/
structure Based (L : Marks M) (q : Precision M) : Prop where
  default_subset {k : NodeId} {e : Entry M} : q.entries[k]? = some e →
    L.marked q.default ⊆ L.marked e.mark
  has_state {k : NodeId} {e : Entry M} : q.entries[k]? = some e → k ≠ root →
    ∃ st, e.state = some st

theorem based_of_entries (h : q.entries = {}) : q.Based L where
  default_subset he := by simp [h] at he
  has_state he := by simp [h] at he

/-- A precision for the nodes of a space. -/
structure BelongsTo (L : Marks M) (t : Shape) (s : Space) (q : Precision M) : Prop
    extends Shaped L t q, Based L q where
  recorded : q.Recorded s
  valid : s.Valid
  fits {n : NodeId} {st : State} : s.states[n]? = some st → st.Fits t

/-- An entry of a stored node covers the state of the node. -/
theorem BelongsTo.covers (hq : q.BelongsTo L t s) {e : Entry M} (he : q.entries[n]? = some e)
    (hst : s.states[n]? = some st) : e.Covers st := by
  obtain ⟨covering, hcovering⟩ := hq.has_state he (hq.valid.stored hst).1
  obtain rfl := (hq.recorded n e covering he hcovering).2.2 st hst
  exact ⟨st, hcovering, State.contains_self (hq.fits hst)⟩

/-- Wherever there is a mark of a node, it is that of the root or of a stored state. -/
theorem get_cases (h : q.get s n = .ok m) : n = root ∨ n ≠ root ∧ ∃ st, s.states[n]? = some st := by
  by_cases hroot : n = root
  · exact .inl hroot
  refine .inr ⟨hroot, ?_⟩
  cases hst : s.states[n]? with
  | some st => exact ⟨st, rfl⟩
  | none =>
    rw [get, if_neg hroot, Space.state, hst] at h
    cases h

/-- The mark of a node tells apart what is told apart at its state. -/
theorem BelongsTo.marked_of_get (hq : q.BelongsTo L t s) (h : q.get s n = .ok m) :
    L.marked m = q.effective L s.states[n]? := by
  rcases get_cases h with rfl | ⟨hroot, st, hst⟩
  · obtain rfl := Except.ok.inj h
    rw [hq.valid.states_root]
    rfl
  obtain ⟨m', hm', -, hmarked⟩ := get_ok hq.toShaped hroot hst (hq.fits hst)
  obtain rfl := Except.ok.inj (h.symm.trans hm')
  rw [hst]
  ext x
  refine (hmarked x).trans ?_
  constructor
  · rintro (hown | ⟨k, e, he, -, hcovers, hx⟩)
    · -- the node's own mark is the default, or that of an entry that covers the node
      rw [own] at hown
      cases he : q.entries[n]? with
      | none =>
        rw [he] at hown
        exact .inl hown
      | some e =>
        rw [he] at hown
        exact .inr ⟨n, e, he, hq.covers he hst, hown⟩
    · exact .inr ⟨k, e, he, hcovers, hx⟩
  · rintro (hdefault | ⟨k, e, he, hcovers, hx⟩)
    · left
      rw [own]
      cases he : q.entries[n]? with
      | none => exact hdefault
      | some e => exact hq.default_subset he hdefault
    · by_cases hk : k = n
      · subst hk
        left
        rw [own, he]
        exact hx
      · exact .inr ⟨k, e, he, hk, hcovers, hx⟩

/-- A node has a mark, which tells apart what is told apart at its state. -/
theorem BelongsTo.exists_get (hq : q.BelongsTo L t s) (hn : n = root ∨ s.contains n = true) :
    ∃ m, q.get s n = .ok m ∧ L.marked m = q.effective L s.states[n]? := by
  have hget : ∃ m, q.get s n = .ok m := by
    by_cases hroot : n = root
    · subst hroot
      exact ⟨_, q.get_root s⟩
    · obtain ⟨st, hst⟩ := Space.contains_iff.1 (hn.resolve_left hroot)
      obtain ⟨m, hm, -⟩ := get_ok hq.toShaped hroot hst (hq.fits hst)
      exact ⟨m, hm⟩
  obtain ⟨m, hm⟩ := hget
  exact ⟨m, hm, hq.marked_of_get hm⟩

/-- The width of single values, which the text of a state leaves out, makes no difference. -/
theorem effective_plain (q : Precision M) (σ : Option State) :
    q.effective L (σ.map State.plain) = q.effective L σ := by
  cases σ with
  | none => rfl
  | some st =>
    have hcovers (e : Entry M) : e.Covers st.plain ↔ e.Covers st := by
      simp only [Entry.Covers, State.contains_plain]
    simp only [Option.map_some, effective, hcovers]

/-- What the default marks is told apart everywhere. -/
theorem Based.default_subset_effective (hb : q.Based L) (σ : Option State) :
    L.marked q.default ⊆ q.effective L σ := by
  cases σ with
  | some st => exact fun _ hx => .inl hx
  | none =>
    show L.marked q.default ⊆ L.marked (q.own root)
    rw [own]
    cases he : q.entries[root]? with
    | none => exact subset_rfl
    | some e => exact hb.default_subset he

/-! ## More precise marks -/

/-- The entry that a node already has marks no more than the mark of the node. -/
theorem BelongsTo.marked_subset_of_entry (hq : q.BelongsTo L t s) {e : Entry M}
    (he : q.entries[n]? = some e) (h : q.get s n = .ok m) : L.marked e.mark ⊆ L.marked m := by
  rw [hq.marked_of_get h]
  rcases get_cases h with rfl | ⟨-, st, hst⟩
  · rw [hq.valid.states_root]
    show L.marked e.mark ⊆ L.marked (q.own root)
    rw [own, he]
    exact subset_rfl
  · rw [hst]
    exact fun x hx => .inr ⟨n, e, he, hq.covers he hst, hx⟩

/-- A mark that a node is given is told apart at its state. -/
theorem BelongsTo.marked_subset_insert (hq : q.BelongsTo L t s) (h : q.insert s n m = .ok q') :
    L.marked m ⊆ q'.effective L s.states[n]? := by
  by_cases hroot : n = root
  · subst hroot
    obtain rfl := Except.ok.inj h
    rw [hq.valid.states_root]
    show L.marked m ⊆ L.marked ((q.withEntry root ⟨m, none⟩).own root)
    rw [own, entries_withEntry, if_pos rfl]
    exact subset_rfl
  · cases hst : s.states[n]? with
    | none =>
      rw [insert, if_neg hroot, Space.state, hst] at h
      cases h
    | some st =>
      rw [insert_of_state hroot hst] at h
      obtain rfl := Except.ok.inj h
      intro x hx
      refine .inr ⟨n, ⟨m, some st⟩, ?_, ⟨st, rfl, State.contains_self (hq.fits hst)⟩, hx⟩
      rw [entries_withEntry, if_pos rfl]

/-- A more precise mark of one node tells no less apart anywhere. -/
theorem BelongsTo.effective_subset_insert (hq : q.BelongsTo L t s) (hold : q.get s n = .ok old)
    (hgrows : L.marked old ⊆ L.marked m) (h : q.insert s n m = .ok q') (σ : Option State) :
    q.effective L σ ⊆ q'.effective L σ := by
  cases σ with
  | none =>
    by_cases hroot : n = root
    · -- the mark of the root is replaced by one that comes from it
      subst hroot
      have hmarked := hq.marked_of_get hold
      have hinsert := hq.marked_subset_insert h
      rw [hq.valid.states_root] at hmarked hinsert
      exact hmarked ▸ hgrows.trans hinsert
    · show L.marked (q.own root) ⊆ L.marked (q'.own root)
      rw [own_insert h (Ne.symm hroot)]
  | some st =>
    obtain ⟨state, rfl, -⟩ := insert_eq_ok h
    rintro x (hx | ⟨k, e, he, hcovers, hx⟩)
    · exact .inl hx
    · by_cases hk : k = n
      · subst hk
        obtain ⟨covering, hcovering, hcontains⟩ := hcovers
        obtain ⟨hroot, -, hsame⟩ := hq.recorded k e covering he hcovering
        rcases get_cases hold with hroot' | ⟨-, st', hst'⟩
        · exact absurd hroot' hroot
        obtain rfl := hsame st' hst'
        rw [insert_of_state hroot hst'] at h
        refine .inr ⟨k, ⟨m, some st'⟩, ?_, ⟨st', rfl, hcontains⟩,
          hgrows (hq.marked_subset_of_entry he hold hx)⟩
        rw [← Except.ok.inj h, entries_withEntry, if_pos rfl]
      · refine .inr ⟨k, e, ?_, hcovers, hx⟩
        rw [entries_withEntry, if_neg hk]
        exact he

theorem BelongsTo.based_insert (hq : q.BelongsTo L t s) (hold : q.get s n = .ok old)
    (hgrows : L.marked old ⊆ L.marked m) (h : q.insert s n m = .ok q') : q'.Based L := by
  have hdefault : L.marked q.default ⊆ L.marked m := by
    refine (hq.toBased.default_subset_effective s.states[n]?).trans ?_
    rw [← hq.marked_of_get hold]
    exact hgrows
  constructor
  · intro k e he
    obtain ⟨state, rfl, -⟩ := insert_eq_ok h
    rw [entries_withEntry] at he
    split at he
    · obtain rfl := Option.some.inj he
      exact hdefault
    · exact hq.default_subset he
  · intro k e he hroot
    by_cases hk : k = n
    · subst hk
      rcases get_cases hold with hroot' | ⟨-, st, hst⟩
      · exact absurd hroot' hroot
      rw [insert_of_state hroot hst] at h
      obtain rfl := Except.ok.inj h
      rw [entries_withEntry, if_pos rfl] at he
      exact ⟨st, (Option.some.inj he) ▸ rfl⟩
    · obtain ⟨state, rfl, -⟩ := insert_eq_ok h
      rw [entries_withEntry, if_neg hk] at he
      exact hq.has_state he hroot

/-! ## Bits that are not told apart -/

/-- The root and the states of a shape, up to the width of single values. -/
def places (t : Shape) : Set (Option State) := {none} ∪ some '' (State.plain '' {st | st.Fits t})

theorem finite_places (t : Shape) : (places t).Finite :=
  (Set.finite_singleton none).union ((State.finite_plain t).image some)

theorem BelongsTo.place_mem (hq : q.BelongsTo L t s) (n : NodeId) :
    (s.states[n]?).map State.plain ∈ places t := by
  cases hst : s.states[n]? with
  | none => exact .inl rfl
  | some st => exact .inr ⟨st.plain, ⟨st, hq.fits hst, rfl⟩, rfl⟩

/-- The bits at all places. -/
def cells (t : Shape) (P : Set (Nat × Nat × Nat)) : Set (Option State × Nat × Nat × Nat) :=
  places t ×ˢ P

theorem finite_cells {P : Set (Nat × Nat × Nat)} (t : Shape) (hP : P.Finite) : (cells t P).Finite :=
  (finite_places t).prod hP

/-- How many bits a precision does not tell apart. -/
noncomputable def gap (L : Marks M) (t : Shape) (P : Set (Nat × Nat × Nat)) (q : Precision M) : Nat :=
  (cells t P \ {y | y.2 ∈ q.effective L y.1}).ncard

variable {P : Set (Nat × Nat × Nat)}

theorem gap_le (hP : P.Finite) (q : Precision M) : q.gap L t P ≤ (cells t P).ncard :=
  Set.ncard_le_ncard Set.sdiff_subset (finite_cells t hP)

theorem gap_mono (hP : P.Finite) (h : ∀ σ, q.effective L σ ⊆ q'.effective L σ) :
    q'.gap L t P ≤ q.gap L t P :=
  Set.ncard_le_ncard (Set.sdiff_subset_sdiff_right fun y hy => h y.1 hy) (finite_cells t hP).sdiff

/-- What a more precise mark of one node does to a precision. -/
structure Sharpened (L : Marks M) (t : Shape) (P : Set (Nat × Nat × Nat)) (σ : Option State)
    (q q' : Precision M) : Prop where
  based : q'.Based L
  subset (σ : Option State) : q.effective L σ ⊆ q'.effective L σ
  strict : q.effective L σ ⊂ q'.effective L σ
  gap_lt : q'.gap L t P < q.gap L t P

/-- A more precise mark of one node tells more apart at its state, and leaves fewer bits that are not
    told apart. -/
theorem BelongsTo.sharpened (hq : q.BelongsTo L t s) (hP : P.Finite)
    (hold : q.get s n = .ok old) (hgrows : L.marked old ⊂ L.marked m) (hmarked : L.marked m ⊆ P)
    (h : q.insert s n m = .ok q') : Sharpened L t P s.states[n]? q q' := by
  have hsub := hq.effective_subset_insert hold hgrows.subset h
  obtain ⟨x, hx, hnot⟩ := Set.exists_of_ssubset hgrows
  have hnew : x ∈ q'.effective L s.states[n]? := hq.marked_subset_insert h hx
  rw [hq.marked_of_get hold] at hnot
  refine ⟨hq.based_insert hold hgrows.subset h, hsub, ⟨hsub _, fun hle => hnot (hle hnew)⟩, ?_⟩
  rw [← effective_plain] at hnew hnot
  refine Set.ncard_lt_ncard ⟨?_, fun hle => ?_⟩ (finite_cells t hP).sdiff
  · exact Set.sdiff_subset_sdiff_right fun y hy => hsub y.1 hy
  · -- the bit that is new at the place of the node is told apart by the new precision only
    have hcell : ((s.states[n]?).map State.plain, x) ∈ cells t P := ⟨hq.place_mem n, hmarked hx⟩
    exact (hle ⟨hcell, hnot⟩).2 hnew

end RefineCheck.Precision
