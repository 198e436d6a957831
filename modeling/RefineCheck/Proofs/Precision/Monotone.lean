/-
  RefineCheck.Proofs.Precision.Monotone

  Precision is monotone in coverage and in time. What an entry marks, and how important it is, counts
  for every state that the state of the entry covers, stored now or later, and a refinement takes
  nothing back. Bits and importance are compared as one set: the levels of importance that a part
  reaches are taken for further bits of it.
-/

import Mathlib
import RefineCheck.Proofs.Checker.Incremental
import RefineCheck.Proofs.Mark.Importance
import RefineCheck.Proofs.State.Coverage
import RefineCheck.Proofs.Verifier.Effective
import RefineCheck.Proofs.Verifier.Soundness

namespace RefineCheck

open Relation (ReflTransGen)

/-! ## Graded marks -/

/-- What the marks of one shape have in common, the importance of their parts included. A part is a
    field, or an element of a field. -/
structure GradedMarks (M : Type) [Refinable M] extends Marks M where
  importance : M → Nat → Nat
  importanceAt : M → Nat × Nat → Nat
  importance_le_iff {m : M} {k b : Nat} : Fits m →
    (importance m k ≤ b ↔ ∀ i, importanceAt m (k, i) ≤ b)
  importanceAt_join {m n r : M} : Fits m → Fits n → Refinable.join m n = .ok r →
    ∀ x, importanceAt r x = max (importanceAt m x) (importanceAt n x)
  importanceAt_refine? {m offer r : M} : Fits m → Fits offer →
    Refinable.refine? m offer = .ok (some r) → ∀ x, importanceAt m x ≤ importanceAt r x

/-- The marks of inputs of one shape with their importance. -/
def RecordMark.graded (t : Shape) : GradedMarks RecordMark where
  toMarks := marks t
  importance m := FieldMark.measure FieldMark.importance m.fields
  importanceAt := importanceAt
  importance_le_iff hm := FieldMark.measure_le_iff hm.fields.wellFormed
  importanceAt_join := importanceAt_join
  importanceAt_refine? := importanceAt_refine?

/-- The panic code comes before the fields. -/
def StateMark.graded (t : Shape) : GradedMarks StateMark where
  toMarks := marks t
  importance m := FieldMark.measure FieldMark.importance m.parts
  importanceAt := importanceAt
  importance_le_iff hm := FieldMark.measure_le_iff hm.wellFormed_parts
  importanceAt_join := importanceAt_join
  importanceAt_refine? := importanceAt_refine?

namespace GradedMarks

variable {M : Type} [Refinable M] {G : GradedMarks M} {m n : M}

/-- Whether a mark marks no more than another one and no part of it is more important. -/
structure Within (G : GradedMarks M) (m n : M) : Prop where
  marked : G.marked m ⊆ G.marked n
  importance (k : Nat) : G.importance m k ≤ G.importance n k
  importanceAt (x : Nat × Nat) : G.importanceAt m x ≤ G.importanceAt n x

/-- The marked bits at the even positions, and the levels below the importance at the odd ones. -/
def ranked (G : GradedMarks M) (m : M) : Set (Nat × Nat × Nat) :=
  {x | if x.2.2 % 2 = 0 then (x.1, x.2.1, x.2.2 / 2) ∈ G.marked m
    else x.2.2 / 2 < G.importanceAt m (x.1, x.2.1)}

theorem mem_ranked_even {k i b : Nat} : (k, i, 2 * b) ∈ G.ranked m ↔ (k, i, b) ∈ G.marked m := by
  simp [ranked]

theorem mem_ranked_odd {k i b : Nat} :
    (k, i, 2 * b + 1) ∈ G.ranked m ↔ b < G.importanceAt m (k, i) := by
  have hodd : (2 * b + 1) % 2 ≠ 0 := by omega
  have hhalf : (2 * b + 1) / 2 = b := by omega
  rw [ranked, Set.mem_ofPred_eq, if_neg hodd, hhalf]

/-- Comparing the ranks compares bits and importance. -/
theorem ranked_subset_iff (hm : G.Fits m) (hn : G.Fits n) :
    G.ranked m ⊆ G.ranked n ↔ G.Within m n := by
  constructor
  · intro h
    have hparts (x : Nat × Nat) : G.importanceAt m x ≤ G.importanceAt n x := by
      -- otherwise the importance of the second mark is a level that only the first one reaches
      by_contra hlt
      exact lt_irrefl _ (mem_ranked_odd.1 (h (mem_ranked_odd.2 (not_le.1 hlt))))
    refine ⟨fun ⟨k, i, b⟩ hx => mem_ranked_even.1 (h (mem_ranked_even.2 hx)), fun k => ?_, hparts⟩
    exact (G.importance_le_iff hm).2 fun i =>
      (hparts (k, i)).trans ((G.importance_le_iff hn).1 le_rfl i)
  · rintro ⟨hmarked, -, hparts⟩ ⟨k, i, c⟩ hx
    rcases Nat.even_or_odd' c with ⟨b, rfl | rfl⟩
    · exact mem_ranked_even.2 (hmarked (mem_ranked_even.1 hx))
    · exact mem_ranked_odd.2 ((mem_ranked_odd.1 hx).trans_le (hparts (k, i)))

/-- The ranks of marks grow as the marked bits do. -/
def ranks (G : GradedMarks M) : Marks M where
  Fits := G.Fits
  marked := G.ranked
  join_ok := by
    intro m n hm hn
    obtain ⟨r, hr, hfits, hmarked⟩ := G.join_ok hm hn
    refine ⟨r, hr, hfits, Set.ext fun ⟨k, i, c⟩ => ?_⟩
    rw [Set.mem_union]
    rcases Nat.even_or_odd' c with ⟨b, rfl | rfl⟩
    · rw [mem_ranked_even, mem_ranked_even, mem_ranked_even, hmarked, Set.mem_union]
    · rw [mem_ranked_odd, mem_ranked_odd, mem_ranked_odd, G.importanceAt_join hm hn hr, lt_max_iff]
  refine?_eq_some := G.refine?_eq_some
  refine?_ok := by
    intro m offer hm ho
    obtain ⟨o, hrefined, hgrows⟩ := G.refine?_ok hm ho
    refine ⟨o, hrefined, fun r hr => ⟨?_, fun hsub => (hgrows r hr).2 fun ⟨k, i, b⟩ hx => ?_⟩⟩
    · rintro ⟨k, i, c⟩ hx
      rcases Nat.even_or_odd' c with ⟨b, rfl | rfl⟩
      · exact mem_ranked_even.2 ((hgrows r hr).1 (mem_ranked_even.1 hx))
      · refine mem_ranked_odd.2 ((mem_ranked_odd.1 hx).trans_le ?_)
        exact G.importanceAt_refine? hm ho (hr ▸ hrefined) (k, i)
    · exact mem_ranked_even.1 (hsub (mem_ranked_even.2 hx))

end GradedMarks

namespace Precision

variable {M : Type} [Refinable M] {L : Marks M} {G : GradedMarks M} {t : Shape}
  {q q' : Precision M} {s s' : Space} {n : NodeId} {st st' : State} {old m offer : M}

/-! ## Spaces that change -/

/-- Marks of nodes stay with them, and with their states if these are removed. -/
theorem BelongsTo.evolves (hq : q.BelongsTo L t s) (h : s.Evolves s') {Good : State → Prop}
    (hs' : s'.Built Good) (hfits : ∀ {st : State}, Good st → st.Fits t) : q.BelongsTo L t s' := by
  refine ⟨hq.toShaped, hq.toBased, hq.recorded.mono h.nextId_le fun {k st} hst => ?_, hs'.valid,
    fun hst => hfits (hs'.good hst)⟩
  -- numbers are not given twice, so an entry never speaks for a state that was stored later
  by_cases hk : k < s.nextId
  · exact .inl (h.states_old hk hst)
  · exact .inr (not_lt.1 hk)

/-! ## Coverage -/

/-- What is told apart at a state is told apart at all states that it covers. -/
theorem Shaped.effective_of_contains (hq : q.Shaped L t) (hst : st.Fits t) (hst' : st'.Fits t)
    (h : st.contains st' = .ok true) : q.effective L (some st) ⊆ q.effective L (some st') := by
  rintro x (hx | ⟨k, e, he, ⟨covering, hcovering, hcovers⟩, hx⟩)
  · exact .inl hx
  · have hfits := hq.state_fits he hcovering
    exact .inr ⟨k, e, he, ⟨covering, hcovering, State.contains_trans hfits hst hst' hcovers h⟩, hx⟩

/-! ## Refinement -/

theorem refine?_eq_some (h : q.refine? s n offer = .ok (some q')) : ∃ old m,
    q.get s n = .ok old ∧ Refinable.refine? old offer = .ok (some m) ∧ q.insert s n m = .ok q' := by
  simp only [refine?, bind_eq_ok] at h
  obtain ⟨old, hold, o, ho, h⟩ := h
  cases o with
  | none => cases h
  | some m =>
    simp only [bind_eq_ok, pure_eq_ok, Option.some.injEq] at h
    obtain ⟨q'', hinsert, rfl⟩ := h
    exact ⟨old, m, hold, ho, hinsert⟩

/-- Every node can be refined by an offer of the right shape. -/
theorem BelongsTo.refine?_ok (hq : q.BelongsTo L t s) (hn : n = root ∨ s.contains n = true)
    (ho : L.Fits offer) : ∃ o, q.refine? s n offer = .ok o := by
  obtain ⟨old, hold, -⟩ := hq.exists_get hn
  obtain ⟨o, hrefined, -⟩ := L.refine?_ok (hq.uniform.fits_of_get hold) ho
  rw [refine?, hold, ok_bind, hrefined, ok_bind]
  cases o with
  | none => exact ⟨none, rfl⟩
  | some m =>
    obtain ⟨q', hq'⟩ := insert_ok q hn m
    refine ⟨some q', ?_⟩
    show (q.insert s n m >>= _) = _
    rw [hq']
    rfl

/-- A refined mark of one node tells no less apart at any state, and builds on the default. -/
theorem BelongsTo.refined (hq : q.BelongsTo L t s) (hold : q.get s n = .ok old)
    (ho : L.Fits offer) (hrefined : Refinable.refine? old offer = .ok (some m))
    (h : q.insert s n m = .ok q') :
    q'.BelongsTo L t s ∧ ∀ σ, q.effective L σ ⊆ q'.effective L σ := by
  obtain ⟨o, ho', hgrows⟩ := L.refine?_ok (hq.uniform.fits_of_get hold) ho
  obtain rfl := Except.ok.inj (ho'.symm.trans hrefined)
  have hsub := (hgrows m rfl).subset
  exact ⟨⟨hq.insert_refined hq.fits hold hrefined h, hq.based_insert hold hsub h,
    hq.recorded.insert hq.valid h, hq.valid, hq.fits⟩, hq.effective_subset_insert hold hsub h⟩

/-! ## Runs -/

/-- One use of a precision for a space: the space changes, or the mark of a node is refined, which an
    offer that asks for nothing new leaves as it is. -/
inductive Uses (G : GradedMarks M) (t : Shape) : Space × Precision M → Space × Precision M → Prop
  | space {s s' : Space} {q : Precision M} :
    Space.Mutates (State.Fits t) s s' → Uses G t (s, q) (s', q)
  | refine {s : Space} {q : Precision M} {n : NodeId} {offer : M} {o : Option (Precision M)} :
    G.Fits offer → q.refine? s n offer = .ok o → Uses G t (s, q) (s, o.getD q)

variable {u u' : Space × Precision M}

/-- A use of a precision keeps it for the nodes of the space, and tells no less apart. -/
theorem Uses.belongsTo (h : Uses G t u u') (hs : u.1.Built (State.Fits t))
    (hu : u.2.BelongsTo G.ranks t u.1) : u'.1.Built (State.Fits t) ∧
      u'.2.BelongsTo G.ranks t u'.1 ∧ ∀ σ, u.2.effective G.ranks σ ⊆ u'.2.effective G.ranks σ := by
  cases h with
  | space hmutates =>
    have hs' := hmutates.built hs
    exact ⟨hs', hu.evolves (hmutates.evolves hs.valid) hs' id, fun _ => subset_rfl⟩
  | @refine s q n offer o hoffer hrefined =>
    cases o with
    | none => exact ⟨hs, hu, fun _ => subset_rfl⟩
    | some q' =>
      obtain ⟨old, m, hold, hm, hinsert⟩ := refine?_eq_some hrefined
      exact ⟨hs, hu.refined hold hoffer hm hinsert⟩

theorem belongsTo_of_uses (h : ReflTransGen (Uses G t) u u') (hs : u.1.Built (State.Fits t))
    (hu : u.2.BelongsTo G.ranks t u.1) : u'.1.Built (State.Fits t) ∧
      u'.2.BelongsTo G.ranks t u'.1 ∧ ∀ σ, u.2.effective G.ranks σ ⊆ u'.2.effective G.ranks σ := by
  induction h with
  | refl => exact ⟨hs, hu, fun _ => subset_rfl⟩
  | tail _ huse ih =>
    obtain ⟨hmid, hbelongs, hsub⟩ := ih
    obtain ⟨hlast, hbelongs', hsub'⟩ := huse.belongsTo hmid hbelongs
    exact ⟨hlast, hbelongs', fun σ => (hsub σ).trans (hsub' σ)⟩

/-- A precision without entries is for any space of states of one shape. -/
theorem belongsTo_of_entries (h : q.entries = {}) (hdefault : L.Fits q.default)
    (hs : s.Valid) (hfits : ∀ {n : NodeId} {st : State}, s.states[n]? = some st → st.Fits t) :
    q.BelongsTo L t s := by
  have hnone {n : NodeId} : q.entries[n]? = none := by simp [h]
  have hno {n : NodeId} {e : Entry M} (he : q.entries[n]? = some e) : False := by
    rw [hnone] at he
    cases he
  exact ⟨⟨hdefault, fun he => (hno he).elim, fun he _ => (hno he).elim⟩, based_of_entries h,
    fun k e st he _ => (hno he).elim, hs, hfits⟩

/-- Whether later marks are at least the earlier ones: of the root, and of every state that an
    earlier one covers or equals, whichever node it has. -/
structure Grows (G : GradedMarks M) (q : Precision M) (s : Space) (q' : Precision M) (s' : Space) :
    Prop where
  root : ∃ old new, q.get s root = .ok old ∧ q'.get s' root = .ok new ∧ G.Within old new
  stored {n k : NodeId} {st st' : State} : s.states[n]? = some st → s'.states[k]? = some st' →
    st.contains st' = .ok true ∨ st.equal st' = true →
    ∃ old new, q.get s n = .ok old ∧ q'.get s' k = .ok new ∧ G.Within old new

theorem grows_of_effective (hq : q.BelongsTo G.ranks t s) (hq' : q'.BelongsTo G.ranks t s')
    (h : ∀ σ, q.effective G.ranks σ ⊆ q'.effective G.ranks σ) : q.Grows G s q' s' := by
  have hwithin {n k : NodeId} (hn : n = RefineCheck.root ∨ s.contains n = true)
      (hk : k = RefineCheck.root ∨ s'.contains k = true)
      (hsub : q'.effective G.ranks s.states[n]? ⊆ q'.effective G.ranks s'.states[k]?) :
      ∃ old new, q.get s n = .ok old ∧ q'.get s' k = .ok new ∧ G.Within old new := by
    obtain ⟨old, hold, hmarked⟩ := hq.exists_get hn
    obtain ⟨new, hnew, hmarked'⟩ := hq'.exists_get hk
    refine ⟨old, new, hold, hnew, ?_⟩
    -- what a mark ranks is what is effective at its state, which only grows
    refine (G.ranked_subset_iff (hq.uniform.fits_of_get hold)
      (hq'.uniform.fits_of_get hnew)).1 ?_
    have hranks : G.ranks.marked old ⊆ G.ranks.marked new := by
      rw [hmarked, hmarked']
      exact (h _).trans hsub
    exact hranks
  constructor
  · refine hwithin (.inl rfl) (.inl rfl) ?_
    rw [hq.valid.states_root, hq'.valid.states_root]
  · intro n k st st' hst hst' hor
    have hcontains : st.contains st' = .ok true :=
      hor.elim id (State.contains_of_equal (hq.fits hst))
    refine hwithin (.inr (Space.contains_iff.2 ⟨st, hst⟩))
      (.inr (Space.contains_iff.2 ⟨st', hst'⟩)) ?_
    rw [hst, hst']
    exact hq'.effective_of_contains (hq.fits hst) (hq'.fits hst') hcontains

/-- Whether a precision is monotone: after any refinements from a default mark on, whatever happened to
    the space between them, later marks are at least the earlier ones, and every refinement that is
    asked for is made. -/
def Monotone (G : GradedMarks M) : Prop :=
  ∀ {t : Shape} {default : M} {s₀ s s' : Space} {q q' : Precision M}, G.Fits default →
    s₀.Built (State.Fits t) → ReflTransGen (Uses G t) (s₀, ⟨default, {}⟩) (s, q) →
    ReflTransGen (Uses G t) (s, q) (s', q') →
    q.Grows G s q' s' ∧ ∀ n offer, n = root ∨ s.contains n = true → G.Fits offer →
      ∃ o, q.refine? s n offer = .ok o

theorem monotone (G : GradedMarks M) : Monotone G := by
  intro t default s₀ s s' q q' hdefault hs hbefore hafter
  have hstart : BelongsTo G.ranks t s₀ ⟨default, {}⟩ :=
    belongsTo_of_entries rfl hdefault hs.valid hs.good
  obtain ⟨hs, hq, -⟩ := belongsTo_of_uses hbefore hs hstart
  obtain ⟨-, hq', hsub⟩ := belongsTo_of_uses hafter hs hq
  exact ⟨grows_of_effective hq hq' hsub, fun n offer hn ho => hq.refine?_ok hn ho⟩

/-! ## A state that comes back -/

/-- A state with one bit of which nothing is known. -/
def anyBit : State := .quiet .oneBit

/-- One of the states that it covers. -/
def setBit : State := .quiet ⟨[⟨"bit", .unsigned, .scalar (.ofNat 1 1)⟩]⟩

theorem fits_anyBit : anyBit.Fits Record.oneBit.shape :=
  ⟨rfl, rfl, List.forall_mem_singleton.2 (show 1 ≤ Word.maxWidth by decide)⟩

theorem fits_setBit : setBit.Fits Record.oneBit.shape :=
  ⟨rfl, rfl, List.forall_mem_singleton.2 (show 1 ≤ Word.maxWidth by decide)⟩

/-- Refines the mark of the only state of a space by all bits, removes the state and stores one that it
    covered. The space and the precision are given before and after the removal. -/
def comeback : Except Fault ((Space × Precision RecordMark) × Space × Precision RecordMark) := do
  let (s, n, _) ← Space.empty.addStep root anyBit .oneBit
  let unmarked : Precision RecordMark := ⟨← RecordMark.unmarked .oneBit, {}⟩
  let refined := (← unmarked.refine? s n (← RecordMark.all .oneBit 3)).getD unmarked
  let (cleared, _) ← s.clearStep root
  let (s', _, _) ← cleared.sweep.1.addStep root setBit .oneBit
  return ((s, refined), s', refined)

/-- The first state has the mark of its refinement, and the second one has a new number. -/
theorem report_comeback : comeback.map (fun r => (r.1.1.states[1]?, r.1.2.get r.1.1 1,
    r.2.1.states[1]?, r.2.1.states[2]?)) =
      .ok (some anyBit, .ok ⟨.oneBit, [.scalar ⟨1, .of 1 3⟩]⟩, none, some setBit) := by
  decide +kernel

/-- The operations are uses of a precision for a space of states of one shape. -/
theorem uses_comeback {u u' : Space × Precision RecordMark} (h : comeback = .ok (u, u')) :
    ∃ default, default.Fits Record.oneBit.shape ∧
      ReflTransGen (Uses (RecordMark.graded Record.oneBit.shape) Record.oneBit.shape)
        (.empty, ⟨default, {}⟩) u ∧
      ReflTransGen (Uses (RecordMark.graded Record.oneBit.shape) Record.oneBit.shape) u u' := by
  simp only [comeback, bind_eq_ok, pure_eq_ok] at h
  obtain ⟨⟨s, n, _⟩, hadd, unmarked, hunmarked, all, hall, o, ho, ⟨cleared, _⟩, hclear, ⟨s', _, _⟩,
    hback, hresult⟩ := h
  obtain ⟨rfl, rfl⟩ := Prod.mk.inj hresult
  refine ⟨unmarked, RecordMark.fits_unmarked hunmarked, ?_, ?_⟩
  · exact .tail (.single (.space (.addStep fits_anyBit hadd))) (.refine (RecordMark.fits_all hall) ho)
  · exact .tail (.tail (.single (.space (.clearStep hclear))) (.space (.sweep cleared)))
      (.space (.addStep fits_setBit hback))

end Precision

end RefineCheck
