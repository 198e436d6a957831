/-
  RefineCheck.Proofs.Precision

  The marks of nodes. Where all marks and states have one shape, the mark of a stored node is the
  join of its own mark with those of all states that cover it.
-/

import Mathlib
import RefineCheck.Precision
import RefineCheck.Proofs.Mark.Operations
import RefineCheck.Proofs.Space.Graph

namespace RefineCheck

open Std (TreeMap)

/-- What the marks of one shape have in common. -/
structure Marks (M : Type) [Refinable M] where
  Fits : M → Prop
  marked : M → Set (Nat × Nat × Nat)
  join_ok {m n : M} : Fits m → Fits n →
    ∃ r, Refinable.join m n = .ok r ∧ Fits r ∧ marked r = marked m ∪ marked n
  refine?_eq_some {m offer r : M} : Fits m → Refinable.refine? m offer = .ok (some r) → Fits r
  refine?_ok {m offer : M} : Fits m → Fits offer →
    ∃ o, Refinable.refine? m offer = .ok o ∧ ∀ r, o = some r → marked m ⊂ marked r

/-- The marks of inputs of one shape. -/
def RecordMark.marks (t : Shape) : Marks RecordMark where
  Fits := Fits t
  marked := marked
  join_ok := join_ok
  refine?_eq_some := refine?_eq_some
  refine?_ok := refine?_ok

/-- The marks of states of one shape. -/
def StateMark.marks (t : Shape) : Marks StateMark where
  Fits := Fits t
  marked := marked
  join_ok := join_ok
  refine?_eq_some := refine?_eq_some
  refine?_ok := refine?_ok

namespace Precision

variable {M : Type} {p : Precision M} {s : Space} {n : NodeId} {st : State} {m : M}

/-! ## Marks of their own -/

/-- A precision with one more mark. -/
def withEntry (p : Precision M) (n : NodeId) (e : Entry M) : Precision M :=
  { p with entries := p.entries.insert n e }

theorem entries_withEntry (p : Precision M) (n k : NodeId) (e : Entry M) :
    (p.withEntry n e).entries[k]? = if k = n then some e else p.entries[k]? := by
  rw [withEntry, TreeMap.getElem?_insert]
  exact if_congr (Std.LawfulEqCmp.compare_eq_iff_eq.trans eq_comm) rfl rfl

theorem insert_of_state (hn : n ≠ root) (hst : s.states[n]? = some st) :
    p.insert s n m = .ok (p.withEntry n ⟨m, some st⟩) := by
  rw [Precision.insert, if_neg hn, Space.state, hst]
  rfl

/-- The root and every stored node can be given a mark. -/
theorem insert_ok (q : Precision M) (hn : n = root ∨ s.contains n = true) (m : M) :
    ∃ q', q.insert s n m = .ok q' := by
  by_cases hroot : n = root
  · subst hroot
    exact ⟨_, rfl⟩
  · obtain ⟨st, hst⟩ := Space.contains_iff.1 (hn.resolve_left hroot)
    exact ⟨_, insert_of_state hroot hst⟩

/-- A node that is given a mark of its own is the root or stored. -/
theorem insert_eq_ok {p' : Precision M} (h : p.insert s n m = .ok p') :
    ∃ state, p' = p.withEntry n ⟨m, state⟩ ∧ ∀ {st}, state = some st → s.states[n]? = some st := by
  by_cases hn : n = root
  · subst hn
    obtain rfl := Except.ok.inj h
    exact ⟨none, rfl, fun h => by cases h⟩
  · cases hst : s.states[n]? with
    | none =>
      rw [Precision.insert, if_neg hn, Space.state, hst] at h
      cases h
    | some st =>
      rw [insert_of_state hn hst] at h
      obtain rfl := Except.ok.inj h
      exact ⟨some st, rfl, fun h => h⟩

/-- Whether an entry is of a state that covers another one. -/
def Entry.Covers (e : Entry M) (st : State) : Prop :=
  ∃ covering, e.state = some covering ∧ covering.contains st = .ok true

theorem Entry.covers_iff {e : Entry M} {covering st : State} {b : Bool}
    (he : e.state = some covering) (hb : covering.contains st = .ok b) : e.Covers st ↔ b = true := by
  constructor
  · rintro ⟨covering', he', htrue⟩
    obtain rfl := Option.some.inj (he.symm.trans he')
    exact Except.ok.inj (hb.symm.trans htrue)
  · rintro rfl
    exact ⟨covering, he, hb⟩

/-! ## Joined marks -/

variable [Refinable M] {L : Marks M} {t : Shape}

theorem get_root (p : Precision M) (s : Space) : p.get s root = .ok (p.own root) := rfl

/-- Joins the mark of an entry of another node that covers a state. -/
def joinCovering (n : NodeId) (st : State) (mark : M) (entry : NodeId × Entry M) :
    Except Fault M := do
  match entry.2.state with
  | none => return mark
  | some covering =>
    if entry.1 = n then return mark
    else if ← covering.contains st then Refinable.join mark entry.2.mark
    else return mark

theorem get_of_state (hn : n ≠ root) (hst : s.states[n]? = some st) :
    p.get s n = p.entries.toList.foldlM (joinCovering n st) (p.own n) := by
  rw [get, if_neg hn, Space.state, hst]
  rfl

/-! ### Marks of one shape -/

/-- A precision whose marks have the right shape, whatever the states are. -/
structure Uniform (L : Marks M) (p : Precision M) : Prop where
  default_fits : L.Fits p.default
  mark_fits {n : NodeId} {e : Entry M} : p.entries[n]? = some e → L.Fits e.mark

theorem Uniform.own_fits (h : p.Uniform L) (n : NodeId) : L.Fits (p.own n) := by
  rw [own]
  cases he : p.entries[n]? with
  | none => exact h.default_fits
  | some e => exact h.mark_fits he

theorem uniform_of_default {default : M} (h : L.Fits default) : (⟨default, {}⟩ : Precision M).Uniform L :=
  ⟨h, fun he => by simp at he⟩

theorem Uniform.reset (h : p.Uniform L) : p.reset.Uniform L := uniform_of_default h.default_fits

theorem fits_of_joinCovering {entry : NodeId × Entry M} {r : M} (hm : L.Fits m)
    (hmark : L.Fits entry.2.mark) (h : joinCovering n st m entry = .ok r) : L.Fits r := by
  rw [joinCovering.eq_def] at h
  split at h
  · exact Except.ok.inj h ▸ hm
  · split at h
    · exact Except.ok.inj h ▸ hm
    · obtain ⟨b, -, h⟩ := bind_eq_ok.1 h
      split at h
      · obtain ⟨r', hr', hfits, -⟩ := L.join_ok hm hmark
        obtain rfl := Except.ok.inj (hr'.symm.trans h)
        exact hfits
      · exact Except.ok.inj h ▸ hm

theorem fits_of_foldlM {entries : List (NodeId × Entry M)} {r : M} (hm : L.Fits m)
    (hmarks : ∀ x ∈ entries, L.Fits x.2.mark)
    (h : entries.foldlM (joinCovering n st) m = .ok r) : L.Fits r := by
  induction entries generalizing m with
  | nil => exact Except.ok.inj h ▸ hm
  | cons entry entries ih =>
    rw [List.forall_mem_cons] at hmarks
    obtain ⟨next, hnext, hrest⟩ := bind_eq_ok.1 (List.foldlM_cons.symm.trans h)
    exact ih (fits_of_joinCovering hm hmarks.1 hnext) hmarks.2 hrest

/-- The mark of a node has the right shape wherever there is one. -/
theorem Uniform.fits_of_get (hp : p.Uniform L) (h : p.get s n = .ok m) : L.Fits m := by
  by_cases hn : n = root
  · subst hn
    obtain rfl := Except.ok.inj h
    exact hp.own_fits root
  · cases hst : s.states[n]? with
    | none =>
      rw [get, if_neg hn, Space.state, hst] at h
      cases h
    | some st =>
      rw [get_of_state hn hst] at h
      exact fits_of_foldlM (hp.own_fits n)
        (fun x hx => hp.mark_fits (TreeMap.mem_toList_iff_getElem?_eq_some.1 hx)) h

theorem Uniform.withEntry (hp : p.Uniform L) {e : Entry M} (hm : L.Fits e.mark) :
    (p.withEntry n e).Uniform L := by
  refine ⟨hp.default_fits, fun {k e'} he => ?_⟩
  rw [entries_withEntry] at he
  split at he
  · obtain rfl := Option.some.inj he
    exact hm
  · exact hp.mark_fits he

/-- Refining the mark of a node keeps the shape. -/
theorem Uniform.insert_refined (hp : p.Uniform L) {old offer : M} {p' : Precision M}
    (hold : p.get s n = .ok old) (hrefined : Refinable.refine? old offer = .ok (some m))
    (h : p.insert s n m = .ok p') : p'.Uniform L := by
  obtain ⟨state, rfl, -⟩ := insert_eq_ok h
  exact hp.withEntry (L.refine?_eq_some (hp.fits_of_get hold) hrefined)

/-! ### Marks and states of one shape -/

/-- A precision whose marks and states have the right shapes. -/
structure Shaped (L : Marks M) (t : Shape) (p : Precision M) : Prop where
  default_fits : L.Fits p.default
  mark_fits {n : NodeId} {e : Entry M} : p.entries[n]? = some e → L.Fits e.mark
  state_fits {n : NodeId} {e : Entry M} {st : State} : p.entries[n]? = some e →
    e.state = some st → st.Fits t

theorem Shaped.uniform (h : p.Shaped L t) : p.Uniform L := ⟨h.default_fits, h.mark_fits⟩

theorem Shaped.own_fits (h : p.Shaped L t) (n : NodeId) : L.Fits (p.own n) := h.uniform.own_fits n

theorem Shaped.reset (h : p.Shaped L t) : p.reset.Shaped L t :=
  ⟨h.default_fits, h.uniform.reset.mark_fits, fun he => by simp [Precision.reset] at he⟩

theorem shaped_of_default {default : M} (h : L.Fits default) : (⟨default, {}⟩ : Precision M).Shaped L t :=
  ⟨h, fun he => by simp at he, fun he => by simp at he⟩

theorem joinCovering_ok {entry : NodeId × Entry M} (hm : L.Fits m) (hmark : L.Fits entry.2.mark)
    (hstate : ∀ {covering}, entry.2.state = some covering → covering.Fits t) (hst : st.Fits t) :
    ∃ r, joinCovering n st m entry = .ok r ∧ L.Fits r ∧ ∀ x, x ∈ L.marked r ↔
      x ∈ L.marked m ∨ entry.1 ≠ n ∧ entry.2.Covers st ∧ x ∈ L.marked entry.2.mark := by
  rw [joinCovering.eq_def]
  cases hs : entry.2.state with
  | none =>
    -- the mark of the root covers no state
    refine ⟨m, rfl, hm, fun x => (or_iff_left ?_).symm⟩
    rintro ⟨-, ⟨covering, hcovering, -⟩, -⟩
    rw [hs] at hcovering
    cases hcovering
  | some covering =>
    simp only
    by_cases hn : entry.1 = n
    · rw [if_pos hn]
      exact ⟨m, rfl, hm, fun x => (or_iff_left fun h => h.1 hn).symm⟩
    · rw [if_neg hn]
      obtain ⟨b, hb⟩ := State.contains_ok (hstate hs) hst
      rw [hb, ok_bind]
      have hcovers := Entry.covers_iff hs hb
      cases b with
      | false =>
        refine ⟨m, rfl, hm, fun x => (or_iff_left fun h => ?_).symm⟩
        exact absurd (hcovers.1 h.2.1) Bool.false_ne_true
      | true =>
        obtain ⟨r, hr, hfits, hmarked⟩ := L.join_ok hm hmark
        refine ⟨r, hr, hfits, fun x => ?_⟩
        rw [hmarked, Set.mem_union]
        exact or_congr Iff.rfl ⟨fun hx => ⟨hn, hcovers.2 rfl, hx⟩, fun h => h.2.2⟩

theorem foldlM_joinCovering {entries : List (NodeId × Entry M)} (hm : L.Fits m)
    (hmarks : ∀ x ∈ entries, L.Fits x.2.mark)
    (hstates : ∀ x ∈ entries, ∀ {covering}, x.2.state = some covering → covering.Fits t)
    (hst : st.Fits t) :
    ∃ r, entries.foldlM (joinCovering n st) m = .ok r ∧ L.Fits r ∧ ∀ x, x ∈ L.marked r ↔
      x ∈ L.marked m ∨ ∃ e ∈ entries, e.1 ≠ n ∧ e.2.Covers st ∧ x ∈ L.marked e.2.mark := by
  induction entries generalizing m with
  | nil => exact ⟨m, rfl, hm, fun x => by simp⟩
  | cons entry entries ih =>
    rw [List.forall_mem_cons] at hmarks hstates
    obtain ⟨r₁, hr₁, hfits₁, hmarked₁⟩ :=
      joinCovering_ok (n := n) hm hmarks.1 (fun h => hstates.1 h) hst
    obtain ⟨r, hr, hfits, hmarked⟩ := ih hfits₁ hmarks.2 hstates.2
    refine ⟨r, ?_, hfits, fun x => ?_⟩
    · rw [List.foldlM_cons, hr₁]
      exact hr
    · rw [hmarked, hmarked₁, or_assoc, List.exists_mem_cons_iff]

/-- The mark of a stored state has the right shape, and marks what its own mark or the one of
    another state that covers it marks. -/
theorem get_ok (hp : p.Shaped L t) (hn : n ≠ root) (hst : s.states[n]? = some st)
    (hfits : st.Fits t) :
    ∃ m, p.get s n = .ok m ∧ L.Fits m ∧ ∀ x, x ∈ L.marked m ↔ x ∈ L.marked (p.own n) ∨
      ∃ k e, p.entries[k]? = some e ∧ k ≠ n ∧ e.Covers st ∧ x ∈ L.marked e.mark := by
  have hentry (x : NodeId × Entry M) (hx : x ∈ p.entries.toList) : p.entries[x.1]? = some x.2 :=
    TreeMap.mem_toList_iff_getElem?_eq_some.1 hx
  obtain ⟨m, hm, hfits, hmarked⟩ := foldlM_joinCovering (n := n) (hp.own_fits n)
    (fun x hx => hp.mark_fits (hentry x hx)) (fun x hx => hp.state_fits (hentry x hx)) hfits
  refine ⟨m, (get_of_state hn hst).trans hm, hfits, fun x => (hmarked x).trans ?_⟩
  refine or_congr Iff.rfl ⟨?_, ?_⟩
  · rintro ⟨⟨k, e⟩, he, hspec⟩
    exact ⟨k, e, hentry _ he, hspec⟩
  · rintro ⟨k, e, he, hspec⟩
    exact ⟨(k, e), TreeMap.mem_toList_iff_getElem?_eq_some.2 he, hspec⟩

/-- Giving a node a mark of the right shape keeps the shapes. -/
theorem Shaped.withEntry (hp : p.Shaped L t) {e : Entry M} (hm : L.Fits e.mark)
    (hstate : ∀ {st : State}, e.state = some st → st.Fits t) : (p.withEntry n e).Shaped L t := by
  refine ⟨hp.default_fits, (hp.uniform.withEntry hm).mark_fits, fun {k e' st} he hst => ?_⟩
  rw [entries_withEntry] at he
  split at he
  · obtain rfl := Option.some.inj he
    exact hstate hst
  · exact hp.state_fits he hst

/-- Refining the mark of a node keeps the shapes. -/
theorem Shaped.insert_refined (hp : p.Shaped L t)
    (hstates : ∀ {n : NodeId} {st : State}, s.states[n]? = some st → st.Fits t) {old offer : M}
    {p' : Precision M} (hold : p.get s n = .ok old)
    (hrefined : Refinable.refine? old offer = .ok (some m)) (h : p.insert s n m = .ok p') :
    p'.Shaped L t := by
  obtain ⟨state, rfl, hstate⟩ := insert_eq_ok h
  exact hp.withEntry (L.refine?_eq_some (hp.uniform.fits_of_get hold) hrefined)
    fun hst => hstates (hstate hst)

end Precision

end RefineCheck
