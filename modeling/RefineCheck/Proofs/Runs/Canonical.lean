/-
  RefineCheck.Proofs.Runs.Canonical

  Arrays have one representation. Every operation drops the runs that have the element of what
  follows them, so a run ends exactly where the element changes, and the elements determine the
  runs.
-/

import Mathlib
import RefineCheck.Proofs.Runs.Total

namespace RefineCheck.Runs

variable {α β γ : Type}

/-- Runs in order that end only where the element changes. -/
structure Canonical (l : Runs α) : Prop extends Ordered l where
  changes : ∀ e ∈ l.runs.map Run.last, l.item e ≠ l.item (e + 1)

/-! ## Elements determine the runs -/

/-- Within a run the element stays the same. -/
theorem find_succ (final : α) {runs : List (Run α)} {i : Nat} (h : i ∉ runs.map Run.last) :
    find final runs (i + 1) = find final runs i := by
  induction runs with
  | nil => rfl
  | cons r rest ih =>
    rw [List.map_cons, List.mem_cons, not_or] at h
    rw [find, find, ih h.2]
    by_cases hi : i ≤ r.last
    · rw [if_pos hi, if_pos (show i + 1 ≤ r.last by omega)]
    · rw [if_neg hi, if_neg (show ¬ i + 1 ≤ r.last by omega)]

/-- The runs end exactly where the element changes. -/
theorem Canonical.mem_ends_iff {l : Runs α} (hl : l.Canonical) (e : Nat) :
    e ∈ l.runs.map Run.last ↔ e < l.last ∧ l.item e ≠ l.item (e + 1) := by
  constructor
  · intro he
    exact ⟨hl.bounded e he, hl.changes e he⟩
  · rintro ⟨-, hne⟩
    by_contra he
    apply hne
    rw [item_eq_find, item_eq_find, find_succ _ he]

/-- Runs are given by their ends and the elements there. -/
theorem Ordered.runs_eq {l : Runs α} (hl : l.Ordered) :
    l.runs = (l.runs.map Run.last).map fun e => ⟨e, l.item e⟩ := by
  rw [List.map_map]
  refine (List.map_id _).symm.trans (List.map_congr_left fun r hr => ?_)
  show r = ⟨r.last, l.item r.last⟩
  rw [(hl.run_value hr).2]

/-- Canonical arrays of one size with the same elements are equal. -/
theorem Canonical.ext {l k : Runs α} (hl : l.Canonical) (hk : k.Canonical)
    (hlast : l.last = k.last) (h : ∀ i ≤ l.last, l.item i = k.item i) : l = k := by
  -- where the elements change is the same for both, and lists in order are given by their members
  have hends : l.runs.map Run.last = k.runs.map Run.last := by
    apply hl.increasing.eq_of_mem_iff hk.increasing
    intro e
    rw [hl.mem_ends_iff, hk.mem_ends_iff, ← hlast]
    apply and_congr_right
    intro he
    rw [h e he.le, h (e + 1) he]
  have hruns : l.runs = k.runs := by
    rw [hl.runs_eq, hk.runs_eq, ← hends]
    apply List.map_congr_left
    intro e he
    rw [h e (hl.bounded e he).le]
  have hfinal : l.final = k.final := by
    rw [← hl.final_value, ← hk.final_value, ← hlast, h l.last le_rfl]
  obtain ⟨runs, final, last⟩ := l
  obtain ⟨runs', final', last'⟩ := k
  obtain rfl : runs = runs' := hruns
  obtain rfl : final = final' := hfinal
  obtain rfl : last = last' := hlast
  rfl

/-! ## Every operation compresses -/

theorem find_eq_headValue (final : α) {runs : List (Run α)} {i : Nat}
    (h : ∀ e ∈ runs.map Run.last, i ≤ e) : find final runs i = headValue final runs := by
  cases runs with
  | nil => rfl
  | cons r rest => exact if_pos (h r.last List.mem_cons_self)

theorem changes_compress [DecidableEq α] {final : α} {runs : List (Run α)}
    (h : (runs.map Run.last).Pairwise (· < ·)) :
    ∀ e ∈ (compress final runs).map Run.last,
      find final (compress final runs) e ≠ find final (compress final runs) (e + 1) := by
  induction runs with
  | nil =>
    intro e he
    cases he
  | cons r rest ih =>
    rw [List.map_cons, List.pairwise_cons] at h
    rw [compress_cons]
    split
    · -- the run is dropped
      exact ih h.2
    · rename_i hne
      have hafter : ∀ e ∈ (compress final rest).map Run.last, r.last < e := fun e he =>
        h.1 e (((compress_sublist final rest).map Run.last).subset he)
      intro e he
      rcases List.mem_cons.1 he with rfl | he
      · -- the run is kept since what follows starts with another element
        rw [find, if_pos le_rfl, find, if_neg (Nat.not_succ_le_self _),
          find_eq_headValue final hafter]
        exact hne
      · have hlt := hafter e he
        rw [find, if_neg (show ¬ e ≤ r.last by omega), find,
          if_neg (show ¬ e + 1 ≤ r.last by omega)]
        exact ih h.2 e he

/-- Compressed runs are canonical. -/
theorem Ordered.canonical [DecidableEq α] {final : α} {runs : List (Run α)} {last : Nat}
    (h : (⟨runs, final, last⟩ : Runs α).Ordered) :
    (⟨compress final runs, final, last⟩ : Runs α).Canonical := by
  have hsub := (compress_sublist final runs).map Run.last
  refine ⟨⟨h.increasing.sublist hsub, fun e he => h.bounded e (hsub.subset he)⟩, ?_⟩
  intro e he
  rw [item_eq_find, item_eq_find]
  exact changes_compress h.increasing e he

theorem canonical_replicate (last : Nat) (fill : α) : (replicate last fill).Canonical :=
  ⟨ordered_replicate last fill, fun _ h => absurd h List.not_mem_nil⟩

theorem canonical_mapFromM [DecidableEq β] {f : Nat → α → Except Fault β} {l : Runs α}
    {l' : Runs β} (h : l.mapFromM f = .ok l') (hl : l.Ordered) : l'.Canonical := by
  simp only [mapFromM, bind_eq_ok, pure_eq_ok] at h
  obtain ⟨⟨runs, next⟩, hruns, final, hfinal, rfl⟩ := h
  obtain ⟨hends, -⟩ := mapRunsM_spec hruns hfinal
  apply Ordered.canonical
  exact ⟨hends ▸ hl.increasing, fun e he => hl.bounded e (hends ▸ he)⟩

theorem canonical_map [DecidableEq β] (f : α → β) {l : Runs α} (hl : l.Ordered) :
    (l.map f).Canonical := by
  have hends : (l.runs.map fun r => (⟨r.last, f r.value⟩ : Run β)).map Run.last =
      l.runs.map Run.last := List.map_map
  apply Ordered.canonical
  exact ⟨hends ▸ hl.increasing, fun e he => hl.bounded e (hends ▸ he)⟩

theorem canonical_mapRangeM [DecidableEq α] {f : α → Except Fault α} {l l' : Runs α}
    {first last : Nat} (h : l.mapRangeM first last f = .ok l') (hl : l.Ordered) :
    l'.Canonical := by
  obtain ⟨hrange, hlast, h⟩ := mapRangeM_eq_ok h
  exact canonical_mapFromM h (hl.cutRange hrange hlast)

theorem canonical_zipWithM [DecidableEq γ] {f : α → β → Except Fault γ} {l : Runs α} {k : Runs β}
    {r : Runs γ} (h : l.zipWithM f k = .ok r) (hl : l.Ordered) (hk : k.Ordered) :
    r.Canonical := by
  simp only [zipWithM, bind_eq_ok] at h
  obtain ⟨pairs, hpairs, h⟩ := h
  obtain ⟨-, hpairs, -, -⟩ := zip_spec hpairs hl hk
  exact canonical_mapFromM h hpairs

end RefineCheck.Runs
