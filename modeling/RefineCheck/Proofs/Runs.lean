/-
  RefineCheck.Proofs.Runs

  Arrays that are stored as runs behave as maps from indices to elements: each operation does
  to the element at every index what its name says. Runs stay in order.
-/

import Mathlib
import RefineCheck.Proofs.Result
import RefineCheck.Runs

namespace RefineCheck.Runs

variable {α β γ : Type}

/-! ## Elements -/

/-- Whether the ends of the runs increase, so that no run is empty. -/
structure Ordered (l : Runs α) : Prop where
  increasing : (l.runs.map Run.last).Pairwise (· < ·)
  bounded : ∀ e ∈ l.runs.map Run.last, e < l.last

/-- The element that some runs have at an index. -/
def find (final : α) : List (Run α) → Nat → α
  | [], _ => final
  | r :: rest, i => if i ≤ r.last then r.value else find final rest i

theorem find_cons (final : α) (r : Run α) (rest : List (Run α)) (i : Nat) :
    find final (r :: rest) i = if i ≤ r.last then r.value else find final rest i := rfl

/-- The first index of the run that has an index. -/
def start : (first : Nat) → List (Run α) → Nat → Nat
  | first, [], _ => first
  | first, r :: rest, i => if i ≤ r.last then first else start (r.last + 1) rest i

theorem item_eq_find (l : Runs α) (i : Nat) : l.item i = find l.final l.runs i := by
  rw [item]
  induction l.runs with
  | nil => rfl
  | cons r rest ih =>
    rw [List.find?_cons, find]
    by_cases hi : i ≤ r.last
    · simp only [hi, decide_true, if_true]
    · simp only [hi, decide_false, if_false]
      exact ih

theorem ordered_replicate (last : Nat) (fill : α) : (replicate last fill).Ordered :=
  ⟨.nil, fun _ h => absurd h List.not_mem_nil⟩

theorem start_le {first : Nat} {runs : List (Run α)} {i : Nat} (h : first ≤ i) :
    start first runs i ≤ i := by
  induction runs generalizing first with
  | nil => exact h
  | cons r rest ih =>
    rw [start]
    split
    · exact h
    · exact ih (by omega)

/-- A run that ends before an index comes before the run that has the index. -/
theorem lt_start {first : Nat} {runs : List (Run α)} {i e : Nat}
    (hsorted : (runs.map Run.last).Pairwise (· < ·)) (hfirst : ∀ x ∈ runs.map Run.last, first ≤ x + 1)
    (hend : e < first ∨ e ∈ runs.map Run.last) (hi : e < i) : e < start first runs i := by
  induction runs generalizing first with
  | nil => exact hend.resolve_right List.not_mem_nil
  | cons r rest ih =>
    rw [List.map_cons, List.pairwise_cons] at hsorted
    have hr : first ≤ r.last + 1 := hfirst r.last List.mem_cons_self
    rw [start]
    split
    · rename_i hle
      refine hend.resolve_right fun hmem => ?_
      rcases List.mem_cons.1 hmem with rfl | hmem
      · omega
      · have := hsorted.1 e hmem
        omega
    · refine ih hsorted.2 (fun x hx => Nat.succ_le_succ (hsorted.1 x hx).le) ?_
      rcases hend with hlt | hmem
      · left
        omega
      · rcases List.mem_cons.1 hmem with rfl | hmem
        · exact .inl (Nat.lt_succ_self _)
        · exact .inr hmem

/-! ## Compression -/

/-- The element right after a run that is followed by others. -/
def headValue (final : α) : List (Run α) → α
  | [] => final
  | r :: _ => r.value

theorem compress_cons [DecidableEq α] (final : α) (r : Run α) (rest : List (Run α)) :
    compress final (r :: rest) =
      if r.value = headValue final (compress final rest) then compress final rest
      else r :: compress final rest := by
  rw [compress]
  cases compress final rest <;> rfl

theorem compress_sublist [DecidableEq α] (final : α) (runs : List (Run α)) :
    (compress final runs).Sublist runs := by
  induction runs with
  | nil => exact .refl _
  | cons r rest ih =>
    rw [compress_cons]
    split
    · exact ih.cons r
    · exact ih.cons_cons r

/-- Dropping a run that has the element of what follows changes no element. -/
theorem find_compress [DecidableEq α] {final : α} {runs : List (Run α)}
    (h : (runs.map Run.last).Pairwise (· < ·)) (i : Nat) :
    find final (compress final runs) i = find final runs i := by
  induction runs with
  | nil => rfl
  | cons r rest ih =>
    rw [List.map_cons, List.pairwise_cons] at h
    have hsub := compress_sublist final rest
    have ih := ih h.2
    rw [compress_cons]
    split
    · rename_i heq
      rw [find]
      split
      · rename_i hi
        cases hkept : compress final rest with
        | nil =>
          rw [hkept] at heq
          exact heq.symm
        | cons s kept =>
          rw [hkept] at heq hsub
          have hle := h.1 s.last (List.mem_map_of_mem (hsub.subset List.mem_cons_self))
          rw [find, if_pos (le_trans hi hle.le)]
          exact heq.symm
      · exact ih
    · rw [find, find, ih]

/-! ## Functions on elements -/

theorem mapRunsM_spec {f : Nat → α → Except Fault β} {first next : Nat} {runs : List (Run α)}
    {runs' : List (Run β)} (h : mapRunsM f first runs = .ok (runs', next)) {final : α} {final' : β}
    (hf : f next final = .ok final') :
    runs'.map Run.last = runs.map Run.last ∧
      ∀ i, f (start first runs i) (find final runs i) = .ok (find final' runs' i) := by
  induction runs generalizing first runs' with
  | nil =>
    obtain ⟨rfl, rfl⟩ := Prod.mk.inj (Except.ok.inj h)
    exact ⟨rfl, fun _ => hf⟩
  | cons r rest ih =>
    simp only [mapRunsM, bind_eq_ok, pure_eq_ok] at h
    obtain ⟨value, hvalue, ⟨rest', next'⟩, hrest, h⟩ := h
    obtain ⟨rfl, rfl⟩ := Prod.mk.inj h
    obtain ⟨hlast, hitems⟩ := ih hrest
    refine ⟨by rw [List.map_cons, List.map_cons, hlast], fun i => ?_⟩
    rw [start, find, find]
    by_cases hi : i ≤ r.last
    · rw [if_pos hi, if_pos hi, if_pos hi]
      exact hvalue
    · rw [if_neg hi, if_neg hi, if_neg hi]
      exact hitems i

theorem mapFromM_spec [DecidableEq β] {f : Nat → α → Except Fault β} {l : Runs α} {l' : Runs β}
    (h : l.mapFromM f = .ok l') (hl : l.Ordered) :
    l'.Ordered ∧ l'.last = l.last ∧
      ∀ i, f (start 0 l.runs i) (l.item i) = .ok (l'.item i) := by
  simp only [mapFromM, bind_eq_ok, pure_eq_ok] at h
  obtain ⟨⟨runs, next⟩, hruns, final, hfinal, rfl⟩ := h
  obtain ⟨hlast, hitems⟩ := mapRunsM_spec hruns hfinal
  have hruns' : (runs.map Run.last).Pairwise (· < ·) := hlast ▸ hl.increasing
  have hsub := (compress_sublist final runs).map Run.last
  refine ⟨⟨hruns'.sublist hsub, fun e he => hl.bounded e (hlast ▸ hsub.subset he)⟩, rfl,
    fun i => ?_⟩
  rw [item_eq_find, item_eq_find, find_compress hruns']
  exact hitems i

theorem mapM_spec [DecidableEq β] {f : α → Except Fault β} {l : Runs α} {l' : Runs β}
    (h : l.mapM f = .ok l') (hl : l.Ordered) :
    l'.Ordered ∧ l'.last = l.last ∧ ∀ i, f (l.item i) = .ok (l'.item i) :=
  mapFromM_spec h hl

theorem find_map (f : α → β) (final : α) (runs : List (Run α)) (i : Nat) :
    find (f final) (runs.map fun r => ⟨r.last, f r.value⟩) i = f (find final runs i) := by
  induction runs with
  | nil => rfl
  | cons r rest ih =>
    rw [List.map_cons, find, find, ih]
    split <;> rfl

theorem map_spec [DecidableEq β] (f : α → β) {l : Runs α} (hl : l.Ordered) :
    (l.map f).Ordered ∧ (l.map f).last = l.last ∧ ∀ i, (l.map f).item i = f (l.item i) := by
  have hlast : (l.runs.map fun r => (⟨r.last, f r.value⟩ : Run β)).map Run.last =
      l.runs.map Run.last := List.map_map
  have hruns := hlast ▸ hl.increasing
  have hsub := (compress_sublist (f l.final)
    (l.runs.map fun r => (⟨r.last, f r.value⟩ : Run β))).map Run.last
  refine ⟨⟨hruns.sublist hsub, fun e he => hl.bounded e (hlast ▸ hsub.subset he)⟩, rfl,
    fun i => ?_⟩
  rw [item_eq_find, item_eq_find]
  exact (find_compress hruns i).trans (find_map f l.final l.runs i)

/-! ## Ranges -/

theorem find_cut (final : α) (e : Nat) (runs : List (Run α)) (i : Nat) :
    find final (cut final e runs) i = find final runs i := by
  induction runs with
  | nil =>
    rw [cut, find_cons]
    split <;> rfl
  | cons r rest ih =>
    rw [cut]
    split
    · rename_i he
      rw [find_cons]
      split
      · rename_i hi
        exact (if_pos (le_of_lt (lt_of_le_of_lt hi he))).symm
      · rfl
    · split
      · rfl
      · rw [find_cons, find_cons, ih]

theorem mem_cut (final : α) (e : Nat) (runs : List (Run α)) :
    e ∈ (cut final e runs).map Run.last := by
  induction runs with
  | nil => exact List.mem_cons_self
  | cons r rest ih =>
    rw [cut]
    split
    · exact List.mem_cons_self
    · split
      · rename_i he
        rw [he]
        exact List.mem_cons_self
      · exact List.mem_cons_of_mem _ ih

theorem subset_cut {final : α} {e : Nat} {runs : List (Run α)} {i : Nat}
    (h : i ∈ (cut final e runs).map Run.last) : i = e ∨ i ∈ runs.map Run.last := by
  induction runs with
  | nil => exact .inl (List.mem_singleton.1 h)
  | cons r rest ih =>
    rw [cut] at h
    split at h
    · exact List.mem_cons.1 h
    · split at h
      · exact .inr h
      · rcases List.mem_cons.1 h with rfl | h
        · exact .inr List.mem_cons_self
        · exact (ih h).imp_right (List.mem_cons_of_mem _)

theorem mem_cut_of_mem {final : α} {e : Nat} {runs : List (Run α)} {i : Nat}
    (h : i ∈ runs.map Run.last) : i ∈ (cut final e runs).map Run.last := by
  induction runs with
  | nil => cases h
  | cons r rest ih =>
    rw [cut]
    split
    · exact List.mem_cons_of_mem _ h
    · split
      · exact h
      · rcases List.mem_cons.1 h with rfl | h
        · exact List.mem_cons_self
        · exact List.mem_cons_of_mem _ (ih h)

theorem ordered_cut (final : α) (e : Nat) {runs : List (Run α)}
    (h : (runs.map Run.last).Pairwise (· < ·)) :
    ((cut final e runs).map Run.last).Pairwise (· < ·) := by
  induction runs with
  | nil => exact List.pairwise_singleton _ _
  | cons r rest ih =>
    rw [List.map_cons, List.pairwise_cons] at h
    rw [cut]
    split
    · rename_i he
      refine List.pairwise_cons.2 ⟨fun i hi => ?_, List.pairwise_cons.2 h⟩
      rcases List.mem_cons.1 hi with rfl | hi
      · exact he
      · exact lt_trans he (h.1 i hi)
    · split
      · exact List.pairwise_cons.2 h
      · refine List.pairwise_cons.2 ⟨fun i hi => ?_, ih h.2⟩
        rcases subset_cut hi with rfl | hi
        · show r.last < i
          omega
        · exact h.1 i hi

theorem Ordered.cut {l : Runs α} (hl : l.Ordered) {e : Nat} (he : e < l.last) :
    ({ l with runs := Runs.cut l.final e l.runs } : Runs α).Ordered := by
  refine ⟨ordered_cut _ _ hl.increasing, fun i hi => ?_⟩
  rcases subset_cut hi with rfl | hi
  · exact he
  · exact hl.bounded i hi

/-- The runs of an array, made to end before a range and at its end. -/
def cutRange (l : Runs α) (first last : Nat) : List (Run α) :=
  let runs := if first = 0 then l.runs else cut l.final (first - 1) l.runs
  if last < l.last then cut l.final last runs else runs

theorem Ordered.cutRange {l : Runs α} (hl : l.Ordered) {first last : Nat} (hrange : first ≤ last)
    (hlast : last ≤ l.last) : ({ l with runs := l.cutRange first last } : Runs α).Ordered := by
  have hbefore : ({ l with runs := if first = 0 then l.runs else Runs.cut l.final (first - 1) l.runs } :
      Runs α).Ordered := by
    split
    · exact hl
    · exact hl.cut (by omega)
  rw [Runs.cutRange]
  split
  · rename_i hlt
    exact hbefore.cut hlt
  · exact hbefore

theorem mapRangeM_eq_ok [DecidableEq α] {f : α → Except Fault α} {l l' : Runs α} {first last : Nat}
    (h : l.mapRangeM first last f = .ok l') : first ≤ last ∧ last ≤ l.last ∧
      ({ l with runs := l.cutRange first last } : Runs α).mapFromM (fun start value =>
        if first ≤ start ∧ start ≤ last then f value else .ok value) = .ok l' := by
  simp only [mapRangeM, bind_eq_ok, checkIndex] at h
  obtain ⟨⟨⟩, hcheck, h⟩ := h
  split at h
  · cases h
  · rename_i hrange
    split at hcheck
    · rename_i hlast
      exact ⟨not_lt.1 hrange, hlast, h⟩
    · cases hcheck

theorem find_cutRange (l : Runs α) (first last i : Nat) :
    find l.final (l.cutRange first last) i = l.item i := by
  rw [item_eq_find, cutRange]
  split <;> split <;> simp only [find_cut]

/-- The runs that start in the range are those of the indices in the range. -/
theorem start_cutRange_iff {l : Runs α} (hl : l.Ordered) {first last : Nat} (hrange : first ≤ last)
    (hlast : last ≤ l.last) {i : Nat} (hi : i ≤ l.last) :
    (first ≤ start 0 (l.cutRange first last) i ∧ start 0 (l.cutRange first last) i ≤ last) ↔
      first ≤ i ∧ i ≤ last := by
  have hincreasing : ((l.cutRange first last).map Run.last).Pairwise (· < ·) :=
    (hl.cutRange hrange hlast).increasing
  -- after the cuts a run ends just before the range, and one ends with it
  have hbefore (hne : first ≠ 0) : first - 1 ∈ (l.cutRange first last).map Run.last := by
    have hfirst : first - 1 ∈ (cut l.final (first - 1) l.runs).map Run.last := mem_cut _ _ _
    rw [cutRange, if_neg hne]
    split
    · exact mem_cut_of_mem hfirst
    · exact hfirst
  have hafter (hlt : last < l.last) : last ∈ (l.cutRange first last).map Run.last := by
    rw [cutRange, if_pos hlt]
    exact mem_cut _ _ _
  have hle : start 0 (l.cutRange first last) i ≤ i := start_le (Nat.zero_le i)
  constructor
  · rintro ⟨h1, h2⟩
    refine ⟨le_trans h1 hle, not_lt.1 fun hgt => ?_⟩
    have := lt_start hincreasing (fun _ _ => Nat.zero_le _) (.inr (hafter (lt_of_lt_of_le hgt hi))) hgt
    omega
  · rintro ⟨h1, h2⟩
    refine ⟨?_, le_trans hle h2⟩
    by_cases hne : first = 0
    · omega
    · have := lt_start hincreasing (fun _ _ => Nat.zero_le _) (.inr (hbefore hne))
        (show first - 1 < i by omega)
      omega

/-- The elements of the range are changed and the others stay. -/
theorem mapRangeM_spec [DecidableEq α] {f : α → Except Fault α} {l l' : Runs α} {first last : Nat}
    (h : l.mapRangeM first last f = .ok l') (hl : l.Ordered) :
    last ≤ l.last ∧ l'.Ordered ∧ l'.last = l.last ∧ ∀ i ≤ l.last,
      if first ≤ i ∧ i ≤ last then f (l.item i) = .ok (l'.item i) else l'.item i = l.item i := by
  obtain ⟨hrange, hlast, h⟩ := mapRangeM_eq_ok h
  obtain ⟨hord, hlast', hitems⟩ := mapFromM_spec h (hl.cutRange hrange hlast)
  refine ⟨hlast, hord, hlast', fun i hi => ?_⟩
  have hitem := hitems i
  have hstart := start_cutRange_iff hl hrange hlast hi
  rw [item_eq_find] at hitem
  dsimp only at hitem
  rw [find_cutRange] at hitem
  by_cases hin : first ≤ i ∧ i ≤ last
  · rw [if_pos hin]
    rwa [if_pos (hstart.2 hin)] at hitem
  · rw [if_neg hin]
    rw [if_neg fun h => hin (hstart.1 h)] at hitem
    exact (Except.ok.inj hitem).symm

theorem set_spec [DecidableEq α] {l l' : Runs α} {i : Nat} {value : α}
    (h : l.set i value = .ok l') (hl : l.Ordered) :
    i ≤ l.last ∧ l'.Ordered ∧ l'.last = l.last ∧
      ∀ j ≤ l.last, l'.item j = if j = i then value else l.item j := by
  obtain ⟨hi, hord, hlast, hitems⟩ := mapRangeM_spec h hl
  refine ⟨hi, hord, hlast, fun j hj => ?_⟩
  have hitem := hitems j hj
  by_cases hji : j = i
  · rw [if_pos (by omega)] at hitem
    rw [if_pos hji]
    exact (Except.ok.inj hitem).symm
  · rw [if_neg (by omega)] at hitem
    rw [if_neg hji, hitem]

theorem get_spec {l : Runs α} {i : Nat} {value : α} (h : l.get i = .ok value) :
    i ≤ l.last ∧ l.item i = value := by
  simp only [get, bind_eq_ok, pure_eq_ok, checkIndex] at h
  obtain ⟨⟨⟩, hcheck, rfl⟩ := h
  split at hcheck
  · exact ⟨‹_›, rfl⟩
  · cases hcheck

/-! ## Pairs -/

theorem find_zipRuns (a : α) (b : β) (rs : List (Run α)) (ss : List (Run β)) (i : Nat) :
    find (a, b) (zipRuns a b rs ss) i = (find a rs i, find b ss i) := by
  fun_induction zipRuns a b rs ss with
  | case1 => rfl
  | case2 s ss ih =>
    rw [find_cons, ih, find_cons]
    split <;> rfl
  | case3 r rs ih =>
    rw [find_cons, ih, find_cons]
    split <;> rfl
  | case4 r rs s ss hlt ih =>
    rw [find_cons, ih, find_cons, find_cons]
    split
    · rename_i hi
      rw [if_pos (le_of_lt (lt_of_le_of_lt hi hlt))]
    · rfl
  | case5 r rs s ss hge hlt ih =>
    rw [find_cons, ih, find_cons, find_cons]
    split
    · rename_i hi
      rw [if_pos (le_of_lt (lt_of_le_of_lt hi hlt))]
    · rfl
  | case6 r rs s ss hge hle ih =>
    have heq : s.last = r.last := by omega
    rw [find_cons, ih, find_cons, find_cons, heq]
    split <;> rfl

theorem mem_zipRuns {a : α} {b : β} {rs : List (Run α)} {ss : List (Run β)} {i : Nat}
    (h : i ∈ (zipRuns a b rs ss).map Run.last) : i ∈ rs.map Run.last ∨ i ∈ ss.map Run.last := by
  fun_induction zipRuns a b rs ss with
  | case1 => cases h
  | case2 s ss ih =>
    rcases List.mem_cons.1 h with rfl | h
    · exact .inr List.mem_cons_self
    · exact (ih h).imp_right (List.mem_cons_of_mem _)
  | case3 r rs ih =>
    rcases List.mem_cons.1 h with rfl | h
    · exact .inl List.mem_cons_self
    · exact (ih h).imp_left (List.mem_cons_of_mem _)
  | case4 r rs s ss hlt ih =>
    rcases List.mem_cons.1 h with rfl | h
    · exact .inl List.mem_cons_self
    · exact (ih h).imp_left (List.mem_cons_of_mem _)
  | case5 r rs s ss hge hlt ih =>
    rcases List.mem_cons.1 h with rfl | h
    · exact .inr List.mem_cons_self
    · exact (ih h).imp_right (List.mem_cons_of_mem _)
  | case6 r rs s ss hge hle ih =>
    rcases List.mem_cons.1 h with rfl | h
    · exact .inl List.mem_cons_self
    · exact (ih h).imp (List.mem_cons_of_mem _) (List.mem_cons_of_mem _)

theorem ordered_zipRuns (a : α) (b : β) {rs : List (Run α)} {ss : List (Run β)}
    (hr : (rs.map Run.last).Pairwise (· < ·)) (hs : (ss.map Run.last).Pairwise (· < ·)) :
    ((zipRuns a b rs ss).map Run.last).Pairwise (· < ·) := by
  -- what follows in the result comes from what follows in one of the lists
  fun_induction zipRuns a b rs ss with
  | case1 => exact .nil
  | case2 s ss ih =>
    rw [List.map_cons, List.pairwise_cons] at hs
    refine List.pairwise_cons.2 ⟨fun i hi => ?_, ih hr hs.2⟩
    exact hs.1 i ((mem_zipRuns hi).resolve_left List.not_mem_nil)
  | case3 r rs ih =>
    rw [List.map_cons, List.pairwise_cons] at hr
    refine List.pairwise_cons.2 ⟨fun i hi => ?_, ih hr.2 hs⟩
    exact hr.1 i ((mem_zipRuns hi).resolve_right List.not_mem_nil)
  | case4 r rs s ss hlt ih =>
    rw [List.map_cons, List.pairwise_cons] at hr
    refine List.pairwise_cons.2 ⟨fun i hi => ?_, ih hr.2 hs⟩
    rw [List.map_cons, List.pairwise_cons] at hs
    rcases mem_zipRuns hi with hi | hi
    · exact hr.1 i hi
    · rcases List.mem_cons.1 hi with rfl | hi
      · exact hlt
      · exact lt_trans hlt (hs.1 i hi)
  | case5 r rs s ss hge hlt ih =>
    rw [List.map_cons, List.pairwise_cons] at hs
    refine List.pairwise_cons.2 ⟨fun i hi => ?_, ih hr hs.2⟩
    rw [List.map_cons, List.pairwise_cons] at hr
    rcases mem_zipRuns hi with hi | hi
    · rcases List.mem_cons.1 hi with rfl | hi
      · exact hlt
      · exact lt_trans hlt (hr.1 i hi)
    · exact hs.1 i hi
  | case6 r rs s ss hge hle ih =>
    have heq : s.last = r.last := by omega
    rw [List.map_cons, List.pairwise_cons] at hr hs
    refine List.pairwise_cons.2 ⟨fun i hi => ?_, ih hr.2 hs.2⟩
    rcases mem_zipRuns hi with hi | hi
    · exact hr.1 i hi
    · exact heq ▸ hs.1 i hi

theorem zip_spec {l : Runs α} {k : Runs β} {r : Runs (α × β)} (h : l.zip k = .ok r)
    (hl : l.Ordered) (hk : k.Ordered) :
    l.last = k.last ∧ r.Ordered ∧ r.last = l.last ∧ ∀ i, r.item i = (l.item i, k.item i) := by
  rw [zip] at h
  split at h
  · rename_i hlast
    obtain rfl := Except.ok.inj h
    have hbounded : ∀ e ∈ (zipRuns l.final k.final l.runs k.runs).map Run.last, e < l.last := by
      intro e he
      rcases mem_zipRuns he with he | he
      · exact hl.bounded e he
      · exact hlast ▸ hk.bounded e he
    refine ⟨hlast, ⟨ordered_zipRuns _ _ hl.increasing hk.increasing, hbounded⟩, rfl, fun i => ?_⟩
    rw [item_eq_find, item_eq_find, item_eq_find, find_zipRuns]
  · cases h

theorem zipWithM_spec [DecidableEq γ] {f : α → β → Except Fault γ} {l : Runs α} {k : Runs β}
    {r : Runs γ} (h : l.zipWithM f k = .ok r) (hl : l.Ordered) (hk : k.Ordered) :
    l.last = k.last ∧ r.Ordered ∧ r.last = l.last ∧
      ∀ i, f (l.item i) (k.item i) = .ok (r.item i) := by
  simp only [zipWithM, bind_eq_ok] at h
  obtain ⟨pairs, hpairs, h⟩ := h
  obtain ⟨hlast, hord, hplast, hitems⟩ := zip_spec hpairs hl hk
  obtain ⟨hrord, hrlast, hritems⟩ := mapM_spec h hord
  refine ⟨hlast, hrord, hrlast.trans hplast, fun i => ?_⟩
  have := hritems i
  rwa [hitems i] at this

end RefineCheck.Runs
