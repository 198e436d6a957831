/-
  RefineCheck.Proofs.Runs.Total

  When operations on arrays succeed. In an array without empty runs every stored element is the
  element of an index, so an operation that visits all runs succeeds if it does at every index.
-/

import Mathlib
import RefineCheck.Proofs.Runs

namespace RefineCheck.Runs

variable {α β γ : Type}

/-! ## Stored elements -/

theorem find_last (final : α) {runs : List (Run α)}
    (h : (runs.map Run.last).Pairwise (· < ·)) {r : Run α} (hr : r ∈ runs) :
    find final runs r.last = r.value := by
  induction runs with
  | nil => cases hr
  | cons s rest ih =>
    rw [List.map_cons, List.pairwise_cons] at h
    rw [find]
    rcases List.mem_cons.1 hr with rfl | hr
    · rw [if_pos le_rfl]
    · have hlt := h.1 r.last (List.mem_map_of_mem hr)
      rw [if_neg (not_le.2 hlt)]
      exact ih h.2 hr

theorem find_of_lt (final : α) {runs : List (Run α)} {i : Nat}
    (h : ∀ e ∈ runs.map Run.last, e < i) : find final runs i = final := by
  induction runs with
  | nil => rfl
  | cons r rest ih =>
    have hlt := h r.last List.mem_cons_self
    rw [find, if_neg (not_le.2 hlt)]
    exact ih fun e he => h e (List.mem_cons_of_mem _ he)

variable {l : Runs α} {k : Runs β}

theorem Ordered.run_value (hl : l.Ordered) {r : Run α} (hr : r ∈ l.runs) :
    r.last ≤ l.last ∧ l.item r.last = r.value := by
  refine ⟨(hl.bounded _ (List.mem_map_of_mem hr)).le, ?_⟩
  rw [item_eq_find]
  exact find_last _ hl.increasing hr

theorem Ordered.final_value (hl : l.Ordered) : l.item l.last = l.final := by
  rw [item_eq_find]
  exact find_of_lt _ hl.bounded

/-! ## Functions on elements -/

theorem mapRunsM_ok {f : Nat → α → Except Fault β} {runs : List (Run α)}
    (h : ∀ r ∈ runs, ∀ i, ∃ b, f i r.value = .ok b) (first : Nat) :
    ∃ runs' next, mapRunsM f first runs = .ok (runs', next) := by
  induction runs generalizing first with
  | nil => exact ⟨[], first, rfl⟩
  | cons r rest ih =>
    obtain ⟨b, hb⟩ := h r List.mem_cons_self first
    obtain ⟨runs', next, hrest⟩ := ih (fun s hs => h s (List.mem_cons_of_mem _ hs)) (r.last + 1)
    refine ⟨⟨r.last, b⟩ :: runs', next, ?_⟩
    rw [mapRunsM, hb, ok_bind, hrest]
    rfl

theorem mapFromM_ok [DecidableEq β] {f : Nat → α → Except Fault β}
    (hruns : ∀ r ∈ l.runs, ∀ i, ∃ b, f i r.value = .ok b) (hfinal : ∀ i, ∃ b, f i l.final = .ok b) :
    ∃ l', l.mapFromM f = .ok l' := by
  obtain ⟨runs', next, hrest⟩ := mapRunsM_ok hruns 0
  obtain ⟨b, hb⟩ := hfinal next
  refine ⟨⟨compress b runs', b, l.last⟩, ?_⟩
  rw [mapFromM, hrest, ok_bind]
  show (f next l.final >>= _) = _
  rw [hb]
  rfl

theorem mapM_ok [DecidableEq β] {f : α → Except Fault β} (hl : l.Ordered)
    (h : ∀ i ≤ l.last, ∃ b, f (l.item i) = .ok b) : ∃ l', l.mapM f = .ok l' := by
  refine mapFromM_ok (fun r hr _ => ?_) fun _ => ?_
  · obtain ⟨hle, hitem⟩ := hl.run_value hr
    exact hitem ▸ h _ hle
  · exact hl.final_value ▸ h _ le_rfl

theorem get_ok {i : Nat} (h : i ≤ l.last) : l.get i = .ok (l.item i) := by
  rw [get, checkIndex, if_pos h]
  rfl

/-- The element at an index in range can be replaced. -/
theorem set_ok [DecidableEq α] (hl : l.Ordered) {i : Nat} (hi : i ≤ l.last) (value : α) :
    ∃ l', l.set i value = .ok l' ∧ l'.Ordered ∧ l'.last = l.last ∧
      ∀ j ≤ l.last, l'.item j = if j = i then value else l.item j := by
  have hsome (start : Nat) (a : α) :
      ∃ b, (if i ≤ start ∧ start ≤ i then Except.ok value else .ok a : Except Fault α) = .ok b := by
    split
    · exact ⟨_, rfl⟩
    · exact ⟨_, rfl⟩
  obtain ⟨l', h⟩ : ∃ l', l.set i value = .ok l' := by
    rw [set, mapRangeM, checkIndex, if_pos hi, ok_bind, if_neg (lt_irrefl i)]
    exact mapFromM_ok (fun r _ start => hsome start r.value) fun start => hsome start _
  exact ⟨l', h, (set_spec h hl).2⟩

/-! ## Pairs -/

theorem zip_ok (hl : l.Ordered) (hk : k.Ordered) (h : l.last = k.last) :
    ∃ r, l.zip k = .ok r ∧ r.Ordered ∧ r.last = l.last ∧ ∀ i, r.item i = (l.item i, k.item i) := by
  obtain ⟨r, hr⟩ : ∃ r, l.zip k = .ok r := ⟨_, if_pos h⟩
  exact ⟨r, hr, (zip_spec hr hl hk).2⟩

theorem zipWithM_ok [DecidableEq γ] {f : α → β → Except Fault γ} (hl : l.Ordered) (hk : k.Ordered)
    (hlast : l.last = k.last) (h : ∀ i ≤ l.last, ∃ c, f (l.item i) (k.item i) = .ok c) :
    ∃ r, l.zipWithM f k = .ok r ∧ r.Ordered ∧ r.last = l.last ∧
      ∀ i, f (l.item i) (k.item i) = .ok (r.item i) := by
  obtain ⟨pairs, hpairs, hord, hplast, hitems⟩ := zip_ok hl hk hlast
  obtain ⟨r, hr⟩ : ∃ r, pairs.mapM (fun p => f p.1 p.2) = .ok r := by
    refine mapM_ok hord fun i hi => ?_
    rw [hitems i]
    exact h i (hplast ▸ hi)
  have hzip : l.zipWithM f k = .ok r := by
    rw [zipWithM, hpairs]
    exact hr
  exact ⟨r, hzip, (zipWithM_spec hzip hl hk).2⟩

/-! ## Segments -/

/-- Segments that follow each other from an index to the last one, each with the element of all its
    indices. -/
def Tiles (item : Nat → α) (last : Nat) : (first : Nat) → List (Segment α) → Prop
  | first, [] => first = last + 1
  | first, s :: rest => s.first = first ∧ first ≤ s.last ∧ s.last ≤ last ∧
    (∀ i, first ≤ i → i ≤ s.last → item i = s.value) ∧ Tiles item last (s.last + 1) rest

theorem tiles_segmentsFrom {final : α} {item : Nat → α} {last first : Nat} {runs : List (Run α)}
    (hsorted : (runs.map Run.last).Pairwise (· < ·)) (hbounded : ∀ e ∈ runs.map Run.last, e < last)
    (hfirst : ∀ e ∈ runs.map Run.last, first ≤ e) (hle : first ≤ last)
    (hitem : ∀ i, first ≤ i → item i = find final runs i) :
    Tiles item last first (segmentsFrom final last first runs) := by
  induction runs generalizing first with
  | nil => exact ⟨rfl, hle, le_rfl, fun i hi _ => hitem i hi, rfl⟩
  | cons r rest ih =>
    rw [List.map_cons, List.pairwise_cons] at hsorted
    have hlt := hbounded r.last List.mem_cons_self
    have hr := hfirst r.last List.mem_cons_self
    refine ⟨rfl, hr, hlt.le, fun i hi hle => ?_, ?_⟩
    · rw [hitem i hi, find, if_pos hle]
    · refine ih hsorted.2 (fun e he => hbounded e (List.mem_cons_of_mem _ he)) hsorted.1 hlt ?_
      intro i hi
      have hi : r.last < i := hi
      rw [hitem i (by omega), find, if_neg (by omega)]

theorem Ordered.tiles (hl : l.Ordered) : Tiles l.item l.last 0 l.segments :=
  tiles_segmentsFrom hl.increasing hl.bounded (fun _ _ => Nat.zero_le _) (Nat.zero_le _)
    fun i _ => item_eq_find l i

/-- Each segment has the element of its first index. -/
theorem Tiles.value {item : Nat → α} {last first : Nat} {segments : List (Segment α)}
    (h : Tiles item last first segments) {s : Segment α} (hs : s ∈ segments) :
    s.first ≤ last ∧ item s.first = s.value := by
  induction segments generalizing first with
  | nil => cases hs
  | cons t rest ih =>
    obtain ⟨rfl, hle, hlast, hitem, hrest⟩ := h
    rcases List.mem_cons.1 hs with rfl | hs
    · exact ⟨hle.trans hlast, hitem _ le_rfl hle⟩
    · exact ih hrest hs

/-- Each index from the first on belongs to a segment. -/
theorem Tiles.exists_mem {item : Nat → α} {last first : Nat} {segments : List (Segment α)}
    (h : Tiles item last first segments) {i : Nat} (hfirst : first ≤ i) (hi : i ≤ last) :
    ∃ s ∈ segments, item i = s.value := by
  induction segments generalizing first with
  | nil =>
    obtain rfl : first = last + 1 := h
    omega
  | cons s rest ih =>
    obtain ⟨-, -, -, hitem, hrest⟩ := h
    by_cases hs : i ≤ s.last
    · exact ⟨s, List.mem_cons_self, hitem i hfirst hs⟩
    · obtain ⟨t, ht, hvalue⟩ := ih hrest (by omega)
      exact ⟨t, List.mem_cons_of_mem _ ht, hvalue⟩

/-- A test of all segments is a test of all elements. -/
theorem Ordered.all_segments (hl : l.Ordered) (p : α → Bool) :
    (l.segments.all fun s => p s.value) = true ↔ ∀ i ≤ l.last, p (l.item i) = true := by
  rw [List.all_eq_true]
  constructor
  · intro h i hi
    obtain ⟨s, hs, hvalue⟩ := hl.tiles.exists_mem (Nat.zero_le i) hi
    rw [hvalue]
    exact h s hs
  · intro h s hs
    obtain ⟨hle, hvalue⟩ := hl.tiles.value hs
    rw [← hvalue]
    exact h _ hle

/-- Pairing takes elements that are stored in the first array, whatever the second one is. -/
theorem fst_mem_zipRuns {a : α} {b : β} {rs : List (Run α)} {ss : List (Run β)} {r : Run (α × β)}
    (h : r ∈ zipRuns a b rs ss) : r.value.1 = a ∨ ∃ q ∈ rs, q.value = r.value.1 := by
  fun_induction zipRuns a b rs ss with
  | case1 => cases h
  | case2 s ss ih =>
    rcases List.mem_cons.1 h with rfl | h
    · exact .inl rfl
    · exact ih h
  | case3 q rs ih | case4 q rs s ss hlt ih | case6 q rs s ss hge hle ih =>
    rcases List.mem_cons.1 h with rfl | h
    · exact .inr ⟨q, List.mem_cons_self, rfl⟩
    · exact (ih h).imp_right (Exists.imp fun _ hq => ⟨List.mem_cons_of_mem _ hq.1, hq.2⟩)
  | case5 q rs s ss hge hlt ih =>
    rcases List.mem_cons.1 h with rfl | h
    · exact .inr ⟨q, List.mem_cons_self, rfl⟩
    · exact ih h

theorem value_of_mem_segmentsFrom {final : α} {last first : Nat} {runs : List (Run α)}
    {s : Segment α} (h : s ∈ segmentsFrom final last first runs) :
    s.value = final ∨ ∃ r ∈ runs, r.value = s.value := by
  induction runs generalizing first with
  | nil =>
    obtain rfl := List.mem_singleton.1 h
    exact .inl rfl
  | cons r rest ih =>
    rcases List.mem_cons.1 h with rfl | h
    · exact .inr ⟨r, List.mem_cons_self, rfl⟩
    · exact (ih h).imp_right fun ⟨q, hq, hv⟩ => ⟨q, List.mem_cons_of_mem _ hq, hv⟩

theorem fst_mem_zip {r : Runs (α × β)} (hl : l.Ordered) (h : l.zip k = .ok r)
    {s : Segment (α × β)} (hs : s ∈ r.segments) : ∃ i ≤ l.last, l.item i = s.value.1 := by
  rw [zip] at h
  split at h
  · obtain rfl := Except.ok.inj h
    have hfinal : ∃ i ≤ l.last, l.item i = l.final := ⟨_, le_rfl, hl.final_value⟩
    rcases value_of_mem_segmentsFrom hs with hv | ⟨q, hq, hv⟩
    · rw [hv]
      exact hfinal
    · rcases fst_mem_zipRuns hq with hfst | ⟨q', hq', hfst⟩
      · rw [← hv, hfst]
        exact hfinal
      · rw [← hv, ← hfst]
        exact ⟨_, hl.run_value hq'⟩
  · cases h

theorem mapM_tests {p : α → Except Fault Bool} {xs : List α} (h : ∀ x ∈ xs, ∃ b, p x = .ok b) :
    ∃ outcomes, xs.mapM p = .ok outcomes ∧
      (outcomes.all id = true ↔ ∀ x ∈ xs, p x = .ok true) := by
  induction xs with
  | nil => exact ⟨[], rfl, by simp⟩
  | cons x rest ih =>
    obtain ⟨b, hb⟩ := h x List.mem_cons_self
    obtain ⟨outcomes, hrest, hall⟩ := ih fun y hy => h y (List.mem_cons_of_mem _ hy)
    refine ⟨b :: outcomes, ?_, ?_⟩
    · rw [List.mapM_cons, hb, ok_bind, hrest]
      rfl
    · rw [List.all_cons, Bool.and_eq_true, hall, List.forall_mem_cons, hb, Except.ok.injEq]
      rfl

/-- A test of all indices succeeds if it does at each, and holds exactly if it does at each. -/
theorem allM_ok {p : α → β → Except Fault Bool} (hl : l.Ordered) (hk : k.Ordered)
    (hlast : l.last = k.last) (h : ∀ i ≤ l.last, ∃ b, p (l.item i) (k.item i) = .ok b) :
    ∃ b, l.allM p k = .ok b ∧ (b = true ↔ ∀ i ≤ l.last, p (l.item i) (k.item i) = .ok true) := by
  obtain ⟨pairs, hpairs, hord, hplast, hitems⟩ := zip_ok hl hk hlast
  have htiles := hord.tiles
  have htests (s : Segment (α × β)) (hs : s ∈ pairs.segments) :
      ∃ b, p s.value.1 s.value.2 = .ok b := by
    obtain ⟨hle, hvalue⟩ := htiles.value hs
    rw [← hvalue, hitems]
    exact h _ (hplast ▸ hle)
  obtain ⟨outcomes, houtcomes, hall⟩ :=
    mapM_tests (p := fun s : Segment (α × β) => p s.value.1 s.value.2) htests
  refine ⟨outcomes.all id, ?_, hall.trans ⟨fun htrue i hi => ?_, fun htrue s hs => ?_⟩⟩
  · rw [allM, hpairs, ok_bind, houtcomes]
    rfl
  · obtain ⟨s, hs, hvalue⟩ := htiles.exists_mem (Nat.zero_le i) (hplast.symm ▸ hi)
    have hp := htrue s hs
    rwa [← hvalue, hitems] at hp
  · obtain ⟨hle, hvalue⟩ := htiles.value hs
    rw [← hvalue, hitems]
    exact htrue _ (hplast ▸ hle)

end RefineCheck.Runs
