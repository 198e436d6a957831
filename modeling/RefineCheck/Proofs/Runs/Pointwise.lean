/-
  RefineCheck.Proofs.Runs.Pointwise

  Arrays as total functions of their indices. Whatever sequence of operations an array comes
  from, its runs are the maximal pieces on which its elements are the same, and each operation
  does to the element at every index what it is told to do. Reading a range visits its maximal
  pieces, so combining one element for each of them combines all elements of the range.
-/

import Mathlib
import RefineCheck.Proofs.Runs.Canonical

namespace RefineCheck.Runs

variable {α β γ : Type}

/-! ## Arrays that can be made -/

/-- Arrays that come from constant ones by writing, mapping and pairing. -/
inductive Made : {α : Type} → Runs α → Prop
  | replicate {α : Type} (last : Nat) (fill : α) : Made (replicate last fill)
  | set {α : Type} [DecidableEq α] {l l' : Runs α} {i : Nat} {value : α} :
    Made l → l.set i value = .ok l' → Made l'
  | mapRange {α : Type} [DecidableEq α] {l l' : Runs α} {first last : Nat}
    {f : α → Except Fault α} : Made l → l.mapRangeM first last f = .ok l' → Made l'
  | zipWith {α β γ : Type} [DecidableEq γ] {l : Runs α} {k : Runs β} {r : Runs γ}
    {f : α → β → Except Fault γ} : Made l → Made k → l.zipWithM f k = .ok r → Made r
  | map {α β : Type} [DecidableEq β] {l : Runs α} (f : α → β) : Made l → Made (l.map f)
  | mapM {α β : Type} [DecidableEq β] {l : Runs α} {l' : Runs β} {f : α → Except Fault β} :
    Made l → l.mapM f = .ok l' → Made l'

/-- Every operation leaves runs that end exactly where the element changes. -/
theorem Made.canonical {l : Runs α} (h : l.Made) : l.Canonical := by
  induction h with
  | replicate last fill => exact canonical_replicate last fill
  | set _ hset ih => exact canonical_mapRangeM hset ih.toOrdered
  | mapRange _ hmap ih => exact canonical_mapRangeM hmap ih.toOrdered
  | zipWith _ _ hzip ihl ihk => exact canonical_zipWithM hzip ihl.toOrdered ihk.toOrdered
  | map f _ ih => exact canonical_map f ih.toOrdered
  | mapM _ hmap ih => exact canonical_mapFromM hmap ih.toOrdered

/-! ## Maximal pieces -/

/-- The pieces of a range on which a function is constant, in order. Neighbours have different
    values, so no piece can be made longer. -/
structure Pieces (item : Nat → α) (first last : Nat) (pieces : List (Segment α)) : Prop where
  tiles : Tiles item last first pieces
  differ : pieces.IsChain fun s t => s.value ≠ t.value

/-- Pieces that end where the function changes have neighbours with different values. -/
theorem Tiles.isChain {item : Nat → α} {last first : Nat} {pieces : List (Segment α)}
    (h : Tiles item last first pieces)
    (hends : ∀ s ∈ pieces, s.last < last → item s.last ≠ item (s.last + 1)) :
    pieces.IsChain fun s t => s.value ≠ t.value := by
  induction pieces generalizing first with
  | nil => exact .nil
  | cons s rest ih =>
    obtain ⟨-, hle, -, hitem, hrest⟩ := h
    rw [List.forall_mem_cons] at hends
    refine List.isChain_cons.2 ⟨fun t ht => ?_, ih hrest hends.2⟩
    cases rest with
    | nil => cases ht
    | cons t' rest =>
      obtain rfl : t' = t := Option.some.inj ht
      obtain ⟨-, hle', hlast', hitem', -⟩ := hrest
      rw [← hitem s.last hle le_rfl, ← hitem' (s.last + 1) le_rfl hle']
      exact hends.1 (by omega)

theorem Tiles.bounds {item : Nat → α} {last first : Nat} {pieces : List (Segment α)}
    (h : Tiles item last first pieces) :
    ∀ s ∈ pieces, first ≤ s.first ∧ s.first ≤ s.last ∧ s.last ≤ last := by
  induction pieces generalizing first with
  | nil => exact fun _ hs => absurd hs List.not_mem_nil
  | cons s rest ih =>
    obtain ⟨hfirst, hle, hlast, -, hrest⟩ := h
    refine List.forall_mem_cons.2 ⟨⟨hfirst.ge, hfirst ▸ hle, hlast⟩, fun t ht => ?_⟩
    obtain ⟨hstart, hbounds⟩ := ih hrest t ht
    exact ⟨by omega, hbounds⟩

theorem Tiles.increasing {item : Nat → α} {last first : Nat} {pieces : List (Segment α)}
    (h : Tiles item last first pieces) : (pieces.map Segment.first).Pairwise (· < ·) := by
  induction pieces generalizing first with
  | nil => exact .nil
  | cons s rest ih =>
    obtain ⟨rfl, hle, -, -, hrest⟩ := h
    refine List.pairwise_cons.2 ⟨fun start hstart => ?_, ih hrest⟩
    obtain ⟨t, ht, rfl⟩ := List.mem_map.1 hstart
    have := (hrest.bounds t ht).1
    omega

theorem last_of_mem_segmentsFrom {final : α} {last first : Nat} {runs : List (Run α)}
    {s : Segment α} (h : s ∈ segmentsFrom final last first runs) :
    s.last = last ∨ s.last ∈ runs.map Run.last := by
  induction runs generalizing first with
  | nil =>
    obtain rfl := List.mem_singleton.1 h
    exact .inl rfl
  | cons r rest ih =>
    rcases List.mem_cons.1 h with rfl | h
    · exact .inr List.mem_cons_self
    · exact (ih h).imp_right (List.mem_cons_of_mem _)

theorem Canonical.changes_after {l : Runs α} (hl : l.Canonical) {s : Segment α}
    (hs : s ∈ l.segments) (hlt : s.last < l.last) : l.item s.last ≠ l.item (s.last + 1) :=
  hl.changes _ ((last_of_mem_segmentsFrom hs).resolve_left hlt.ne)

theorem head?_segments (l : Runs α) : (l.segments.map Segment.first).head? = some 0 := by
  rw [segments]
  cases l.runs <;> rfl

/-- The runs of an array are its maximal pieces. -/
theorem Canonical.pieces {l : Runs α} (hl : l.Canonical) : Pieces l.item 0 l.last l.segments :=
  ⟨hl.tiles, hl.tiles.isChain fun _ hs => hl.changes_after hs⟩

/-! ## Ranges -/

/-- The part of a segment in a range. -/
def clip (first last : Nat) (s : Segment α) : Segment α :=
  ⟨max s.first first, min s.last last, s.value⟩

/-- The parts of pieces in a range follow each other from the first index of the range that the
    pieces reach. -/
theorem Tiles.clip {item : Nat → α} {upTo start first last : Nat} {pieces : List (Segment α)}
    (h : Tiles item upTo start pieces) (hrange : first ≤ last) (hlast : last ≤ upTo) :
    Tiles item last (min (max start first) (last + 1)) ((pieces.filter fun s =>
      (first ≤ s.last || s.last == upTo) && s.first ≤ last).map (Runs.clip first last)) := by
  induction pieces generalizing start with
  | nil =>
    obtain rfl : start = upTo + 1 := h
    show min (max (upTo + 1) first) (last + 1) = last + 1
    omega
  | cons s rest ih =>
    obtain ⟨rfl, hle, hupTo, hitem, hrest⟩ := h
    have ih := ih hrest
    rw [List.filter_cons]
    by_cases hkept : first ≤ s.last ∧ s.first ≤ last
    · -- the piece overlaps the range, and what follows starts after its part
      have hfrom : min (max s.first first) (last + 1) = max s.first first := by omega
      have hnext : min (max (s.last + 1) first) (last + 1) = min s.last last + 1 := by omega
      rw [hfrom, if_pos (by simp [hkept])]
      rw [hnext] at ih
      refine ⟨rfl, ?_, ?_, fun i hi hi' => ?_, ih⟩
      · show max s.first first ≤ min s.last last
        omega
      · show min s.last last ≤ last
        omega
      · have hi' : i ≤ min s.last last := hi'
        exact hitem i (by omega) (by omega)
    · -- the piece ends before the range or starts after it
      have hdropped : ((decide (first ≤ s.last) || s.last == upTo) && decide (s.first ≤ last)) =
          false := by
        rw [Bool.eq_false_iff]
        intro htest
        rw [Bool.and_eq_true, Bool.or_eq_true, decide_eq_true_eq, decide_eq_true_eq,
          beq_iff_eq] at htest
        omega
      have hnext : min (max (s.last + 1) first) (last + 1) =
          min (max s.first first) (last + 1) := by omega
      rw [hdropped, if_neg Bool.false_ne_true, ← hnext]
      exact ih

/-- Reading a range gives the parts of its segments. -/
theorem Ordered.within_ok {l : Runs α} (hl : l.Ordered) {first last : Nat}
    (hrange : first ≤ last) (hlast : last ≤ l.last) :
    ∃ pieces, l.within first last = .ok pieces ∧ Tiles l.item last first pieces ∧
      ∀ p ∈ pieces, ∃ s ∈ l.segments, clip first last s = p := by
  have htiles := hl.tiles.clip hrange hlast
  have hfrom : min (max 0 first) (last + 1) = first := by omega
  rw [hfrom] at htiles
  refine ⟨_, ?_, htiles, fun p hp => ?_⟩
  · rw [within, checkIndex, if_pos hlast, ok_bind]
    rfl
  · obtain ⟨s, hs, hclip⟩ := List.mem_map.1 hp
    exact ⟨s, List.mem_of_mem_filter hs, hclip⟩

/-- The pieces of a range are maximal where runs are. -/
theorem Canonical.within_ok {l : Runs α} (hl : l.Canonical) {first last : Nat}
    (hrange : first ≤ last) (hlast : last ≤ l.last) :
    ∃ pieces, l.within first last = .ok pieces ∧ Pieces l.item first last pieces := by
  obtain ⟨pieces, hwithin, htiles, hparts⟩ := hl.toOrdered.within_ok hrange hlast
  refine ⟨pieces, hwithin, htiles, htiles.isChain fun p hp hlt => ?_⟩
  obtain ⟨s, hs, rfl⟩ := hparts p hp
  have hlt : min s.last last < last := hlt
  have hend : min s.last last = s.last := by omega
  show l.item (min s.last last) ≠ l.item (min s.last last + 1)
  rw [hend]
  exact hl.changes_after hs (by omega)

/-! ## Combining the elements of a range -/

section Combining

variable {f : α → α → α} [Std.Associative f] [Std.IdempotentOp f]

/-- Combining with one element several times is combining with it once. -/
theorem foldl_constant (acc a : α) (n : Nat) :
    (List.replicate (n + 1) a).foldl f acc = f acc a := by
  induction n generalizing acc with
  | zero => rfl
  | succ n ih =>
    have hassoc : f (f acc a) a = f acc (f a a) := Std.Associative.assoc acc a a
    have hidem : f a a = a := Std.IdempotentOp.idempotent a
    rw [List.replicate_succ, List.foldl_cons, ih, hassoc, hidem]

/-- One element for each piece stands for all elements of the range. -/
theorem Tiles.foldl {item : Nat → α} {last first : Nat} {pieces : List (Segment α)}
    (h : Tiles item last first pieces) (acc : α) :
    (pieces.map Segment.value).foldl f acc =
      ((List.range' first (last + 1 - first)).map item).foldl f acc := by
  induction pieces generalizing first acc with
  | nil =>
    obtain rfl : first = last + 1 := h
    rw [Nat.sub_self]
    rfl
  | cons s rest ih =>
    obtain ⟨-, hle, hlast, hitem, hrest⟩ := h
    have hcount : last + 1 - first = (s.last - first + 1) + (last + 1 - (s.last + 1)) := by omega
    have hnext : first + 1 * (s.last - first + 1) = s.last + 1 := by omega
    -- the elements of a piece are all the same, so they combine like one
    have hpiece : (List.range' first (s.last - first + 1)).map item =
        List.replicate (s.last - first + 1) s.value := by
      rw [List.eq_replicate_iff]
      refine ⟨by rw [List.length_map, List.length_range'], fun a ha => ?_⟩
      obtain ⟨i, hi, rfl⟩ := List.mem_map.1 ha
      rw [List.mem_range'_1] at hi
      exact hitem i hi.1 (by omega)
    rw [hcount, ← List.range'_append, List.map_append, List.foldl_append, hpiece, foldl_constant,
      hnext, ← ih hrest, List.map_cons, List.foldl_cons]

end Combining

theorem foldlM_ok (f : α → β → α) (acc : α) (xs : List β) :
    xs.foldlM (fun a b => (Except.ok (f a b) : Except Fault α)) acc = .ok (xs.foldl f acc) := by
  induction xs generalizing acc with
  | nil => rfl
  | cons x xs ih => exact ih (f acc x)

/-- Reducing a range combines all its elements. -/
theorem Canonical.reduce?_ok {l : Runs α} (hl : l.Canonical) {first last : Nat}
    (hrange : first ≤ last) (hlast : last ≤ l.last) (f : α → α → α) [Std.Associative f]
    [Std.IdempotentOp f] :
    l.reduce? first last (fun a b => .ok (f a b)) =
      .ok (some (((List.range' (first + 1) (last - first)).map l.item).foldl f (l.item first))) := by
  obtain ⟨pieces, hwithin, hpieces⟩ := hl.within_ok hrange hlast
  have htiles := hpieces.tiles
  rw [reduce?, hwithin, ok_bind]
  cases pieces with
  | nil =>
    obtain rfl : first = last + 1 := htiles
    omega
  | cons s rest =>
    have hvalue : l.item first = s.value := htiles.2.2.2.1 first le_rfl htiles.2.1
    -- the first element counts twice on both sides
    have hidem : f s.value s.value = s.value := Std.IdempotentOp.idempotent s.value
    have hfold := htiles.foldl (f := f) s.value
    have hcount : last + 1 - first = last - first + 1 := by omega
    rw [hcount, List.range'_succ, List.map_cons, List.foldl_cons, List.map_cons, List.foldl_cons,
      hvalue, hidem, List.foldl_map] at hfold
    show (rest.foldlM (fun acc t => Except.ok (f acc t.value)) s.value >>= _) = _
    rw [foldlM_ok fun acc (t : Segment α) => f acc t.value, ok_bind, hvalue, ← hfold]
    rfl

/-! ## Elements after an operation -/

/-- An array with a last index and an element at each index up to it. -/
def Reads (l : Runs α) (last : Nat) (a : Nat → Except Fault α) : Prop :=
  l.last = last ∧ ∀ i ≤ last, l.get i = a i

theorem reads_of_items {l : Runs α} {last : Nat} {a : Nat → Except Fault α} (hlast : l.last = last)
    (h : ∀ i ≤ last, a i = .ok (l.item i)) : l.Reads last a :=
  ⟨hlast, fun i hi => (get_ok (hlast ▸ hi)).trans (h i hi).symm⟩

theorem reads_replicate (last : Nat) (fill : α) : (replicate last fill).Reads last fun _ => .ok fill :=
  reads_of_items rfl fun _ _ => rfl

theorem Ordered.set_reads [DecidableEq α] {l : Runs α} (hl : l.Ordered) {i : Nat} (hi : i ≤ l.last)
    (value : α) : ∃ l', l.set i value = .ok l' ∧
      l'.Reads l.last fun j => if j = i then .ok value else l.get j := by
  obtain ⟨l', hset, -, hlast, hitems⟩ := set_ok hl hi value
  refine ⟨l', hset, reads_of_items hlast fun j hj => ?_⟩
  rw [hitems j hj]
  split
  · rfl
  · exact get_ok hj

/-- All runs can be mapped if the function has a result at each index, given where its run starts. -/
theorem mapRunsM_ok_of_items {f : Nat → α → Except Fault β} {final : α} {runs : List (Run α)}
    {first last : Nat} (hsorted : (runs.map Run.last).Pairwise (· < ·))
    (hfirst : ∀ e ∈ runs.map Run.last, first ≤ e) (hbounded : ∀ e ∈ runs.map Run.last, e < last)
    (hle : first ≤ last)
    (h : ∀ i, first ≤ i → i ≤ last → ∃ b, f (start first runs i) (find final runs i) = .ok b) :
    ∃ runs' next b, mapRunsM f first runs = .ok (runs', next) ∧ f next final = .ok b := by
  induction runs generalizing first with
  | nil =>
    obtain ⟨b, hb⟩ := h first le_rfl hle
    exact ⟨[], first, b, rfl, hb⟩
  | cons r rest ih =>
    rw [List.map_cons, List.pairwise_cons] at hsorted
    rw [List.map_cons, List.forall_mem_cons] at hfirst hbounded
    obtain ⟨b, hb⟩ := h first le_rfl hle
    rw [start, if_pos hfirst.1, find, if_pos hfirst.1] at hb
    -- indices after the first run are looked up in the rest
    have hafter (i : Nat) (hi : r.last + 1 ≤ i) (hlast : i ≤ last) :
        ∃ b, f (start (r.last + 1) rest i) (find final rest i) = .ok b := by
      have hrun := h i (by omega) hlast
      rwa [start, if_neg (by omega), find, if_neg (by omega)] at hrun
    obtain ⟨runs', next, c, hrest, hc⟩ := ih hsorted.2 hsorted.1 hbounded.2 hbounded.1 hafter
    refine ⟨⟨r.last, b⟩ :: runs', next, c, ?_, hc⟩
    rw [mapRunsM, hb, ok_bind, hrest]
    rfl

/-- A range can be mapped if the function has a result at each of its indices. -/
theorem Ordered.mapRangeM_reads [DecidableEq α] {l : Runs α} (hl : l.Ordered) {first last : Nat}
    (hrange : first ≤ last) (hlast : last ≤ l.last) {f : α → Except Fault α}
    (hf : ∀ i, first ≤ i → i ≤ last → ∃ b, f (l.item i) = .ok b) :
    ∃ l', l.mapRangeM first last f = .ok l' ∧
      l'.Reads l.last fun i => if first ≤ i ∧ i ≤ last then l.get i >>= f else l.get i := by
  -- after the cuts no run crosses a bound of the range, so where a run starts decides about all of it
  have hcut := hl.cutRange hrange hlast
  obtain ⟨l', h⟩ : ∃ l', l.mapRangeM first last f = .ok l' := by
    let g (start : Nat) (value : α) := if first ≤ start ∧ start ≤ last then f value else .ok value
    have hg (i : Nat) (_ : 0 ≤ i) (hi : i ≤ l.last) : ∃ b, g (start 0 (l.cutRange first last) i)
        (find l.final (l.cutRange first last) i) = .ok b := by
      rw [find_cutRange]
      by_cases hin : first ≤ start 0 (l.cutRange first last) i ∧
          start 0 (l.cutRange first last) i ≤ last
      · obtain ⟨h1, h2⟩ := (start_cutRange_iff hl hrange hlast hi).1 hin
        obtain ⟨b, hb⟩ := hf i h1 h2
        exact ⟨b, (if_pos hin).trans hb⟩
      · exact ⟨l.item i, if_neg hin⟩
    obtain ⟨runs', next, b, hruns, hb⟩ := mapRunsM_ok_of_items hcut.increasing
      (fun _ _ => Nat.zero_le _) hcut.bounded (Nat.zero_le _) hg
    refine ⟨⟨compress b runs', b, l.last⟩, ?_⟩
    rw [mapRangeM, checkIndex, if_pos hlast, ok_bind, if_neg (not_lt.2 hrange)]
    show mapFromM g ({ l with runs := l.cutRange first last } : Runs α) = _
    rw [mapFromM, hruns, ok_bind]
    show (g next l.final >>= _) = _
    rw [hb]
    rfl
  obtain ⟨-, -, hlast', hitems⟩ := mapRangeM_spec h hl
  refine ⟨l', h, reads_of_items hlast' fun i hi => ?_⟩
  have hitem := hitems i hi
  rw [get_ok hi, ok_bind]
  split
  · rename_i hin
    rwa [if_pos hin] at hitem
  · rename_i hout
    rw [if_neg hout] at hitem
    rw [hitem]

theorem Ordered.map_reads [DecidableEq β] {l : Runs α} (hl : l.Ordered) (f : α → β) :
    (l.map f).Reads l.last fun i => f <$> l.get i := by
  obtain ⟨-, hlast, hitems⟩ := map_spec f hl
  refine reads_of_items hlast fun i hi => ?_
  rw [hitems i, get_ok hi]
  rfl

theorem Ordered.mapM_reads [DecidableEq β] {l : Runs α} (hl : l.Ordered) {f : α → Except Fault β}
    (hf : ∀ i ≤ l.last, ∃ b, f (l.item i) = .ok b) :
    ∃ l', l.mapM f = .ok l' ∧ l'.Reads l.last fun i => l.get i >>= f := by
  obtain ⟨l', h⟩ := mapM_ok hl hf
  obtain ⟨-, hlast, hitems⟩ := mapM_spec h hl
  refine ⟨l', h, reads_of_items hlast fun i hi => ?_⟩
  rw [get_ok hi, ok_bind, hitems i]

theorem Ordered.zipWithM_reads [DecidableEq γ] {l : Runs α} {k : Runs β} (hl : l.Ordered)
    (hk : k.Ordered) (hlast : l.last = k.last) {f : α → β → Except Fault γ}
    (hf : ∀ i ≤ l.last, ∃ c, f (l.item i) (k.item i) = .ok c) :
    ∃ r, l.zipWithM f k = .ok r ∧
      r.Reads l.last (fun i => do f (← l.get i) (← k.get i)) := by
  obtain ⟨r, h, -, hrlast, hitems⟩ := zipWithM_ok hl hk hlast hf
  refine ⟨r, h, reads_of_items hrlast fun i hi => ?_⟩
  rw [get_ok hi, get_ok (hlast ▸ hi), ok_bind, ok_bind, hitems i]

/-! ## Total functions -/

/-- An array that was made by any sequence of operations is a total function of its indices. Its runs
    are the maximal pieces of that function, writing, mapping and pairing change it index by index,
    reading a range visits the maximal pieces of the range, reducing combines all elements of it, a
    test of two arrays is made at every index, and two arrays are equal if they have the same elements
    at the same indices. -/
theorem Made.total_function {l : Runs α} (h : l.Made) :
    (∀ i ≤ l.last, l.get i = .ok (l.item i)) ∧
    ((l.segments.map Segment.first).head? = some 0 ∧
      (l.segments.map Segment.first).Pairwise (· < ·) ∧
      (∀ s ∈ l.segments, s.first ≤ s.last ∧ s.last ≤ l.last) ∧
      Pieces l.item 0 l.last l.segments) ∧
    (∀ last (fill : α), (Runs.replicate last fill).Reads last fun _ => .ok fill) ∧
    (∀ [DecidableEq α] (i : Nat) (value : α), i ≤ l.last → ∃ l', l.set i value = .ok l' ∧
      l'.Reads l.last fun j => if j = i then .ok value else l.get j) ∧
    (∀ [DecidableEq α] (first last : Nat) (f : α → Except Fault α), first ≤ last → last ≤ l.last →
      (∀ i, first ≤ i → i ≤ last → ∃ b, f (l.item i) = .ok b) →
      ∃ l', l.mapRangeM first last f = .ok l' ∧
        l'.Reads l.last fun i => if first ≤ i ∧ i ≤ last then l.get i >>= f else l.get i) ∧
    (∀ {β : Type} [DecidableEq β] (f : α → β), (l.map f).Reads l.last fun i => f <$> l.get i) ∧
    (∀ {β : Type} [DecidableEq β] (f : α → Except Fault β),
      (∀ i ≤ l.last, ∃ b, f (l.item i) = .ok b) →
      ∃ l', l.mapM f = .ok l' ∧ l'.Reads l.last fun i => l.get i >>= f) ∧
    (∀ {β γ : Type} [DecidableEq γ] (k : Runs β) (f : α → β → Except Fault γ), k.Made →
      l.last = k.last → (∀ i ≤ l.last, ∃ c, f (l.item i) (k.item i) = .ok c) →
      ∃ r, l.zipWithM f k = .ok r ∧ r.Reads l.last (fun i => do f (← l.get i) (← k.get i))) ∧
    (∀ first last, first ≤ last → last ≤ l.last →
      ∃ pieces, l.within first last = .ok pieces ∧ Pieces l.item first last pieces) ∧
    (∀ (first last : Nat) (f : α → α → α) [Std.Associative f] [Std.IdempotentOp f],
      first ≤ last → last ≤ l.last → l.reduce? first last (fun a b => .ok (f a b)) =
        .ok (some (((List.range' (first + 1) (last - first)).map l.item).foldl f (l.item first)))) ∧
    (∀ {β : Type} (k : Runs β) (p : α → β → Bool), k.Made → l.last = k.last →
      ∃ b, l.allM (fun x y => .ok (p x y)) k = .ok b ∧
        (b = true ↔ ∀ i ≤ l.last, p (l.item i) (k.item i) = true)) ∧
    ∀ k : Runs α, k.Made → (l = k ↔ l.last = k.last ∧ ∀ i ≤ l.last, l.get i = k.get i) := by
  have hl := h.canonical
  have hord := hl.toOrdered
  refine ⟨fun i hi => get_ok hi,
    ⟨head?_segments l, hl.tiles.increasing, fun s hs => (hl.tiles.bounds s hs).2, hl.pieces⟩,
    reads_replicate, fun i value hi => hord.set_reads hi value,
    fun first last f hrange hlast hf => hord.mapRangeM_reads hrange hlast hf,
    fun f => hord.map_reads f, fun f hf => hord.mapM_reads hf,
    fun k f hk hlast hf => hord.zipWithM_reads hk.canonical.toOrdered hlast hf,
    fun first last hrange hlast => hl.within_ok hrange hlast,
    fun first last f _ _ hrange hlast => hl.reduce?_ok hrange hlast f,
    fun k p hk hlast => ?_, fun k hk => ⟨?_, ?_⟩⟩
  · -- a test that cannot fail
    obtain ⟨b, hb, hall⟩ := allM_ok (p := fun x y => .ok (p x y)) hord hk.canonical.toOrdered hlast
      fun i _ => ⟨p (l.item i) (k.item i), rfl⟩
    exact ⟨b, hb, hall.trans (forall₂_congr fun i _ => by rw [Except.ok.injEq])⟩
  · rintro rfl
    exact ⟨rfl, fun _ _ => rfl⟩
  · rintro ⟨hlast, hget⟩
    refine hl.ext hk.canonical hlast fun i hi => ?_
    have hi' := hget i hi
    rw [get_ok hi, get_ok (hlast ▸ hi)] at hi'
    exact Except.ok.inj hi'

/-- The last index may be the largest word: adding five to the last two elements of an array that is
    zero up to its last element leaves every other element as it is. -/
theorem total_function_at_largest_index :
    (⟨[⟨2 ^ 64 - 2, 0⟩], 1, 2 ^ 64 - 1⟩ : Runs Nat).Made ∧
    ∃ l', (⟨[⟨2 ^ 64 - 2, 0⟩], 1, 2 ^ 64 - 1⟩ : Runs Nat).mapRangeM (2 ^ 64 - 2) (2 ^ 64 - 1)
      (fun n => .ok (n + 5)) = .ok l' ∧ l'.get 0 = .ok 0 ∧ l'.get (2 ^ 64 - 1) = .ok 6 := by
  have hset : (replicate (2 ^ 64 - 1) 0).set (2 ^ 64 - 1) 1 =
      .ok ⟨[⟨2 ^ 64 - 2, 0⟩], 1, 2 ^ 64 - 1⟩ := rfl
  have hmade := Made.set (.replicate (2 ^ 64 - 1) 0) hset
  obtain ⟨-, -, -, -, hmap, -⟩ := Made.total_function hmade
  obtain ⟨l', h, -, hreads⟩ := hmap (2 ^ 64 - 2) (2 ^ 64 - 1) (fun n => .ok (n + 5)) (by decide)
    le_rfl fun i _ _ => ⟨_, rfl⟩
  exact ⟨hmade, l', h, (hreads 0 (Nat.zero_le _)).trans rfl, (hreads _ le_rfl).trans rfl⟩

end RefineCheck.Runs
