/-
  RefineCheck.Proofs.State.Text

  States are stored under their texts. The text of a state determines its members: between states
  of one shape it can be split in only one way into the texts of the values, and values with the
  same text have the same members.
-/

import Mathlib
import RefineCheck.Proofs.Property.Readable
import RefineCheck.Proofs.Shape

namespace RefineCheck

/-! ## Splitting texts -/

namespace Text

/-- A text is split in only one way into a start of characters of a class and the rest. -/
theorem split_unique {p : Char → Bool} {xs ys r r' : List Char} (hx : ∀ c ∈ xs, p c = true)
    (hy : ∀ c ∈ ys, p c = true) (hr : ∀ c ∈ r.head?, p c = false)
    (hr' : ∀ c ∈ r'.head?, p c = false) (h : xs ++ r = ys ++ r') : xs = ys ∧ r = r' := by
  obtain ⟨htake, hdrop⟩ := Property.span_append hx hr
  obtain ⟨htake', hdrop'⟩ := Property.span_append hy hr'
  rw [h] at htake hdrop
  exact ⟨htake.symm.trans htake', hdrop.symm.trans hdrop'⟩

/-- A text is split in only one way at the first occurrence of a character. -/
theorem split_at {x : Char} {xs ys r r' : List Char} (hx : x ∉ xs) (hy : x ∉ ys)
    (h : xs ++ x :: r = ys ++ x :: r') : xs = ys ∧ r = r' := by
  have hne {zs : List Char} (hz : x ∉ zs) : ∀ c ∈ zs, (c != x) = true :=
    fun c hc => bne_iff_ne.2 fun heq => hz (heq ▸ hc)
  have hstop {r : List Char} : ∀ c ∈ (x :: r).head?, (c != x) = false := by simp
  obtain ⟨hstart, hrest⟩ := split_unique (hne hx) (hne hy) hstop hstop h
  exact ⟨hstart, (List.cons.inj hrest).2⟩

/-- Texts that are joined by a separator whose first character they do not have can be told apart. -/
theorem intercalate_injective {x : Char} {sep : List Char} {xs ys : List (List Char)}
    (hx : ∀ a ∈ xs, x ∉ a) (hy : ∀ a ∈ ys, x ∉ a) (hxs : xs ≠ []) (hys : ys ≠ [])
    (h : (x :: sep).intercalate xs = (x :: sep).intercalate ys) : xs = ys := by
  induction xs generalizing ys with
  | nil => exact absurd rfl hxs
  | cons a xs ih =>
    cases ys with
    | nil => exact absurd rfl hys
    | cons b ys =>
      rw [List.forall_mem_cons] at hx hy
      cases xs with
      | nil =>
        cases ys with
        | nil =>
          rw [List.intercalate_singleton, List.intercalate_singleton] at h
          rw [h]
        | cons b' ys =>
          rw [List.intercalate_singleton, List.intercalate_cons_cons] at h
          exact absurd (by simp [h]) hx.1
      | cons a' xs =>
        cases ys with
        | nil =>
          rw [List.intercalate_singleton, List.intercalate_cons_cons] at h
          exact absurd (by simp [← h]) hy.1
        | cons b' ys =>
          rw [List.intercalate_cons_cons, List.intercalate_cons_cons, List.append_assoc,
            List.append_assoc] at h
          obtain ⟨rfl, hrest⟩ := split_at hx.1 hy.1 h
          rw [ih hx.2 hy.2 (List.cons_ne_nil _ _) (List.cons_ne_nil _ _)
            (List.append_cancel_left hrest)]

theorem mem_of_mem_intercalate {sep : List Char} {xs : List (List Char)} {c : Char}
    (h : c ∈ sep.intercalate xs) : c ∈ sep ∨ ∃ a ∈ xs, c ∈ a := by
  induction xs with
  | nil => cases h
  | cons a xs ih =>
    cases xs with
    | nil => exact .inr ⟨a, List.mem_singleton_self a, by rwa [List.intercalate_singleton] at h⟩
    | cons b xs =>
      rw [List.intercalate_cons_cons, List.append_assoc, List.mem_append, List.mem_append] at h
      rcases h with h | h | h
      · exact .inr ⟨a, List.mem_cons_self, h⟩
      · exact .inl h
      · exact (ih h).imp_right fun ⟨a', ha', hc⟩ => ⟨a', List.mem_cons_of_mem _ ha', hc⟩

theorem isDigit_of_mem_nat {n : Nat} {c : Char} (h : c ∈ (toString n).toList) :
    c.isDigit = true := by
  rw [Nat.toString_eq_repr, Nat.toList_repr] at h
  exact Nat.isDigit_of_mem_toDigits (by decide) (by decide) h

/-- A character that is no digit does not occur in a number. -/
theorem not_mem_nat {n : Nat} {c : Char} (h : c.isDigit = false) : c ∉ (toString n).toList := by
  intro hc
  rw [isDigit_of_mem_nat hc] at h
  cases h

/-- Digits are not characters that separate or end fields. -/
theorem isDigit_chars {c : Char} (h : c.isDigit = true) : (c != ',' && c != '\x7d') = true := by
  rw [Bool.and_eq_true, bne_iff_ne, bne_iff_ne]
  constructor
  · rintro rfl
    cases h
  · rintro rfl
    cases h

theorem nat_injective {n k : Nat} (h : (toString n).toList = (toString k).toList) : n = k := by
  have hstring := congrArg String.toNat? (String.toList_inj.1 h)
  rw [Nat.toString_eq_repr, Nat.toString_eq_repr, Nat.toNat?_repr, Nat.toNat?_repr] at hstring
  exact Option.some.inj hstring

end Text

/-! ## Words -/

open Text (split_at split_unique intercalate_injective isDigit_of_mem_nat not_mem_nat nat_injective)

namespace Ternary

variable {w : Nat}

theorem toList_text (a : Ternary w) : a.text.toList = '"' :: ((List.range w).reverse.map fun k =>
    if a.unknown.getLsbD k then 'X' else if a.ones.getLsbD k then '1' else '0') ++ ['"'] := by
  rw [text, String.toList_ofList]

theorem text_injective {a b : Ternary w} (h : a.text = b.text) : a = b := by
  have hbits : ∀ k < w,
      (if a.unknown.getLsbD k then 'X' else if a.ones.getLsbD k then '1' else '0') =
        if b.unknown.getLsbD k then 'X' else if b.ones.getLsbD k then '1' else '0' := by
    have hlist := congrArg String.toList h
    rw [toList_text, toList_text, List.append_left_inj, List.cons.injEq] at hlist
    intro k hk
    exact List.map_inj_left.1 hlist.2 k (List.mem_reverse.2 (List.mem_range.2 hk))
  have hflags {k : Nat} (hk : k < w) :
      a.zeros.getLsbD k = b.zeros.getLsbD k ∧ a.ones.getLsbD k = b.ones.getLsbD k := by
    have htext := hbits k hk
    have ha := a.getLsbD_total hk
    have hb := b.getLsbD_total hk
    simp only [unknown, BitVec.getLsbD_and] at htext
    revert htext ha hb
    cases a.zeros.getLsbD k <;> cases a.ones.getLsbD k <;> cases b.zeros.getLsbD k <;>
      cases b.ones.getLsbD k <;> simp
  obtain ⟨zeros, ones, total⟩ := a
  obtain ⟨zeros', ones', total'⟩ := b
  obtain rfl : zeros = zeros' := BitVec.eq_of_getLsbD_eq fun k hk => (hflags hk).1
  obtain rfl : ones = ones' := BitVec.eq_of_getLsbD_eq fun k hk => (hflags hk).2
  rfl

theorem mem_text {a : Ternary w} {c : Char} (h : c ∈ a.text.toList) :
    c.isDigit = true ∨ c = '"' ∨ c = 'X' := by
  rw [toList_text, List.mem_append, List.mem_cons, List.mem_singleton, List.mem_map] at h
  rcases h with (rfl | ⟨k, -, rfl⟩) | rfl
  · exact .inr (.inl rfl)
  · split
    · exact .inr (.inr rfl)
    · split
      · exact .inl rfl
      · exact .inl rfl
  · exact .inr (.inl rfl)

theorem length_text (a : Ternary w) : a.text.toList.length = w + 2 := by
  simp [toList_text]

end Ternary

namespace SplitRange

variable {w : Nat}

/-- The text of one interval. -/
def rangeText (r : Range w) : List Char :=
  '[' :: (toString r.lo.toNat).toList ++ ('.' :: '.' :: (toString r.hi.toNat).toList ++ [']'])

theorem toList_text (d : SplitRange w) :
    d.text.toList = ['∪'].intercalate (d.ranges.map rangeText) := by
  rw [text, String.toList_intercalate, List.map_map]
  refine congrArg₂ List.intercalate rfl (List.map_congr_left fun r _ => ?_)
  have h (t : String) : (toString t : String) = t := rfl
  simp only [Function.comp_apply, h, String.toList_append, rangeText]
  simp

theorem mem_rangeText {r : Range w} {c : Char} (h : c ∈ rangeText r) :
    c.isDigit = true ∨ c = '[' ∨ c = '.' ∨ c = ']' := by
  simp only [rangeText, List.cons_append, List.mem_cons, List.mem_append, List.not_mem_nil,
    or_false] at h
  rcases h with h | h | h | h | h | h
  · exact .inr (.inl h)
  · exact .inl (isDigit_of_mem_nat h)
  · exact .inr (.inr (.inl h))
  · exact .inr (.inr (.inl h))
  · exact .inl (isDigit_of_mem_nat h)
  · exact .inr (.inr (.inr h))

theorem rangeText_injective {r r' : Range w} (h : rangeText r = rangeText r') : r = r' := by
  obtain ⟨-, h⟩ := List.cons.inj h
  obtain ⟨hlo, hrest⟩ := split_at (not_mem_nat (by decide)) (not_mem_nat (by decide)) h
  obtain ⟨-, hrest⟩ := List.cons.inj hrest
  have hhi := List.append_cancel_right hrest
  obtain ⟨lo, hi, hle⟩ := r
  obtain ⟨lo', hi', hle'⟩ := r'
  obtain rfl : lo = lo' := BitVec.eq_of_toNat_eq (nat_injective hlo)
  obtain rfl : hi = hi' := BitVec.eq_of_toNat_eq (nat_injective hhi)
  rfl

theorem text_injective {d d' : SplitRange w} (h : d.text = d'.text) : d = d' := by
  have hpiece (d : SplitRange w) : ∀ a ∈ d.ranges.map rangeText, '∪' ∉ a := by
    intro a ha
    obtain ⟨r, -, rfl⟩ := List.mem_map.1 ha
    intro hc
    rcases mem_rangeText hc with h | h | h | h <;> exact absurd h (by decide)
  have hne (d : SplitRange w) : d.ranges.map rangeText ≠ [] :=
    fun h => d.ranges_ne_nil (List.map_eq_nil_iff.1 h)
  have htext := congrArg String.toList h
  rw [toList_text, toList_text] at htext
  have hmap := intercalate_injective (hpiece d) (hpiece d') (hne d) (hne d') htext
  have hranges := List.map_injective_iff.2 (fun _ _ => rangeText_injective) hmap
  exact ext_ranges fun r => hranges ▸ Iff.rfl

end SplitRange

namespace Reduced

variable {w : Nat}

/-- A text is that of one word, or of all components. -/
theorem word?_eq_of_text {a b : Reduced w} (h : a.text = b.text) :
    a.word? = b.word? ∧ (a.word? = none → a = b) := by
  have htext := congrArg String.toList h
  rw [text, text] at htext
  -- the text of a word is a number, any other one starts with a quotation mark
  have hquote {c : Reduced w} {y : BitVec w} :
      (toString y.toNat).toList ≠ (c.bits.text ++ c.ranges.text).toList := by
    intro heq
    have hmem : '"' ∈ (toString y.toNat).toList := by
      rw [heq, String.toList_append, Ternary.toList_text]
      exact List.mem_cons_self
    exact not_mem_nat (by decide) hmem
  cases hwa : a.word? with
  | some y =>
    cases hwb : b.word? with
    | some z =>
      simp only [hwa, hwb] at htext
      obtain rfl : y = z := BitVec.eq_of_toNat_eq (nat_injective htext)
      exact ⟨rfl, fun h => absurd h (Option.some_ne_none _)⟩
    | none =>
      simp only [hwa, hwb] at htext
      exact absurd htext hquote
  | none =>
    cases hwb : b.word? with
    | some z =>
      simp only [hwa, hwb] at htext
      exact absurd htext.symm hquote
    | none =>
      simp only [hwa, hwb, String.toList_append] at htext
      obtain ⟨hbits, hranges⟩ := List.append_inj htext (by
        rw [Ternary.length_text, Ternary.length_text])
      obtain ⟨bits, ranges⟩ := a
      obtain ⟨bits', ranges'⟩ := b
      obtain rfl : bits = bits' := Ternary.text_injective (String.toList_inj.1 hbits)
      obtain rfl : ranges = ranges' := SplitRange.text_injective (String.toList_inj.1 hranges)
      exact ⟨rfl, fun _ => rfl⟩

/-- Values that have members and the same text have the same members. -/
theorem mem_congr_of_text {a b : Reduced w} (ha : ∃ x, x ∈ a) (hb : ∃ x, x ∈ b)
    (h : a.text = b.text) (x : BitVec w) : x ∈ a ↔ x ∈ b := by
  obtain ⟨hword, hnone⟩ := word?_eq_of_text h
  cases hwa : a.word? with
  | some y => rw [mem_iff_of_word? hwa ha, mem_iff_of_word? (hword ▸ hwa) hb]
  | none => rw [hnone hwa]

/-- The characters of a value are not those that separate or end fields. -/
theorem text_chars (a : Reduced w) : ∀ c ∈ a.text.toList, (c != ',' && c != '\x7d') = true := by
  intro c hc
  rw [text] at hc
  cases hword : a.word? with
  | some x =>
    simp only [hword] at hc
    exact Text.isDigit_chars (isDigit_of_mem_nat hc)
  | none =>
    simp only [hword, String.toList_append, List.mem_append] at hc
    rcases hc with hc | hc
    · rcases Ternary.mem_text hc with h | rfl | rfl
      · exact Text.isDigit_chars h
      · rfl
      · rfl
    · rw [SplitRange.toList_text] at hc
      rcases Text.mem_of_mem_intercalate hc with h | ⟨r, hr, h⟩
      · obtain rfl := List.mem_singleton.1 h
        rfl
      · obtain ⟨r, -, rfl⟩ := List.mem_map.1 hr
        rcases SplitRange.mem_rangeText h with h | rfl | rfl | rfl
        · exact Text.isDigit_chars h
        · rfl
        · rfl
        · rfl

end Reduced

/-! ## Values and arrays -/

theorem Value.has_congr_of_text {v v' : Value} (hwidth : v.width = v'.width) (hv : v.Nonempty)
    (hv' : v'.Nonempty) (h : v.text = v'.text) (x : Sized BitVec) : v.Has x ↔ v'.Has x := by
  obtain ⟨w, v⟩ := v
  obtain ⟨w', v'⟩ := v'
  obtain rfl : w = w' := hwidth
  have hmem := Reduced.mem_congr_of_text hv hv' h
  exact and_congr Iff.rfl (exists_congr fun y => and_congr (hmem y) Iff.rfl)

namespace Memory

/-- The text of the indices of a run. -/
def boundsText (first last : Nat) : List Char :=
  '[' :: (toString first).toList ++
    (if first = last then [']'] else '.' :: '.' :: (toString last).toList ++ [']'])

/-- The characters of one run. -/
def segmentText (s : Segment Value) : List Char :=
  boundsText s.first s.last ++ ':' :: ' ' :: s.value.text.toList

theorem toList_text (a : Memory) : a.text.toList =
    '\x7b' :: [',', ' '].intercalate (a.elements.segments.map segmentText) ++ ['\x7d'] := by
  have h (t : String) : (toString t : String) = t := rfl
  have hsegments : (a.elements.text Sized.text).toList =
      [',', ' '].intercalate (a.elements.segments.map segmentText) := by
    rw [Runs.text, String.toList_intercalate, List.map_map]
    refine congrArg₂ List.intercalate rfl (List.map_congr_left fun s _ => ?_)
    simp only [Function.comp_apply, h, segmentText, boundsText]
    split <;> simp
  rw [text, String.toList_append, String.toList_append, hsegments]
  rfl

theorem mem_boundsText {first last : Nat} {c : Char} (h : c ∈ boundsText first last) :
    c.isDigit = true ∨ c = '[' ∨ c = '.' ∨ c = ']' := by
  rw [boundsText, List.mem_append, List.mem_cons] at h
  rcases h with (h | h) | h
  · exact .inr (.inl h)
  · exact .inl (isDigit_of_mem_nat h)
  · split at h
    · exact .inr (.inr (.inr (List.mem_singleton.1 h)))
    · simp only [List.cons_append, List.mem_cons, List.mem_append, List.not_mem_nil, or_false] at h
      rcases h with h | h | h | h
      · exact .inr (.inr (.inl h))
      · exact .inr (.inr (.inl h))
      · exact .inl (isDigit_of_mem_nat h)
      · exact .inr (.inr (.inr h))

theorem boundsText_injective {first last last' : Nat}
    (h : boundsText first last = boundsText first last') : last = last' := by
  rw [boundsText, boundsText, List.append_cancel_left_eq] at h
  split at h
  · rename_i hlast
    split at h
    · rename_i hlast'
      exact hlast.symm.trans hlast'
    · cases h
  · split at h
    · cases h
    · obtain ⟨-, h⟩ := List.cons.inj h
      obtain ⟨-, h⟩ := List.cons.inj h
      exact nat_injective (List.append_cancel_right h)

theorem segmentText_chars (s : Segment Value) :
    ∀ c ∈ segmentText s, (c != ',' && c != '\x7d') = true := by
  intro c hc
  rw [segmentText, List.mem_append, List.mem_cons, List.mem_cons] at hc
  rcases hc with hc | rfl | rfl | hc
  · rcases mem_boundsText hc with h | rfl | rfl | rfl
    · exact Text.isDigit_chars h
    · rfl
    · rfl
    · rfl
  · rfl
  · rfl
  · exact Reduced.text_chars _ c hc

/-- Runs that follow each other are determined by their texts. -/
theorem item_text_of_segments {item item' : Nat → Value} {last first : Nat}
    {segments segments' : List (Segment Value)} (h : Runs.Tiles item last first segments)
    (h' : Runs.Tiles item' last first segments')
    (htext : segments.map segmentText = segments'.map segmentText) {i : Nat} (hfirst : first ≤ i)
    (hi : i ≤ last) : (item i).text = (item' i).text := by
  induction segments generalizing first segments' with
  | nil =>
    obtain rfl : first = last + 1 := h
    omega
  | cons s rest ih =>
    cases segments' with
    | nil => cases htext
    | cons s' rest' =>
      obtain ⟨rfl, -, -, hitem, hrest⟩ := h
      obtain ⟨hfirst', -, -, hitem', hrest'⟩ := h'
      obtain ⟨hhead, htail⟩ := List.cons.inj htext
      rw [segmentText, segmentText, hfirst'] at hhead
      have hcolon (first last : Nat) : ':' ∉ boundsText first last := by
        intro hc
        rcases mem_boundsText hc with h | h | h | h <;> exact absurd h (by decide)
      obtain ⟨hbounds, hvalue⟩ := split_at (hcolon _ _) (hcolon _ _) hhead
      have hlast := boundsText_injective hbounds
      have hvalue : s.value.text = s'.value.text := String.toList_inj.1 (List.cons.inj hvalue).2
      by_cases hle : i ≤ s.last
      · rw [hitem i hfirst hle, hitem' i hfirst (hlast ▸ hle), hvalue]
      · exact ih hrest (hlast ▸ hrest') htail (by omega)

/-- Arrays of one size with the same text between braces have the same elements, up to their
    texts. -/
theorem item_text_of_text {a b : Memory} (ha : a.WellFormed) (hb : b.WellFormed)
    (hindex : a.indexWidth = b.indexWidth) {r r' : List Char}
    (h : a.text.toList ++ r = b.text.toList ++ r') :
    r = r' ∧ ∀ i ≤ a.elements.last, (a.elements.item i).text = (b.elements.item i).text := by
  have hbrace (a : Memory) :
      '\x7d' ∉ [',', ' '].intercalate (a.elements.segments.map segmentText) := by
    intro hc
    rcases Text.mem_of_mem_intercalate hc with h | ⟨x, hx, h⟩
    · exact absurd h (by decide)
    · obtain ⟨s, -, rfl⟩ := List.mem_map.1 hx
      exact absurd (segmentText_chars s _ h) (by decide)
  have hcomma (a : Memory) : ∀ x ∈ a.elements.segments.map segmentText, ',' ∉ x := by
    intro x hx hc
    obtain ⟨s, -, rfl⟩ := List.mem_map.1 hx
    exact absurd (segmentText_chars s _ hc) (by decide)
  have hne (a : Memory) : a.elements.segments.map segmentText ≠ [] := by
    rw [Ne, List.map_eq_nil_iff, Runs.segments]
    cases a.elements.runs <;> exact List.cons_ne_nil _ _
  rw [toList_text, toList_text, List.append_assoc, List.append_assoc] at h
  obtain ⟨hinner, hrest⟩ := split_at (hbrace a) (hbrace b) (List.cons.inj h).2
  have hpieces := intercalate_injective (hcomma a) (hcomma b) (hne a) (hne b) hinner
  have hlast : a.elements.last = b.elements.last := by rw [ha.last_eq, hb.last_eq, hindex]
  refine ⟨hrest, fun i hi => ?_⟩
  exact item_text_of_segments ha.ordered.tiles (hlast ▸ hb.ordered.tiles) hpieces (Nat.zero_le i) hi

end Memory

/-! ## Fields and records -/

/-- The characters of the content. -/
def Content.chars : Content → List Char
  | .scalar value => value.text.toList
  | .array _ memory => memory.text.toList

/-- What follows a field in the text of a record. -/
def Text.Ends (r : List Char) : Prop := ∀ c ∈ r.head?, (c != ',' && c != '\x7d') = false

/-- Contents whose values have the same texts. -/
def Content.Alike : Content → Content → Prop
  | .scalar v, .scalar v' => v.text = v'.text
  | .array _ a, .array _ b =>
    ∀ i ≤ a.elements.last, (a.elements.item i).text = (b.elements.item i).text
  | _, _ => False

/-- Contents of one kind with the same text have values with the same texts. -/
theorem Content.alike_of_chars {c c' : Content} (hc : c.WellFormed) (hc' : c'.WellFormed)
    (hkind : c.kind = c'.kind) {r r' : List Char} (hr : Text.Ends r) (hr' : Text.Ends r')
    (h : c.chars ++ r = c'.chars ++ r') : r = r' ∧ c.Alike c' := by
  cases c with
  | scalar v =>
    cases c' with
    | scalar v' =>
      obtain ⟨htext, hrest⟩ :=
        split_unique (Reduced.text_chars v.val) (Reduced.text_chars v'.val) hr hr' h
      exact ⟨hrest, String.toList_inj.1 htext⟩
    | array _ _ => cases hkind
  | array _ a =>
    cases c' with
    | scalar v' => cases hkind
    | array _ b => exact Memory.item_text_of_text hc hc' (Kind.array.inj hkind).1 h

/-- Contents that have members, and values with the same texts, have the same members. -/
theorem Content.Alike.has {c c' : Content} (h : c.Alike c') (hc : c.WellFormed)
    (hc' : c'.WellFormed) (hne : c.Nonempty) (hne' : c'.Nonempty) (hkind : c.kind = c'.kind)
    {d : Concrete.Datum} (hd : c.Has d) : c'.Has d := by
  cases c with
  | scalar v =>
    cases c' with
    | scalar v' =>
      cases d with
      | word x => exact (Value.has_congr_of_text (Kind.scalar.inj hkind) hne hne' h x).1 hd
      | array _ _ _ => exact hd.elim
    | array _ _ => cases hkind
  | array _ a =>
    cases c' with
    | scalar v' => cases hkind
    | array _ b =>
      obtain ⟨hindex, helement⟩ := Kind.array.inj hkind
      have hlast : a.elements.last = b.elements.last := by rw [hc.last_eq, hc'.last_eq, hindex]
      cases d with
      | word x => exact hd.elim
      | array indexWidth elementWidth element =>
        obtain ⟨rfl, rfl, -, -, hitems⟩ := hd
        refine ⟨hindex.symm, helement.symm, hc'.ordered, hindex ▸ hc'.last_eq, fun i => ?_⟩
        have hle : i.1 ≤ Word.last a.indexWidth := Nat.le_of_lt_succ i.2
        have hi : i.1 ≤ a.elements.last := hle.trans_eq hc.last_eq.symm
        have hwidth : (a.elements.item i.1).width = (b.elements.item i.1).width := by
          rw [hc.item_width hi, hc'.item_width (hlast ▸ hi), helement]
        exact (Value.has_congr_of_text hwidth (hne i.1 hle) (hne' i.1 (hindex ▸ hle))
          (h i.1 hi) _).1 (hitems i)

theorem Field.toList_text (f : Field) :
    f.text.toList = f.name.toList ++ ':' :: ' ' :: f.content.chars := by
  obtain ⟨name, signedness, content⟩ := f
  cases content <;> simp [text, Content.chars]

/-- Fields of one shape with the same text hold values with the same texts. -/
theorem Field.alike_of_text {f g : Field} (hf : f.content.WellFormed) (hg : g.content.WellFormed)
    (hshape : f.shape = g.shape) {r r' : List Char} (hr : Text.Ends r) (hr' : Text.Ends r')
    (h : f.text.toList ++ r = g.text.toList ++ r') : r = r' ∧ f.content.Alike g.content := by
  have hname : f.name = g.name := congrArg FieldShape.name hshape
  have hkind : f.content.kind = g.content.kind := congrArg FieldShape.kind hshape
  rw [toList_text, toList_text, hname, List.append_assoc, List.append_assoc,
    List.append_cancel_left_eq] at h
  obtain ⟨-, h⟩ := List.cons.inj h
  obtain ⟨-, h⟩ := List.cons.inj h
  exact Content.alike_of_chars hf hg hkind hr hr' h

theorem Record.alike_of_fields {fs gs : List Field} (hf : ∀ f ∈ fs, f.content.WellFormed)
    (hg : ∀ g ∈ gs, g.content.WellFormed) (hshape : fs.map Field.shape = gs.map Field.shape)
    (h : [',', ' '].intercalate (fs.map fun f => f.text.toList) ++ ['\x7d'] =
      [',', ' '].intercalate (gs.map fun g => g.text.toList) ++ ['\x7d']) :
    List.Forall₂ (fun f g => f.content.Alike g.content) fs gs := by
  -- what follows the text of a field: a brace or a comma, neither of which goes on with a number
  have hend : Text.Ends ['\x7d'] := by
    intro c hc
    obtain rfl : '\x7d' = c := Option.some.inj hc
    rfl
  have hsep (r : List Char) : Text.Ends (',' :: r) := by
    intro c hc
    obtain rfl : ',' = c := Option.some.inj hc
    rfl
  induction fs generalizing gs with
  | nil =>
    obtain rfl : gs = [] := List.map_eq_nil_iff.1 hshape.symm
    exact .nil
  | cons f fs ih =>
    obtain ⟨g, gs, rfl, hhead, htail⟩ := List.map_eq_cons_iff.1 hshape.symm
    rw [List.forall_mem_cons] at hf hg
    cases fs with
    | nil =>
      obtain rfl : gs = [] := List.map_eq_nil_iff.1 htail
      simp only [List.map_cons, List.map_nil, List.intercalate_singleton] at h
      exact .cons (Field.alike_of_text hf.1 hg.1 hhead.symm hend hend h).2 .nil
    | cons f' fs =>
      obtain ⟨g', gs, rfl, hhead', htail'⟩ := List.map_eq_cons_iff.1 htail
      simp only [List.map_cons, List.intercalate_cons_cons, List.append_assoc] at h
      obtain ⟨hrest, hfirst⟩ := Field.alike_of_text hf.1 hg.1 hhead.symm (hsep _) (hsep _) h
      refine .cons hfirst (ih hf.2 hg.2 htail.symm ?_)
      exact (List.cons.inj (List.cons.inj hrest).2).2

/-- States of one shape with the same key have values with the same texts. -/
theorem State.alike_of_key {s s' : State} (hs : s.result.WellFormed) (hs' : s'.result.WellFormed)
    (hshape : s.result.shape = s'.result.shape) (hkey : s.key = s'.key) :
    s.panic.text = s'.panic.text ∧
      List.Forall₂ (fun f g => f.content.Alike g.content) s.result.fields s'.result.fields := by
  have hrecord (r : Record) : r.text.toList =
      '\x7b' :: [',', ' '].intercalate (r.fields.map fun f => f.text.toList) ++ ['\x7d'] := by
    rw [Record.text, String.toList_append, String.toList_append, String.toList_intercalate,
      List.map_map]
    rfl
  have hstate (s : State) : s.key.toList = (panicField ++ ": ").toList ++
      (s.panic.text.toList ++ ',' :: ' ' :: s.result.text.toList) := by
    simp [key, text]
  have htext := congrArg String.toList hkey
  rw [hstate, hstate, List.append_cancel_left_eq] at htext
  have hcomma (v : Value) : ',' ∉ v.text.toList :=
    fun h => absurd (Reduced.text_chars v.val _ h) (by decide)
  obtain ⟨hpanic, hrest⟩ := split_at (hcomma _) (hcomma _) htext
  obtain ⟨-, hrest⟩ := List.cons.inj hrest
  rw [hrecord, hrecord] at hrest
  exact ⟨String.toList_inj.1 hpanic, Record.alike_of_fields hs hs' hshape (List.cons.inj hrest).2⟩

/-! ## Members -/

theorem Record.has_of_alike {fs gs : List Field} (hf : ∀ f ∈ fs, f.content.WellFormed)
    (hg : ∀ g ∈ gs, g.content.WellFormed) (hne : ∀ f ∈ fs, f.content.Nonempty)
    (hne' : ∀ g ∈ gs, g.content.Nonempty) (hshape : fs.map Field.shape = gs.map Field.shape)
    (h : List.Forall₂ (fun f g => f.content.Alike g.content) fs gs) {cs : List Concrete.Field}
    (hcs : List.Forall₂ Field.Has fs cs) : List.Forall₂ Field.Has gs cs := by
  induction h generalizing cs with
  | nil => exact hcs
  | @cons f g fs gs halike _ ih =>
    rw [List.forall_mem_cons] at hf hg hne hne'
    obtain ⟨hhead, htail⟩ := List.cons.inj hshape
    have hname : f.name = g.name := congrArg FieldShape.name hhead
    have hsign : f.signedness = g.signedness := congrArg FieldShape.signedness hhead
    have hkind : f.content.kind = g.content.kind := congrArg FieldShape.kind hhead
    cases hcs with
    | cons hfield hfields =>
      refine .cons ⟨hname ▸ hfield.1, hsign ▸ hfield.2.1, ?_⟩ (ih hf.2 hg.2 hne.2 hne'.2 htail hfields)
      exact halike.has hf.1 hg.1 hne.1 hne'.1 hkind hfield.2.2

/-- States of one shape that have members and the same key have the same members. -/
theorem State.has_of_key {t : Shape} {s s' : State} (hs : s.Fits t) (hs' : s'.Fits t)
    (hne : s.Nonempty) (hne' : s'.Nonempty) (hkey : s.key = s'.key) {c : Concrete.State}
    (hc : s.Has c) : s'.Has c := by
  have hshape := hs.shape_eq.trans hs'.shape_eq.symm
  obtain ⟨hpanic, hfields⟩ := alike_of_key hs.wellFormed hs'.wellFormed hshape hkey
  constructor
  · exact (Value.has_congr_of_text (hs.panic_width.trans hs'.panic_width.symm) hne.1 hne'.1
      hpanic _).1 hc.1
  · exact Record.has_of_alike hs.wellFormed hs'.wellFormed hne.2 hne'.2 hshape hfields hc.2

end RefineCheck
