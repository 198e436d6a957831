/-
  RefineCheck.Proofs.Mark.Decay

  Decay is a closure. What is left of a target contains it, has all unmarked bits unknown and the
  marked ones known where they were, and does not decay any more. More marks leave less, and a
  smaller target leaves less.
-/

import Mathlib
import RefineCheck.Proofs.Memory.Backward

namespace RefineCheck

/-! ## Three-valued words -/

namespace Ternary

variable {w k : Nat} {a b : Ternary w} {x y : BitVec w}

theorem unknown_forget (a : Ternary w) (x : BitVec w) : (a.forget x).unknown = a.unknown ||| x := by
  apply BitVec.eq_of_getLsbD_eq
  intro k _
  simp only [unknown, forget, BitVec.getLsbD_and, BitVec.getLsbD_or]
  cases a.zeros.getLsbD k <;> cases a.ones.getLsbD k <;> simp

theorem forget_zero (a : Ternary w) : a.forget 0 = a := by
  simp [forget]

theorem forget_forget (a : Ternary w) (x : BitVec w) : (a.forget x).forget x = a.forget x := by
  simp [forget, BitVec.or_assoc]

/-- Forgetting more bits of more words leaves more words. -/
theorem forget_mono (hab : a.contains b = true)
    (hxy : ∀ k < w, y.getLsbD k = true → x.getLsbD k = true) :
    (a.forget x).contains (b.forget y) = true := by
  rw [contains_iff_bits] at *
  intro k hk
  simp only [forget, BitVec.getLsbD_or, Bool.or_eq_true]
  exact ⟨Or.imp (hab k hk).1 (hxy k hk), Or.imp (hab k hk).2 (hxy k hk)⟩

end Ternary

/-! ## Single values -/

/-- A value with certain bits contains all reduced values within these bits. -/
theorem Reduced.contains_ofTernary {w : Nat} {t : Ternary w} {a : Reduced w} (ha : a.Tight)
    (h : t.contains a.bits = true) : (ofTernary t).contains a = true := by
  have hranges {x : BitVec w} (hx : x ∈ a) : x ∈ (ofTernary t).ranges :=
    (((ofTernary_spec t).2 x).2 (Ternary.mem_of_contains h hx.1)).2
  rw [contains_iff, ofTernary_bits, SplitRange.contains_iff_ends]
  exact ⟨h, fun r hr => ⟨hranges (ha.ends_mem hr).1, hranges (ha.ends_mem hr).2⟩⟩

namespace Mark

variable {w k : Nat} {m n : Mark w} {a b : Reduced w}

theorem decay_all (h : m.bits = BitVec.allOnes w) : m.decay a = a := if_pos h

theorem bits_decay (m : Mark w) (a : Reduced w) : (m.decay a).bits = a.bits.forget (~~~m.bits) := by
  rw [decay]
  split
  · rename_i h
    rw [h, BitVec.not_allOnes]
    exact a.bits.forget_zero.symm
  · exact Reduced.ofTernary_bits _

theorem unknown_decay (hk : k < w) : (m.decay a).bits.unknown.getLsbD k = true ↔
    m.bits.getLsbD k ≠ true ∨ a.bits.unknown.getLsbD k = true := by
  rw [bits_decay, Ternary.unknown_forget, BitVec.getLsbD_or, BitVec.getLsbD_not, Bool.or_eq_true,
    or_comm]
  simp [hk]

theorem decay_decay (m : Mark w) (a : Reduced w) : m.decay (m.decay a) = m.decay a := by
  by_cases h : m.bits = BitVec.allOnes w
  · rw [decay_all h]
  · have hdecay (b : Reduced w) : m.decay b = .ofTernary (b.bits.forget (~~~m.bits)) := if_neg h
    rw [hdecay, bits_decay, Ternary.forget_forget, hdecay]

/-- A mark with more bits leaves less of a smaller value. -/
theorem decay_mono (hb : b.Built) (hab : a.contains b = true)
    (hmn : ∀ k, m.bits.getLsbD k = true → n.bits.getLsbD k = true) :
    (m.decay a).contains (n.decay b) = true := by
  by_cases hm : m.bits = BitVec.allOnes w
  · have hn : n.bits = BitVec.allOnes w := by
      apply BitVec.eq_of_getLsbD_eq
      intro k hk
      rw [hmn k (by simp [hm, hk])]
      simp [hk]
    rwa [decay_all hm, decay_all hn]
  · -- the bits alone decide, since the intervals are built again from them
    rw [decay, if_neg hm]
    refine Reduced.contains_ofTernary hb.decay.tight ?_
    rw [bits_decay]
    refine Ternary.forget_mono (Reduced.contains_iff.1 hab).1 fun k hk hnk => ?_
    rw [BitVec.getLsbD_not, Bool.and_eq_true, Bool.not_eq_true'] at *
    exact ⟨hnk.1, by by_contra hmk; simp [hmn k (by simpa using hmk)] at hnk⟩

theorem decay_contains (ha : a.Built) : (m.decay a).contains a = true := by
  have hall : (all w 1).bits = BitVec.allOnes w := bits_of _ _
  have hmono := decay_mono (m := m) (n := all w 1) ha (Reduced.contains_refl a) fun k hk => by
    simp [hall, BitVec.lt_of_getLsbD hk]
  rwa [decay_all hall] at hmono

end Mark

namespace Marking

variable {w : Nat} {m n : Marking} {a b a' b' : Value}

theorem decay_spec (hm : m.width = w) (ha : a.OfWidth w) :
    ∃ a', m.decay a = .ok a' ∧ a'.OfWidth w ∧ a'.contains a = .ok true ∧
      (∀ k < w, k ∈ a'.unknown ↔ k ∉ m.marked ∨ k ∈ a.unknown) ∧ m.decay a' = .ok a' := by
  obtain ⟨u, m⟩ := m
  obtain ⟨w, a⟩ := a
  obtain ⟨⟨hw, ha⟩, rfl⟩ := ha
  obtain rfl : u = w := hm
  have hdecay (b : Reduced u) : decay ⟨u, m⟩ ⟨u, b⟩ = .ok ⟨u, m.decay b⟩ := dif_pos rfl
  refine ⟨⟨u, m.decay a⟩, hdecay a, ⟨⟨hw, ha.decay⟩, rfl⟩,
    Value.contains_iff.2 (Mark.decay_contains ha), fun k hk => Mark.unknown_decay hk, ?_⟩
  rw [hdecay, Mark.decay_decay]

theorem decay_mono (hm : m.width = w) (hn : n.width = w) (ha : a.OfWidth w) (hb : b.OfWidth w)
    (hmn : m.marked ⊆ n.marked) (hab : a.contains b = .ok true) (ha' : m.decay a = .ok a')
    (hb' : n.decay b = .ok b') : a'.contains b' = .ok true := by
  obtain ⟨u, m⟩ := m
  obtain ⟨v, n⟩ := n
  obtain ⟨w, a⟩ := a
  obtain ⟨w', b⟩ := b
  obtain rfl := ha.width_eq
  obtain rfl : u = w := hm
  obtain rfl : v = u := hn
  obtain rfl : w' = v := hb.width_eq
  have hdecay (m : Mark w') (a : Reduced w') : decay ⟨w', m⟩ ⟨w', a⟩ = .ok ⟨w', m.decay a⟩ :=
    dif_pos rfl
  rw [hdecay] at ha' hb'
  obtain rfl := Except.ok.inj ha'
  obtain rfl := Except.ok.inj hb'
  exact Value.contains_iff.2
    (Mark.decay_mono hb.built.val (Value.contains_iff.1 hab) fun k hk => hmn hk)

end Marking

/-! ## Arrays -/

namespace MemoryMark

variable {v w : Nat} {m n : MemoryMark} {a b a' b' : Memory}

/-- Arrays decay element by element. -/
theorem decay_items (hm : m.OfWidths v w) (ha : a.OfWidths v w) :
    ∃ a', m.decay a = .ok a' ∧ a'.OfWidths v w ∧
      ∀ i, (m.marks.item i).decay (a.elements.item i) = .ok (a'.elements.item i) := by
  obtain ⟨elements, hzip, -, -, hitems⟩ := Runs.zipWithM_ok (f := Marking.decay) hm.ordered
    ha.ordered (hm.last_eq.trans ha.last_eq.symm) fun i hi => by
      rw [hm.last_eq] at hi
      exact (Marking.decay_spec (hm.item_width hi) (ha.item hi)).imp fun _ h => h.1
  have hdecay : m.decay a = .ok { a with elements } := by
    rw [decay, hzip]
    rfl
  exact ⟨_, hdecay, ⟨ha.canonical.decay hm.ordered hdecay, ha.indexWidth_eq, ha.elementWidth_eq⟩,
    hitems⟩

theorem decay_spec (hm : m.OfWidths v w) (ha : a.OfWidths v w) :
    ∃ a', m.decay a = .ok a' ∧ a'.OfWidths v w ∧ a'.contains a = .ok true ∧
      (∀ i ≤ Word.last v, ∀ k < w, (i, k) ∈ a'.unknown ↔ (i, k) ∉ m.marked ∨ (i, k) ∈ a.unknown) ∧
      m.decay a' = .ok a' := by
  obtain ⟨a', hdecay, ha', hitems⟩ := decay_items hm ha
  have hitem {i : Nat} (hi : i ≤ Word.last v) :
      (a'.elements.item i).contains (a.elements.item i) = .ok true ∧
        (∀ k < w, k ∈ (a'.elements.item i).unknown ↔
          k ∉ (m.marks.item i).marked ∨ k ∈ (a.elements.item i).unknown) ∧
        (m.marks.item i).decay (a'.elements.item i) = .ok (a'.elements.item i) := by
    obtain ⟨x, hx, -, hspec⟩ := Marking.decay_spec (hm.item_width hi) (ha.item hi)
    obtain rfl := Except.ok.inj (hx.symm.trans (hitems i))
    exact hspec
  refine ⟨a', hdecay, ha', (ha'.contains_iff ha).2 fun i hi => (hitem hi).1,
    fun i hi k hk => ?_, ?_⟩
  · rw [ha'.mem_unknown, ha.mem_unknown, hm.mem_marked]
    simpa only [hi, true_and] using (hitem hi).2.1 k hk
  · -- the second result has the elements of the first one, and so its runs
    obtain ⟨a'', hdecay', ha'', hitems'⟩ := decay_items hm ha'
    rw [hdecay']
    congr 1
    refine ha''.canonical.ext ha'.canonical (ha''.indexWidth_eq.trans ha'.indexWidth_eq.symm)
      (ha''.elementWidth_eq.trans ha'.elementWidth_eq.symm) fun i hi => ?_
    rw [ha''.last_eq] at hi
    exact Except.ok.inj ((hitems' i).symm.trans (hitem hi).2.2)

theorem decay_mono (hm : m.OfWidths v w) (hn : n.OfWidths v w) (ha : a.OfWidths v w)
    (hb : b.OfWidths v w) (hmn : m.marked ⊆ n.marked) (hab : a.contains b = .ok true)
    (ha' : m.decay a = .ok a') (hb' : n.decay b = .ok b') : a'.contains b' = .ok true := by
  obtain ⟨x, hx, hxw, hxitems⟩ := decay_items hm ha
  obtain ⟨y, hy, hyw, hyitems⟩ := decay_items hn hb
  obtain rfl := Except.ok.inj (hx.symm.trans ha')
  obtain rfl := Except.ok.inj (hy.symm.trans hb')
  refine (hxw.contains_iff hyw).2 fun i hi => ?_
  exact Marking.decay_mono (hm.item_width hi) (hn.item_width hi) (ha.item hi) (hb.item hi)
    (fun k hk => (hn.mem_marked.1 (hmn (hm.mem_marked.2 ⟨hi, hk⟩))).2)
    ((ha.contains_iff hb).1 hab i hi) (hxitems i) (hyitems i)

end MemoryMark

/-! ## Fields -/

/-- Sets of bits by their place in a list. -/
def nested {α : Type} (bits : α → Set (Nat × Nat)) (xs : List α) : Set (Nat × Nat × Nat) :=
  {x | ∃ a ∈ xs[x.1]?, x.2 ∈ bits a}

section

variable {α : Type} {bits : α → Set (Nat × Nat)} {a : α} {xs : List α}

@[simp]
theorem mem_nested_zero {x : Nat × Nat} : (0, x) ∈ nested bits (a :: xs) ↔ x ∈ bits a := by
  simp [nested]

@[simp]
theorem mem_nested_succ {k : Nat} {x : Nat × Nat} :
    (k + 1, x) ∈ nested bits (a :: xs) ↔ (k, x) ∈ nested bits xs := by
  simp [nested]

end

theorem FieldMark.allMarked_eq (ms : List FieldMark) : allMarked ms = nested marked ms := by
  induction ms with
  | nil => exact Set.ext fun x => by simp [allMarked, MarkedIn, nested]
  | cons m ms ih =>
    ext ⟨k, x⟩
    cases k with
    | zero => exact mem_allMarked_zero.trans mem_nested_zero.symm
    | succ k => rw [mem_allMarked_succ, mem_nested_succ, ih]

/-- The positions of the bits of a kind, by index and position; a single value is the element at
    index zero. -/
def Kind.positions : Kind → Set (Nat × Nat)
  | .scalar width => {x | x.1 = 0 ∧ x.2 < width}
  | .array indexWidth elementWidth => {x | x.1 ≤ Word.last indexWidth ∧ x.2 < elementWidth}

namespace Content

/-- Contents of built values, where arrays are given by their elements. -/
def Canonical : Content → Prop
  | .scalar value => value.Built
  | .array _ memory => memory.Canonical

/-- The unknown bits by index and position. -/
def unknown : Content → Set (Nat × Nat)
  | .scalar value => {x | x.1 = 0 ∧ x.2 ∈ value.unknown}
  | .array _ memory => memory.unknown

variable {c : Content}

theorem Built.canonical (h : c.Built) : c.Canonical := by
  cases c with
  | scalar v => exact h
  | array _ a => exact Memory.Built.canonical h

theorem Canonical.wellFormed (h : c.Canonical) : c.WellFormed := by
  cases c with
  | scalar v => exact h.width_le
  | array _ a => exact Memory.Canonical.toWellFormed h

end Content

namespace FieldMark

variable {m n : FieldMark} {f g f' g' : Field}

theorem decay_spec (hm : m.WellFormed) (hf : f.content.Canonical) (h : f.content.kind = m.kind) :
    ∃ g, m.decay f = .ok g ∧ g.shape = f.shape ∧ g.content.Canonical ∧
      g.content.Covers f.content ∧
      (∀ x ∈ m.kind.positions, x ∈ g.content.unknown ↔ x ∉ m.marked ∨ x ∈ f.content.unknown) ∧
      m.decay g = .ok g := by
  obtain ⟨name, signedness, content⟩ := f
  cases m with
  | scalar m =>
    cases content with
    | array _ _ => cases h
    | scalar v =>
      have hwidth : v.width = m.width := Kind.scalar.inj h
      obtain ⟨v', hv', ⟨hbuilt, hwidth'⟩, hcontains, hunknown, hagain⟩ :=
        Marking.decay_spec (w := v.width) hwidth.symm ⟨hf, rfl⟩
      -- a field decays as its value does, since the width stays
      have hdecay {x y : Value} (hxy : m.decay x = .ok y) (hw : y.width = x.width) :
          FieldMark.decay (.scalar m) ⟨name, signedness, .scalar x⟩ =
            .ok ⟨name, signedness, .scalar y⟩ := by
        show (m.decay x >>= _) = _
        rw [hxy]
        exact if_pos hw
      refine ⟨_, hdecay hv' hwidth', ?_, hbuilt, hcontains, ?_, hdecay hagain rfl⟩
      · show FieldShape.mk _ _ (.scalar v'.width) = ⟨_, _, .scalar v.width⟩
        rw [hwidth']
      · rintro ⟨i, k⟩ ⟨rfl, hk⟩
        have hk : k < v.width := hwidth.symm ▸ hk
        show 0 = 0 ∧ k ∈ v'.unknown ↔ ¬ (0 = 0 ∧ k ∈ m.marked) ∨ 0 = 0 ∧ k ∈ v.unknown
        simpa only [true_and] using hunknown k hk
  | array m =>
    cases content with
    | scalar _ => cases h
    | array width a =>
      obtain ⟨hindex, helement⟩ := Kind.array.inj h
      have hm' : m.OfWidths a.indexWidth a.elementWidth := ⟨hm, hindex.symm, helement.symm⟩
      obtain ⟨a', ha', haw, hcontains, hunknown, hagain⟩ := MemoryMark.decay_spec hm' ⟨hf, rfl, rfl⟩
      -- and as its memory does, without a condition
      have hdecay {x y : Memory} (hxy : m.decay x = .ok y) :
          FieldMark.decay (.array m) ⟨name, signedness, .array width x⟩ =
            .ok ⟨name, signedness, .array width y⟩ := by
        show (m.decay x >>= _) = _
        rw [hxy]
        rfl
      refine ⟨_, hdecay ha', ?_, haw.canonical, hcontains, ?_, hdecay hagain⟩
      · show FieldShape.mk _ _ (.array a'.indexWidth a'.elementWidth) =
          ⟨_, _, .array a.indexWidth a.elementWidth⟩
        rw [haw.indexWidth_eq, haw.elementWidth_eq]
      · rintro ⟨i, k⟩ ⟨hi, hk⟩
        exact hunknown i (hindex.symm ▸ hi) k (helement.symm ▸ hk)

theorem decay_scalar {name : String} {signedness : Signedness} {m : Marking} {v : Value}
    (h : FieldMark.decay (.scalar m) ⟨name, signedness, .scalar v⟩ = .ok g) :
    ∃ v', m.decay v = .ok v' ∧ g.content = .scalar v' := by
  obtain ⟨v', hv', h⟩ := bind_eq_ok.1 (show (m.decay v >>= _) = Except.ok g from h)
  rw [Field.withBits] at h
  split at h
  · exact ⟨v', hv', congrArg Field.content (Except.ok.inj h).symm⟩
  · cases h

theorem decay_array {name : String} {signedness : Signedness} {width : Nat} {m : MemoryMark}
    {a : Memory} (h : FieldMark.decay (.array m) ⟨name, signedness, .array width a⟩ = .ok g) :
    ∃ a', m.decay a = .ok a' ∧ g.content = .array width a' := by
  obtain ⟨a', ha', h⟩ := bind_eq_ok.1 (show (m.decay a >>= _) = Except.ok g from h)
  exact ⟨a', ha', congrArg Field.content (Except.ok.inj h).symm⟩

theorem decay_mono {kind : Kind} (hm : m.WellFormed) (hn : n.WellFormed)
    (hf : f.content.Canonical) (hg : g.content.Canonical) (hmk : m.kind = kind) (hnk : n.kind = kind)
    (hfk : f.content.kind = kind) (hgk : g.content.kind = kind) (hmn : m.marked ⊆ n.marked)
    (hfg : f.content.Covers g.content) (hf' : m.decay f = .ok f') (hg' : n.decay g = .ok g') :
    f'.content.Covers g'.content := by
  obtain ⟨name, signedness, content⟩ := f
  obtain ⟨name', signedness', content'⟩ := g
  cases m with
  | scalar m =>
    obtain rfl := hmk
    cases n with
    | array n => cases hnk
    | scalar n =>
      cases content with
      | array _ _ => cases hfk
      | scalar v =>
        cases content' with
        | array _ _ => cases hgk
        | scalar v' =>
          -- both fields are scalars of the mark's width
          obtain ⟨x, hx, hxf⟩ := decay_scalar hf'
          obtain ⟨y, hy, hyg⟩ := decay_scalar hg'
          rw [hxf, hyg]
          exact Marking.decay_mono rfl (Kind.scalar.inj hnk) ⟨hf, Kind.scalar.inj hfk⟩
            ⟨hg, Kind.scalar.inj hgk⟩ (fun k hk => (@hmn (0, k) ⟨rfl, hk⟩).2) hfg hx hy
  | array m =>
    obtain rfl := hmk
    cases n with
    | scalar n => cases hnk
    | array n =>
      cases content with
      | scalar _ => cases hfk
      | array width a =>
        cases content' with
        | scalar _ => cases hgk
        | array width' b =>
          -- or both are arrays of the mark's widths
          obtain ⟨x, hx, hxf⟩ := decay_array hf'
          obtain ⟨y, hy, hyg⟩ := decay_array hg'
          obtain ⟨hnindex, hnelement⟩ := Kind.array.inj hnk
          obtain ⟨hfindex, hfelement⟩ := Kind.array.inj hfk
          obtain ⟨hgindex, hgelement⟩ := Kind.array.inj hgk
          rw [hxf, hyg]
          exact MemoryMark.decay_mono ⟨hm, rfl, rfl⟩ ⟨hn, hnindex, hnelement⟩
            ⟨hf, hfindex, hfelement⟩ ⟨hg, hgindex, hgelement⟩ hmn hfg hx hy

end FieldMark

/-! ## Records -/

/-- The positions of the bits of a shape by field, index and position. -/
def Shape.positions (t : Shape) : Set (Nat × Nat × Nat) :=
  nested Kind.positions (t.map FieldShape.kind)

/-- The unknown bits by field, index and position. -/
def Record.unknown (r : Record) : Set (Nat × Nat × Nat) :=
  nested Content.unknown (r.fields.map Field.content)

/-- A record of a shape that holds built values. -/
structure Record.Canonical (t : Shape) (r : Record) : Prop where
  shape_eq : r.shape = t
  canonical : ∀ f ∈ r.fields, f.content.Canonical

namespace FieldMark

variable {t : Shape} {ms ns : List FieldMark} {fs gs fs' gs' : List Field}

theorem decayAll_cons {m : FieldMark} {f f' : Field} (hf : m.decay f = .ok f')
    (hfs : (ms.zip fs).mapM (fun p => p.1.decay p.2) = .ok fs') :
    ((m :: ms).zip (f :: fs)).mapM (fun p => p.1.decay p.2) = .ok (f' :: fs') := by
  rw [List.zip_cons_cons, List.mapM_cons, hf, ok_bind, hfs]
  rfl

theorem decayAll_spec (hm : Fit (t.map FieldShape.kind) ms) (hshape : fs.map Field.shape = t)
    (hf : ∀ f ∈ fs, f.content.Canonical) :
    ∃ gs, (ms.zip fs).mapM (fun p => p.1.decay p.2) = .ok gs ∧ Record.Canonical t ⟨gs⟩ ∧
      Record.containsFields gs fs = .ok true ∧
      (∀ x ∈ t.positions, x ∈ Record.unknown ⟨gs⟩ ↔ x ∉ nested marked ms ∨ x ∈ Record.unknown ⟨fs⟩) ∧
      (ms.zip gs).mapM (fun p => p.1.decay p.2) = .ok gs := by
  induction t generalizing ms fs with
  | nil =>
    obtain rfl : ms = [] := List.map_eq_nil_iff.1 hm.kinds_eq
    obtain rfl : fs = [] := List.map_eq_nil_iff.1 hshape
    exact ⟨[], rfl, ⟨rfl, hf⟩, rfl, fun x hx => by simp [Shape.positions, nested] at hx, rfl⟩
  | cons s t ih =>
    obtain ⟨m, ms, rfl, hmk, hmwf, hms⟩ := fit_cons.1 hm
    obtain ⟨f, fs, rfl, rfl, hfs⟩ := List.map_eq_cons_iff.1 hshape
    rw [List.forall_mem_cons] at hf
    obtain ⟨g, hg, hgshape, hgcan, hcovers, hunknown, hagain⟩ := decay_spec hmwf hf.1 hmk.symm
    obtain ⟨gs, hgs, hcan, hcontains, hrest, hagain'⟩ := ih hms hfs hf.2
    refine ⟨g :: gs, decayAll_cons hg hgs, ⟨?_, List.forall_mem_cons.2 ⟨hgcan, hcan.canonical⟩⟩,
      Record.containsFields_cons.2 ⟨hcovers, hcontains⟩, ?_, decayAll_cons hagain hagain'⟩
    · rw [Record.shape, List.map_cons, hgshape]
      exact congrArg _ hcan.shape_eq
    · -- the positions of the first field, and those of the others
      rintro ⟨k, x⟩ hx
      cases k with
      | zero =>
        simp only [Shape.positions, Record.unknown, List.map_cons, mem_nested_zero] at hx ⊢
        exact hunknown x (hmk ▸ hx)
      | succ k =>
        simp only [Shape.positions, Record.unknown, List.map_cons, mem_nested_succ] at hx ⊢
        exact hrest (k, x) hx

theorem decayAll_mono (hm : Fit (t.map FieldShape.kind) ms) (hn : Fit (t.map FieldShape.kind) ns)
    (hf : Record.Canonical t ⟨fs⟩) (hg : Record.Canonical t ⟨gs⟩) (hmn : nested marked ms ⊆ nested marked ns)
    (hfg : Record.containsFields fs gs = .ok true)
    (hf' : (ms.zip fs).mapM (fun p => p.1.decay p.2) = .ok fs')
    (hg' : (ns.zip gs).mapM (fun p => p.1.decay p.2) = .ok gs') :
    Record.containsFields fs' gs' = .ok true := by
  induction t generalizing ms ns fs gs fs' gs' with
  | nil =>
    obtain rfl : ms = [] := List.map_eq_nil_iff.1 hm.kinds_eq
    obtain rfl := Except.ok.inj hf'
    cases gs' <;> rfl
  | cons s t ih =>
    obtain ⟨m, ms, rfl, hmk, hmwf, hms⟩ := fit_cons.1 hm
    obtain ⟨n, ns, rfl, hnk, hnwf, hns⟩ := fit_cons.1 hn
    obtain ⟨f, fs, rfl, rfl, hfs⟩ := List.map_eq_cons_iff.1 hf.shape_eq
    obtain ⟨g, gs, rfl, hgshape, hgs⟩ := List.map_eq_cons_iff.1 hg.shape_eq
    obtain ⟨hfc, hfcs⟩ := List.forall_mem_cons.1 hf.canonical
    obtain ⟨hgc, hgcs⟩ := List.forall_mem_cons.1 hg.canonical
    obtain ⟨hcovers, hcontains⟩ := Record.containsFields_cons.1 hfg
    rw [List.zip_cons_cons, List.mapM_cons, bind_eq_ok] at hf' hg'
    obtain ⟨x, hx, hf'⟩ := hf'
    obtain ⟨xs, hxs, hf'⟩ := bind_eq_ok.1 hf'
    obtain ⟨y, hy, hg'⟩ := hg'
    obtain ⟨ys, hys, hg'⟩ := bind_eq_ok.1 hg'
    obtain rfl := Except.ok.inj hf'
    obtain rfl := Except.ok.inj hg'
    refine Record.containsFields_cons.2 ⟨?_, ih hms hns ⟨hfs, hfcs⟩ ⟨hgs, hgcs⟩
      (fun ⟨k, x⟩ hx => mem_nested_succ.1 (hmn (mem_nested_succ.2 hx))) hcontains hxs hys⟩
    exact decay_mono hmwf hnwf hfc hgc hmk hnk rfl (congrArg FieldShape.kind hgshape)
      (fun x hx => mem_nested_zero.1 (hmn (mem_nested_zero.2 hx))) hcovers hx hy

end FieldMark

namespace RecordMark

variable {t : Shape} {m n : RecordMark} {r s r' s' : Record}

theorem contains_iff (hr : r.Canonical t) (hs : s.Canonical t) :
    r.contains s = .ok true ↔ Record.containsFields r.fields s.fields = .ok true := by
  rw [Record.contains, Record.checkShape_ok (hr.shape_eq.trans hs.shape_eq.symm), ok_bind]

theorem contains_self (hr : r.Canonical t) : r.contains r = .ok true :=
  (contains_iff hr hr).2
    (Record.containsFields_self fun f hf => (hr.canonical f hf).wellFormed)

theorem decay_eq_ok (hm : m.Fits t) (hr : r.Canonical t) : m.decay r = .ok r' ↔
    (m.fields.zip r.fields).mapM (fun p => p.1.decay p.2) = .ok r'.fields := by
  obtain ⟨fields⟩ := r'
  rw [decay, Record.checkShape_ok (hm.template_eq.trans hr.shape_eq.symm), ok_bind, bind_eq_ok]
  constructor
  · rintro ⟨_, hfields, h⟩
    rw [hfields, ← Record.mk.inj (Except.ok.inj h)]
  · exact fun hfields => ⟨fields, hfields, rfl⟩

theorem decay_spec (hm : m.Fits t) (hr : r.Canonical t) :
    ∃ r', m.decay r = .ok r' ∧ r'.Canonical t ∧ r'.contains r = .ok true ∧
      (∀ x ∈ t.positions, x ∈ r'.unknown ↔ x ∉ m.marked ∨ x ∈ r.unknown) ∧
      m.decay r' = .ok r' := by
  obtain ⟨fields, hfields, hcan, hcontains, hunknown, hagain⟩ :=
    FieldMark.decayAll_spec hm.fields hr.shape_eq hr.canonical
  rw [← FieldMark.allMarked_eq] at hunknown
  exact ⟨⟨fields⟩, (decay_eq_ok hm hr).2 hfields, hcan, (contains_iff hcan hr).2 hcontains,
    hunknown, (decay_eq_ok hm hcan).2 hagain⟩

theorem decay_mono (hm : m.Fits t) (hn : n.Fits t) (hr : r.Canonical t) (hs : s.Canonical t)
    (hmn : m.marked ⊆ n.marked) (hrs : r.contains s = .ok true) (hr' : m.decay r = .ok r')
    (hs' : n.decay s = .ok s') : r'.contains s' = .ok true := by
  obtain ⟨x, hx, hrcan, -⟩ := decay_spec hm hr
  obtain ⟨y, hy, hscan, -⟩ := decay_spec hn hs
  obtain rfl := Except.ok.inj (hx.symm.trans hr')
  obtain rfl := Except.ok.inj (hy.symm.trans hs')
  rw [marked, marked, FieldMark.allMarked_eq, FieldMark.allMarked_eq] at hmn
  exact (contains_iff hrcan hscan).2 (FieldMark.decayAll_mono hm.fields hn.fields hr hs hmn
    ((contains_iff hr hs).1 hrs) ((decay_eq_ok hm hr).1 hr') ((decay_eq_ok hn hs).1 hs'))

end RecordMark

/-! ## States -/

/-- The positions of the bits of states of a shape, where the panic code comes before the fields. -/
def Shape.statePositions (t : Shape) : Set (Nat × Nat × Nat) :=
  nested Kind.positions (.scalar panicWidth :: t.map FieldShape.kind)

/-- The unknown bits, where the panic code comes before the fields. -/
def State.unknown (s : State) : Set (Nat × Nat × Nat) :=
  nested Content.unknown (.scalar s.panic :: s.result.fields.map Field.content)

/-- A state whose record has a shape and that holds built values. -/
structure State.Canonical (t : Shape) (s : State) : Prop where
  panic : s.panic.OfWidth panicWidth
  result : s.result.Canonical t

namespace StateMark

variable {t : Shape} {m n : StateMark} {s r s' r' : State}

theorem contains_iff (hs : s.Canonical t) (hr : r.Canonical t) : s.contains r = .ok true ↔
    s.panic.contains r.panic = .ok true ∧ s.result.contains r.result = .ok true := by
  obtain ⟨b, hb⟩ := Value.contains_ok (hr.panic.width_eq.trans hs.panic.width_eq.symm)
  rw [State.contains, hb, ok_bind]
  cases b <;> simp [pure_ok]

theorem decay_eq_ok : m.decay s = .ok s' ↔
    m.panic.decay s.panic = .ok s'.panic ∧ m.result.decay s.result = .ok s'.result := by
  simp only [decay, bind_eq_ok, pure_eq_ok]
  constructor
  · rintro ⟨panic, hpanic, result, hresult, rfl⟩
    exact ⟨hpanic, hresult⟩
  · rintro ⟨hpanic, hresult⟩
    exact ⟨_, hpanic, _, hresult, rfl⟩

theorem decay_spec (hm : m.Fits t) (hs : s.Canonical t) :
    ∃ s', m.decay s = .ok s' ∧ s'.Canonical t ∧ s'.contains s = .ok true ∧
      (∀ x ∈ t.statePositions, x ∈ s'.unknown ↔ x ∉ m.marked ∨ x ∈ s.unknown) ∧
      m.decay s' = .ok s' := by
  obtain ⟨panic, hpanic, hwidth, hcontains, hunknown, hagain⟩ :=
    Marking.decay_spec hm.panic_width hs.panic
  obtain ⟨result, hresult, hcan, hcontains', hunknown', hagain'⟩ :=
    RecordMark.decay_spec hm.result hs.result
  refine ⟨⟨panic, result⟩, decay_eq_ok.2 ⟨hpanic, hresult⟩, ⟨hwidth, hcan⟩,
    (contains_iff ⟨hwidth, hcan⟩ hs).2 ⟨hcontains, hcontains'⟩, ?_,
    decay_eq_ok.2 ⟨hagain, hagain'⟩⟩
  rw [marked, FieldMark.allMarked_eq]
  rw [RecordMark.marked, FieldMark.allMarked_eq] at hunknown'
  rintro ⟨k, x⟩ hx
  cases k with
  | zero =>
    simp only [Shape.statePositions, State.unknown, mem_nested_zero] at hx ⊢
    obtain ⟨i, k⟩ := x
    obtain ⟨rfl, hk⟩ := hx
    show 0 = 0 ∧ k ∈ panic.unknown ↔ ¬ (0 = 0 ∧ k ∈ m.panic.marked) ∨ 0 = 0 ∧ k ∈ s.panic.unknown
    simpa only [true_and] using hunknown k hk
  | succ k =>
    simp only [Shape.statePositions, State.unknown, mem_nested_succ] at hx ⊢
    exact hunknown' (k, x) hx

theorem decay_mono (hm : m.Fits t) (hn : n.Fits t) (hs : s.Canonical t) (hr : r.Canonical t)
    (hmn : m.marked ⊆ n.marked) (hsr : s.contains r = .ok true) (hs' : m.decay s = .ok s')
    (hr' : n.decay r = .ok r') : s'.contains r' = .ok true := by
  obtain ⟨x, hx, hscan, -⟩ := decay_spec hm hs
  obtain ⟨y, hy, hrcan, -⟩ := decay_spec hn hr
  obtain rfl := Except.ok.inj (hx.symm.trans hs')
  obtain rfl := Except.ok.inj (hy.symm.trans hr')
  obtain ⟨hpanic, hresult⟩ := (contains_iff hs hr).1 hsr
  obtain ⟨hspanic, hsresult⟩ := decay_eq_ok.1 hs'
  obtain ⟨hrpanic, hrresult⟩ := decay_eq_ok.1 hr'
  rw [marked, marked, FieldMark.allMarked_eq, FieldMark.allMarked_eq] at hmn
  have hhead : m.panic.marked ⊆ n.panic.marked := fun k hk =>
    (mem_nested_zero.1 (hmn (mem_nested_zero.2 (show (0, k) ∈ FieldMark.marked (.scalar m.panic) from
      ⟨rfl, hk⟩)))).2
  have htail : m.result.marked ⊆ n.result.marked := by
    rw [RecordMark.marked, RecordMark.marked, FieldMark.allMarked_eq, FieldMark.allMarked_eq]
    exact fun ⟨k, x⟩ hx => mem_nested_succ.1 (hmn (mem_nested_succ.2 hx))
  exact (contains_iff hscan hrcan).2
    ⟨Marking.decay_mono hm.panic_width hn.panic_width hs.panic hr.panic hhead hpanic hspanic hrpanic,
      RecordMark.decay_mono hm.result hn.result hs.result hr.result htail hresult hsresult hrresult⟩

end StateMark

/-! ## The closure -/

/-- Decay of targets by marks as a closure on the bits at some positions. -/
structure DecayClosure {M T P : Type} (IsMark : M → Prop) (IsTarget : T → Prop) (positions : Set P)
    (marked : M → Set P) (unknown : T → Set P) (contains : T → T → Except Fault Bool)
    (decay : M → T → Except Fault T) : Prop where
  decays {m : M} {a : T} : IsMark m → IsTarget a → ∃ a', decay m a = .ok a' ∧ IsTarget a'
  contained {m : M} {a a' : T} : IsMark m → IsTarget a → decay m a = .ok a' →
    contains a' a = .ok true
  unmarked {m : M} {a a' : T} : IsMark m → IsTarget a → decay m a = .ok a' →
    ∀ p ∈ positions, p ∉ marked m → p ∈ unknown a'
  kept {m : M} {a a' : T} : IsMark m → IsTarget a → decay m a = .ok a' →
    ∀ p ∈ positions, p ∈ marked m → (p ∈ unknown a' ↔ p ∈ unknown a)
  idempotent {m : M} {a a' : T} : IsMark m → IsTarget a → decay m a = .ok a' → decay m a' = .ok a'
  antitone {m n : M} {a a' a'' : T} : IsMark m → IsMark n → IsTarget a → marked m ⊆ marked n →
    decay m a = .ok a' → decay n a = .ok a'' → contains a' a'' = .ok true
  monotone {m : M} {a b a' b' : T} : IsMark m → IsTarget a → IsTarget b → contains a b = .ok true →
    decay m a = .ok a' → decay m b = .ok b' → contains a' b' = .ok true

section

variable {M T P : Type} {IsMark : M → Prop} {IsTarget : T → Prop} {positions : Set P}
  {marked : M → Set P} {unknown : T → Set P} {contains : T → T → Except Fault Bool}
  {decay : M → T → Except Fault T}

theorem DecayClosure.of_spec (contains_self : ∀ {a}, IsTarget a → contains a a = .ok true)
    (spec : ∀ {m a}, IsMark m → IsTarget a → ∃ a', decay m a = .ok a' ∧ IsTarget a' ∧
      contains a' a = .ok true ∧
      (∀ p ∈ positions, p ∈ unknown a' ↔ p ∉ marked m ∨ p ∈ unknown a) ∧ decay m a' = .ok a')
    (mono : ∀ {m n a b a' b'}, IsMark m → IsMark n → IsTarget a → IsTarget b →
      marked m ⊆ marked n → contains a b = .ok true → decay m a = .ok a' → decay n b = .ok b' →
        contains a' b' = .ok true) :
    DecayClosure IsMark IsTarget positions marked unknown contains decay := by
  have hspec {m : M} {a a' : T} (hm : IsMark m) (ha : IsTarget a) (h : decay m a = .ok a') :
      contains a' a = .ok true ∧
        (∀ p ∈ positions, p ∈ unknown a' ↔ p ∉ marked m ∨ p ∈ unknown a) ∧ decay m a' = .ok a' := by
    obtain ⟨x, hx, -, hspec⟩ := spec hm ha
    obtain rfl := Except.ok.inj (hx.symm.trans h)
    exact hspec
  exact {
    decays := fun hm ha => (spec hm ha).imp fun _ h => ⟨h.1, h.2.1⟩
    contained := fun hm ha h => (hspec hm ha h).1
    unmarked := fun hm ha h p hp hpm => ((hspec hm ha h).2.1 p hp).2 (.inl hpm)
    kept := fun hm ha h p hp hpm =>
      ((hspec hm ha h).2.1 p hp).trans (or_iff_right (not_not_intro hpm))
    idempotent := fun hm ha h => (hspec hm ha h).2.2
    antitone := fun hm hn ha hmn h h' => mono hm hn ha ha hmn (contains_self ha) h h'
    monotone := fun hm ha hb hab h h' => mono hm hm ha hb subset_rfl hab h h' }

end

/-- Decay is a closure for values, arrays, records and states of each shape. -/
theorem decay_closure :
    (∀ w, DecayClosure (fun m : Marking => m.width = w) (Value.OfWidth · w) {k | k < w}
      Marking.marked Value.unknown Sized.contains Marking.decay) ∧
    (∀ v w, DecayClosure (MemoryMark.OfWidths · v w) (Memory.OfWidths · v w)
      (Kind.array v w).positions MemoryMark.marked Memory.unknown Memory.contains
      MemoryMark.decay) ∧
    (∀ t : Shape, DecayClosure (RecordMark.Fits t) (Record.Canonical t) t.positions RecordMark.marked
      Record.unknown Record.contains RecordMark.decay) ∧
    ∀ t : Shape, DecayClosure (StateMark.Fits t) (State.Canonical t) t.statePositions StateMark.marked
      State.unknown State.contains StateMark.decay := by
  refine ⟨fun w => ?_, fun v w => ?_, fun t => ?_, fun t => ?_⟩
  · exact DecayClosure.of_spec (fun _ => Value.contains_self _) Marking.decay_spec Marking.decay_mono
  · refine DecayClosure.of_spec (fun ha => Memory.contains_self ha.canonical.toWellFormed)
      (fun hm ha => ?_) MemoryMark.decay_mono
    obtain ⟨a', h, ha', hcontains, hunknown, hagain⟩ := MemoryMark.decay_spec hm ha
    exact ⟨a', h, ha', hcontains, fun ⟨i, k⟩ ⟨hi, hk⟩ => hunknown i hi k hk, hagain⟩
  · exact DecayClosure.of_spec RecordMark.contains_self RecordMark.decay_spec RecordMark.decay_mono
  · refine DecayClosure.of_spec (fun hs => ?_) StateMark.decay_spec StateMark.decay_mono
    exact (StateMark.contains_iff hs hs).2
      ⟨Value.contains_self _, RecordMark.contains_self hs.result⟩

/-- A field half of whose bits are marked and an array without marks: the record decays to one that
    contains it, in which a bit without a mark is unknown, and no further. -/
theorem decay_closure_of_record :
    let r : Record := ⟨[.ofValue "x" .unsigned (.ofNat 4 5), .ofMemory "a" (.replicate 2 (.ofNat 4 3))]⟩
    let m : RecordMark := ⟨r, [.scalar ⟨4, .of 3 1⟩, .array (.replicate 2 ⟨4, .unmarked 4⟩)]⟩
    m.Fits r.shape ∧ r.Canonical r.shape ∧ ∃ r', m.decay r = .ok r' ∧ r'.contains r = .ok true ∧
      (0, 0, 2) ∈ r'.unknown ∧ (1, 3, 0) ∈ r'.unknown ∧ m.decay r' = .ok r' := by
  intro r m
  have hbuilt (n : Nat) : (Value.ofNat 4 n).Built := Value.built_ofNat (by decide) n
  have hr : r.Canonical r.shape := by
    refine ⟨rfl, List.forall_mem_cons.2 ⟨hbuilt 5, List.forall_mem_singleton.2 ?_⟩⟩
    exact Memory.canonical_replicate 2 (hbuilt 3)
  have hm : m.Fits r.shape := by
    refine ⟨rfl, rfl, List.forall_mem_cons.2 ⟨?_, List.forall_mem_singleton.2 ?_⟩⟩
    · show 4 ≤ Word.maxWidth
      decide
    · exact MemoryMark.wellFormed_replicate (by decide : 4 ≤ Word.maxWidth)
  obtain ⟨-, -, hrecords, -⟩ := decay_closure
  have hclosure := hrecords r.shape
  obtain ⟨r', hr', -⟩ := hclosure.decays hm hr
  have hx : ¬ (0, 0, 2) ∈ m.marked := by
    rintro ⟨-, hbit⟩
    have hbit : (Mark.of (3 : BitVec 4) 1).bits.getLsbD 2 = true := hbit
    exact absurd hbit (by decide)
  have ha : ¬ (1, 3, 0) ∈ m.marked := by
    rintro ⟨-, hbit⟩
    have hbit : (Mark.unmarked 4).bits.getLsbD 0 = true := hbit
    exact absurd hbit (by decide)
  refine ⟨hm, hr, r', hr', hclosure.contained hm hr hr', hclosure.unmarked hm hr hr' _ ?_ hx,
    hclosure.unmarked hm hr hr' _ ?_ ha, hclosure.idempotent hm hr hr'⟩
  · exact mem_nested_zero.2 ⟨rfl, by decide⟩
  · exact mem_nested_succ.2 (mem_nested_zero.2 ⟨by decide, by decide⟩)

end RefineCheck
