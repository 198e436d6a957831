/-
  RefineCheck.Proofs.State.Key

  States are told apart by their keys. The text of a value that was built determines the value, and
  the elements of an array that was built determine its runs. States of one shape therefore have the
  same key if and only if they are equal, that is, if they hold the same values, in arrays at every
  index.
-/

import RefineCheck.Proofs.Reduced.Stable
import RefineCheck.Proofs.Runs.Canonical
import RefineCheck.Proofs.State.Finite
import RefineCheck.Proofs.State.Text

namespace RefineCheck

/-! ## Values -/

theorem Ternary.eq_of_mem_ofRange {w : Nat} {x y : BitVec w} (h : x ∈ Ternary.ofRange y y) :
    x = y := by
  rw [ofRange, mem_ofKnown] at h
  apply BitVec.eq_of_getLsbD_eq
  intro k hk
  apply h k hk
  rw [BitVec.getLsbD_not, Word.getLsbD_spread _ hk]
  simp [hk]

namespace Reduced

variable {w : Nat} {a b : Reduced w} {y : BitVec w}

/-- The bits of a value with one member show it, since they do not go beyond the intervals. -/
theorem Built.mem_bits_iff (ha : a.Built) (h : a.word? = some y) {x : BitVec w} :
    x ∈ a.bits ↔ x = y := by
  have hbounds := ha.tight.bounded
  obtain ⟨hmin, hmax, -, -⟩ := ha.tight.bounds_eq
  constructor
  · intro hx
    -- both bounds are the member, and the hull of one word has no other
    have hframed := ha.framed x hx
    rw [← hmin, ← hmax, eq_of_word? h hbounds.umin_mem, eq_of_word? h hbounds.umax_mem] at hframed
    exact Ternary.eq_of_mem_ofRange hframed
  · rintro rfl
    exact ((mem_iff_of_word? h ha.tight.exists_mem).2 rfl).1

theorem Built.mem_ranges_iff (ha : a.Built) (h : a.word? = some y) {r : Range w} :
    r ∈ a.ranges.ranges ↔ r = .single y := by
  have hends {r : Range w} (hr : r ∈ a.ranges.ranges) : r = .single y := by
    obtain ⟨hlo, hhi⟩ := ha.tight.ends_mem hr
    obtain ⟨lo, hi, _⟩ := r
    obtain rfl : lo = y := eq_of_word? h hlo
    obtain rfl : hi = lo := eq_of_word? h hhi
    rfl
  constructor
  · exact hends
  · rintro rfl
    obtain ⟨r, hr⟩ := List.exists_mem_of_ne_nil _ a.ranges.ranges_ne_nil
    rwa [← hends hr]

/-- There is one value of each word. -/
theorem Built.eq_of_word?_eq (ha : a.Built) (hb : b.Built) (h : a.word? = some y)
    (h' : b.word? = some y) : a = b := by
  have hbits : a.bits = b.bits := by
    apply Ternary.ext_mem
    intro x
    rw [ha.mem_bits_iff h, hb.mem_bits_iff h']
  have hranges : a.ranges = b.ranges := by
    apply SplitRange.ext_ranges
    intro r
    rw [ha.mem_ranges_iff h, hb.mem_ranges_iff h']
  obtain ⟨bits, ranges⟩ := a
  obtain ⟨bits', ranges'⟩ := b
  obtain rfl : bits = bits' := hbits
  obtain rfl : ranges = ranges' := hranges
  rfl

theorem Built.eq_of_text (ha : a.Built) (hb : b.Built) (h : a.text = b.text) : a = b := by
  -- a single member is written as a number, which does not show the components
  obtain ⟨hword, hnone⟩ := word?_eq_of_text h
  cases hwa : a.word? with
  | some y => exact ha.eq_of_word?_eq hb hwa (hword ▸ hwa)
  | none => exact hnone hwa

end Reduced

namespace Value

/-- Values that the constructors and operators return. -/
structure Built (v : Value) : Prop where
  width_le : v.width ≤ Word.maxWidth
  val : v.val.Built

variable {v v' r : Value}

theorem Built.eq_of_text (hv : v.Built) (hv' : v'.Built) (hwidth : v.width = v'.width)
    (h : v.text = v'.text) : v = v' := by
  obtain ⟨w, a⟩ := v
  obtain ⟨w', b⟩ := v'
  obtain rfl : w = w' := hwidth
  obtain rfl : a = b := hv.val.eq_of_text hv'.val h
  rfl

theorem Built.join (hv : v.Built) (hv' : v'.Built) (h : Sized.join v v' = .ok r) :
    r.Built ∧ r.width = v.width := by
  obtain ⟨w, a⟩ := v
  obtain ⟨w', b⟩ := v'
  rw [Sized.join, Sized.zipWithM, Sized.zipWith] at h
  split at h
  · rename_i hw
    obtain rfl : w' = w := hw
    -- the operands have one width, and what is left is the join of their values
    change (Reduced.join a b >>= fun c => pure ⟨w', c⟩) = .ok r at h
    obtain ⟨c, hc, hr⟩ := bind_eq_ok.1 h
    obtain rfl := Except.ok.inj hr
    exact ⟨⟨hv.width_le, .join hv.val hv'.val hc⟩, rfl⟩
  · cases h

theorem Built.meet? {o : Option Value} (hv : v.Built) (hv' : v'.Built)
    (h : Sized.meet? v v' = .ok o) : (o.getD v).Built ∧ (o.getD v).width = v.width := by
  obtain ⟨w, a⟩ := v
  obtain ⟨w', b⟩ := v'
  rw [Sized.meet?, Sized.zipWith] at h
  split at h
  · rename_i hw
    obtain rfl : w' = w := hw
    obtain rfl := Except.ok.inj h
    cases hc : Domain.meet? a b with
    | none => exact ⟨hv, rfl⟩
    | some c => exact ⟨⟨hv.width_le, .meet hv.val hv'.val hc⟩, rfl⟩
  · cases h

theorem Built.decay {m : Marking} (hv : v.Built) (h : m.decay v = .ok r) :
    r.Built ∧ r.width = v.width := by
  obtain ⟨w, m⟩ := m
  obtain ⟨w', a⟩ := v
  rw [Marking.decay, Sized.zipWith] at h
  split at h
  · rename_i hw
    obtain rfl : w' = w := hw
    obtain rfl := Except.ok.inj h
    exact ⟨⟨hv.width_le, hv.val.decay⟩, rfl⟩
  · cases h

theorem built_ofNat {w : Nat} (h : w ≤ Word.maxWidth) (n : Nat) : (ofNat w n).Built :=
  ⟨h, .ofWord _⟩

end Value

/-! ## Arrays -/

namespace Memory

/-- Arrays that are filled with a value, written, joined, met and decayed. -/
inductive Built : Memory → Prop
  | replicate (indexWidth : Nat) {fill : Value} : fill.Built → Built (replicate indexWidth fill)
  | write {a b : Memory} (index : Value) {element : Value} :
    Built a → element.Built → a.write index element = .ok b → Built b
  | join {a b c : Memory} : Built a → Built b → a.join b = .ok c → Built c
  | meet {a b c : Memory} {ok : Bool} : Built a → Built b → a.meet b = .ok (ok, c) → Built c
  | decay {a b : Memory} {m : MemoryMark} :
    m.marks.Ordered → Built a → m.decay a = .ok b → Built b

/-- Well-formed arrays of built values, each given by its elements. -/
structure Canonical (a : Memory) : Prop extends a.WellFormed where
  canonical : a.elements.Canonical
  item_built {i : Nat} : i ≤ a.elements.last → (a.elements.item i).Built

variable {a b : Memory}

/-- Other elements of the same number and width keep an array well formed. -/
theorem Canonical.withElements (ha : a.Canonical) {elements : Runs Value}
    (hcanonical : elements.Canonical) (hlast : elements.last = a.elements.last)
    (hitems : ∀ i ≤ a.elements.last,
      (elements.item i).Built ∧ (elements.item i).width = a.elementWidth) :
    ({ a with elements } : Memory).Canonical where
  width_le := ha.width_le
  ordered := hcanonical.toOrdered
  last_eq := hlast.trans ha.last_eq
  item_width hi := (hitems _ (hlast ▸ hi)).2
  canonical := hcanonical
  item_built hi := (hitems _ (hlast ▸ hi)).1

theorem canonical_replicate (indexWidth : Nat) {fill : Value} (h : fill.Built) :
    (replicate indexWidth fill).Canonical where
  width_le := h.width_le
  ordered := Runs.ordered_replicate _ _
  last_eq := rfl
  item_width _ := rfl
  canonical := Runs.canonical_replicate _ _
  item_built _ := h

theorem Canonical.write (ha : a.Canonical) {index element : Value} (he : element.Built)
    (h : a.write index element = .ok b) : b.Canonical := by
  simp only [Memory.write, bind_eq_ok, checkElement] at h
  obtain ⟨⟨⟩, -, ⟨⟩, hcheck, h⟩ := h
  have hwidth : element.width = a.elementWidth := by
    split at hcheck
    · assumption
    · cases hcheck
  -- at a known index the element is replaced, otherwise all that it may reach are joined with it
  cases hnumber : index.number? with
  | some i =>
    simp only [hnumber, bind_eq_ok, pure_eq_ok] at h
    obtain ⟨elements, helements, rfl⟩ := h
    obtain ⟨-, -, hlast, hitems⟩ := Runs.set_spec helements ha.ordered
    apply ha.withElements (Runs.canonical_mapRangeM helements ha.ordered) hlast
    intro j hj
    rw [hitems j hj]
    split
    · exact ⟨he, hwidth⟩
    · exact ⟨ha.item_built hj, ha.item_width hj⟩
  | none =>
    simp only [hnumber, bind_eq_ok, pure_eq_ok] at h
    obtain ⟨elements, helements, rfl⟩ := h
    obtain ⟨-, -, hlast, hitems⟩ := Runs.mapRangeM_spec helements ha.ordered
    apply ha.withElements (Runs.canonical_mapRangeM helements ha.ordered) hlast
    intro j hj
    have hitem := hitems j hj
    split at hitem
    · obtain ⟨hbuilt, hjoined⟩ := (ha.item_built hj).join he hitem
      exact ⟨hbuilt, hjoined.trans (ha.item_width hj)⟩
    · rw [hitem]
      exact ⟨ha.item_built hj, ha.item_width hj⟩

theorem Canonical.join {c : Memory} (ha : a.Canonical) (hb : b.Canonical)
    (h : a.join b = .ok c) : c.Canonical := by
  simp only [Memory.join, bind_eq_ok, pure_eq_ok] at h
  obtain ⟨elements, helements, rfl⟩ := h
  obtain ⟨hab, -, hlast, hitems⟩ := Runs.zipWithM_spec helements ha.ordered hb.ordered
  apply ha.withElements (Runs.canonical_zipWithM helements ha.ordered hb.ordered) hlast
  intro i hi
  obtain ⟨hbuilt, hwidth⟩ := (ha.item_built hi).join (hb.item_built (hab ▸ hi)) (hitems i)
  exact ⟨hbuilt, hwidth.trans (ha.item_width hi)⟩

theorem Canonical.meet {c : Memory} {ok : Bool} (ha : a.Canonical) (hb : b.Canonical)
    (h : a.meet b = .ok (ok, c)) : c.Canonical := by
  simp only [Memory.meet, bind_eq_ok, pure_eq_ok] at h
  obtain ⟨met, hmet, h⟩ := h
  obtain ⟨-, rfl⟩ := Prod.mk.inj h
  obtain ⟨hab, hord, hlast, hitems⟩ := Runs.zipWithM_spec hmet ha.ordered hb.ordered
  obtain ⟨-, hlast', hitems'⟩ := Runs.map_spec Prod.snd hord
  apply ha.withElements (Runs.canonical_map Prod.snd hord) (hlast'.trans hlast)
  intro i hi
  -- an element without a common member stays that of the first array
  obtain ⟨common, hcommon, hpair⟩ := bind_eq_ok.1 (hitems i)
  rw [hitems' i, ← Except.ok.inj hpair]
  obtain ⟨hbuilt, hwidth⟩ := (ha.item_built hi).meet? (hb.item_built (hab ▸ hi)) hcommon
  exact ⟨hbuilt, hwidth.trans (ha.item_width hi)⟩

theorem Canonical.decay {m : MemoryMark} (hm : m.marks.Ordered) (ha : a.Canonical)
    (h : m.decay a = .ok b) : b.Canonical := by
  simp only [MemoryMark.decay, bind_eq_ok, pure_eq_ok] at h
  obtain ⟨elements, helements, rfl⟩ := h
  obtain ⟨hma, -, hlast, hitems⟩ := Runs.zipWithM_spec helements hm ha.ordered
  apply ha.withElements (Runs.canonical_zipWithM helements hm ha.ordered) (hlast.trans hma)
  intro i hi
  obtain ⟨hbuilt, hwidth⟩ := (ha.item_built hi).decay (hitems i)
  exact ⟨hbuilt, hwidth.trans (ha.item_width hi)⟩

theorem Built.canonical (h : a.Built) : a.Canonical := by
  induction h with
  | replicate indexWidth hfill => exact canonical_replicate indexWidth hfill
  | write index _ he hb ha => exact ha.write he hb
  | join _ _ hc ha hb => exact ha.join hb hc
  | meet _ _ hc ha hb => exact ha.meet hb hc
  | decay hm _ hb ha => exact ha.decay hm hb

/-- Arrays of one size and width with the same elements are equal. -/
theorem Canonical.ext (ha : a.Canonical) (hb : b.Canonical) (hindex : a.indexWidth = b.indexWidth)
    (helement : a.elementWidth = b.elementWidth)
    (h : ∀ i ≤ a.elements.last, a.elements.item i = b.elements.item i) : a = b := by
  have helements : a.elements = b.elements := by
    apply ha.canonical.ext hb.canonical _ h
    rw [ha.last_eq, hb.last_eq, hindex]
  obtain ⟨indexWidth, elementWidth, elements⟩ := a
  obtain ⟨indexWidth', elementWidth', elements'⟩ := b
  obtain rfl : indexWidth = indexWidth' := hindex
  obtain rfl : elementWidth = elementWidth' := helement
  obtain rfl : elements = elements' := helements
  rfl

end Memory

/-! ## Contents -/

namespace Content

/-- Contents that hold built values. -/
def Built : Content → Prop
  | .scalar value => value.Built
  | .array _ memory => memory.Built

/-- Contents that hold the same value, or the same value at each index. -/
def Agrees : Content → Content → Prop
  | .scalar v, .scalar v' => v = v'
  | .array _ a, .array _ b =>
    ∀ i ≤ Word.last a.indexWidth, ∃ v, a.element i = .ok v ∧ b.element i = .ok v
  | _, _ => False

variable {c c' : Content}

theorem Built.wellFormed (h : c.Built) : c.WellFormed := by
  cases c with
  | scalar v => exact h.width_le
  | array _ a => exact (Memory.Built.canonical h).toWellFormed

/-- Built contents of one kind with the same texts hold the same values. -/
theorem Alike.agrees (h : c.Alike c') (hc : c.Built) (hc' : c'.Built) (hkind : c.kind = c'.kind) :
    c.Agrees c' := by
  cases c with
  | scalar v =>
    cases c' with
    | scalar v' => exact Value.Built.eq_of_text hc hc' (Kind.scalar.inj hkind) h
    | array _ _ => cases hkind
  | array _ a =>
    cases c' with
    | scalar v' => cases hkind
    | array _ b =>
      obtain ⟨hindex, helement⟩ := Kind.array.inj hkind
      have ha := Memory.Built.canonical hc
      have hb := Memory.Built.canonical hc'
      have hlast : a.elements.last = b.elements.last := by rw [ha.last_eq, hb.last_eq, hindex]
      intro i hi
      have hi : i ≤ a.elements.last := ha.last_eq ▸ hi
      -- the elements have one text and, by the kind of the arrays, one width
      have hitem : a.elements.item i = b.elements.item i := by
        apply (ha.item_built hi).eq_of_text (hb.item_built (hlast ▸ hi)) _ (h i hi)
        rw [ha.item_width hi, hb.item_width (hlast ▸ hi), helement]
      exact ⟨_, Runs.get_ok hi, hitem ▸ Runs.get_ok (hlast ▸ hi)⟩

/-- Built contents of one kind hold the same values if and only if they are equal, apart from the
    width that an array does not use. -/
theorem agrees_iff (hc : c.Built) (hc' : c'.Built) (hkind : c.kind = c'.kind) :
    c.Agrees c' ↔ c.plain = c'.plain := by
  cases c with
  | scalar v =>
    cases c' with
    | scalar v' => simp [Agrees, plain]
    | array _ _ => cases hkind
  | array _ a =>
    cases c' with
    | scalar v' => cases hkind
    | array _ b =>
      obtain ⟨hindex, helement⟩ := Kind.array.inj hkind
      have ha := Memory.Built.canonical hc
      have hb := Memory.Built.canonical hc'
      constructor
      · intro h
        have hab : a = b := by
          apply ha.ext hb hindex helement
          intro i hi
          obtain ⟨v, hv, hv'⟩ := h i (ha.last_eq ▸ hi)
          rw [(Runs.get_spec hv).2, (Runs.get_spec hv').2]
        rw [plain, plain, hab]
      · intro h i hi
        obtain ⟨-, rfl⟩ := Content.array.inj h
        have hi : i ≤ a.elements.last := ha.last_eq ▸ hi
        exact ⟨_, Runs.get_ok hi, Runs.get_ok hi⟩

end Content

/-! ## Records and states -/

theorem Field.equal_iff {f g : Field} : f.equal g = true ↔ f.plain = g.plain := by
  obtain ⟨name, signedness, content⟩ := f
  obtain ⟨name', signedness', content'⟩ := g
  cases content <;> cases content' <;> simp [equal, plain, Content.plain, and_assoc]

theorem Record.equal_iff {r s : Record} : r.equal s = true ↔ r.plain = s.plain := by
  obtain ⟨fs⟩ := r
  obtain ⟨gs⟩ := s
  simp only [equal, plain, Bool.and_eq_true, beq_iff_eq, Record.mk.injEq]
  induction fs generalizing gs with
  | nil => cases gs <;> simp
  | cons f fs ih =>
    cases gs with
    | nil => simp
    | cons g gs =>
      simp only [List.length_cons, Nat.add_right_cancel_iff, List.zip_cons_cons, List.all_cons,
        Bool.and_eq_true, List.map_cons, List.cons.injEq, Field.equal_iff, ← ih gs]
      tauto

theorem State.equal_iff {s s' : State} : s.equal s' = true ↔ s.plain = s'.plain := by
  obtain ⟨panic, result⟩ := s
  obtain ⟨panic', result'⟩ := s'
  simp [equal, plain, Record.equal_iff]

/-- Fields of one shape that hold the same values are equal, and conversely. -/
theorem Record.agrees_iff {fs gs : List Field} (hf : ∀ f ∈ fs, f.content.Built)
    (hg : ∀ g ∈ gs, g.content.Built) (hshape : fs.map Field.shape = gs.map Field.shape) :
    List.Forall₂ (fun f g => f.content.Agrees g.content) fs gs ↔
      fs.map Field.plain = gs.map Field.plain := by
  induction fs generalizing gs with
  | nil =>
    obtain rfl : gs = [] := List.map_eq_nil_iff.1 hshape.symm
    simp
  | cons f fs ih =>
    obtain ⟨g, gs, rfl, hhead, htail⟩ := List.map_eq_cons_iff.1 hshape.symm
    rw [List.forall_mem_cons] at hf hg
    obtain ⟨hname, hsign, hkind⟩ := FieldShape.mk.inj hhead
    rw [List.forall₂_cons, ih hf.2 hg.2 htail.symm, Content.agrees_iff hf.1 hg.1 hkind.symm,
      List.map_cons, List.map_cons, List.cons.injEq]
    apply and_congr_left'
    rw [Field.plain, Field.plain, Field.mk.injEq, hname, hsign]
    simp

/-- States that hold built values. -/
structure State.Built (s : State) : Prop where
  panic : s.panic.Built
  result : ∀ f ∈ s.result.fields, f.content.Built

theorem Record.agrees_of_alike {fs gs : List Field} (hf : ∀ f ∈ fs, f.content.Built)
    (hg : ∀ g ∈ gs, g.content.Built) (hshape : fs.map Field.shape = gs.map Field.shape)
    (h : List.Forall₂ (fun f g => f.content.Alike g.content) fs gs) :
    List.Forall₂ (fun f g => f.content.Agrees g.content) fs gs := by
  induction h with
  | nil => exact .nil
  | cons halike _ ih =>
    rw [List.forall_mem_cons] at hf hg
    obtain ⟨hhead, htail⟩ := List.cons.inj hshape
    have hkind := congrArg FieldShape.kind hhead
    exact .cons (halike.agrees hf.1 hg.1 hkind) (ih hf.2 hg.2 htail)

/-- States of one shape have the same key if and only if they are equal, and are equal if and only
    if they hold the same values, in arrays at every index. -/
theorem State.key_eq_iff_equal {s s' : State} (hs : s.Built) (hs' : s'.Built)
    (hpanic : s.panic.width = s'.panic.width) (hshape : s.result.shape = s'.result.shape) :
    (s.key = s'.key ↔ s.equal s' = true) ∧
      (s.equal s' = true ↔ s.panic = s'.panic ∧
        List.Forall₂ (fun f g => f.content.Agrees g.content) s.result.fields s'.result.fields) := by
  have hequal : s.equal s' = true ↔ s.panic = s'.panic ∧
      List.Forall₂ (fun f g => f.content.Agrees g.content) s.result.fields s'.result.fields := by
    rw [equal_iff, Record.agrees_iff hs.result hs'.result hshape, State.plain, State.plain,
      State.mk.injEq, Record.plain, Record.plain, Record.mk.injEq]
  -- a key is read back field by field; conversely, it shows no more than equality compares
  refine ⟨⟨fun hkey => ?_, fun h => ?_⟩, hequal⟩
  · obtain ⟨htext, hfields⟩ := alike_of_key (fun f hf => (hs.result f hf).wellFormed)
      (fun f hf => (hs'.result f hf).wellFormed) hshape hkey
    exact hequal.2 ⟨hs.panic.eq_of_text hs'.panic hpanic htext,
      Record.agrees_of_alike hs.result hs'.result hshape hfields⟩
  · rw [← s.key_plain, ← s'.key_plain, equal_iff.1 h]

/-- An array of zeros that was written at two indices. -/
def Memory.striped : Memory :=
  ⟨2, 4, ⟨[⟨0, .ofNat 4 0⟩, ⟨1, .ofNat 4 7⟩, ⟨2, .ofNat 4 0⟩], .ofNat 4 5, 3⟩⟩

theorem Memory.built_striped : striped.Built := by
  have hzeros : (replicate 2 (.ofNat 4 0)).Built := .replicate 2 (Value.built_ofNat (by decide) 0)
  have hfirst : (replicate 2 (.ofNat 4 0)).write (.ofNat 2 3) (.ofNat 4 5) =
      .ok ⟨2, 4, ⟨[⟨2, .ofNat 4 0⟩], .ofNat 4 5, 3⟩⟩ := rfl
  have hsecond : (⟨2, 4, ⟨[⟨2, .ofNat 4 0⟩], .ofNat 4 5, 3⟩⟩ : Memory).write (.ofNat 2 1)
      (.ofNat 4 7) = .ok striped := rfl
  have hbuilt := hzeros.write _ (Value.built_ofNat (by decide) 5) hfirst
  exact hbuilt.write _ (Value.built_ofNat (by decide) 7) hsecond

/-- A state with an array and a field of four bits. -/
def State.striped (x : Reduced 4) : State :=
  quiet ⟨[.ofMemory "m" .striped, .ofValue "x" .unsigned ⟨4, x⟩]⟩

theorem State.built_striped {x : Reduced 4} (hx : x.Built) : (striped x).Built := by
  refine ⟨Value.built_ofNat (by decide) _, fun f hf => ?_⟩
  rw [striped, quiet, List.mem_pair] at hf
  rcases hf with rfl | rfl
  · exact Memory.built_striped
  · exact ⟨show 4 ≤ Word.maxWidth by decide, hx⟩

theorem State.key_eq_iff_equal_striped :
    (striped (.ofWord 9)).key = (striped (.full 4)).key ↔
      (striped (.ofWord 9)).equal (striped (.full 4)) = true :=
  (key_eq_iff_equal (built_striped (.ofWord 9)) (built_striped (.full 4)) rfl rfl).1

/-- The width of a panic code is not seen in the key. -/
theorem State.key_of_narrow_panic :
    (⟨.ofNat 1 noPanic, .empty⟩ : State).Built ∧ (quiet .empty).Built ∧
      (⟨.ofNat 1 noPanic, .empty⟩ : State).result.shape = (quiet .empty).result.shape ∧
      ¬ ((⟨.ofNat 1 noPanic, .empty⟩ : State).key = (quiet .empty).key ↔
        (⟨.ofNat 1 noPanic, .empty⟩ : State).equal (quiet .empty) = true) := by
  have hbuilt {v : Value} (hv : v.Built) : (⟨v, .empty⟩ : State).Built :=
    ⟨hv, fun f hf => absurd hf List.not_mem_nil⟩
  refine ⟨hbuilt (Value.built_ofNat (by decide) _), hbuilt (Value.built_ofNat (by decide) _), rfl, ?_⟩
  intro h
  -- both keys are the same text, but values of different widths are not equal
  have hequal : (⟨.ofNat 1 noPanic, .empty⟩ : State).equal (quiet .empty) = true := h.1 (by decide)
  revert hequal
  decide

end RefineCheck
