/-
  RefineCheck.Proofs.Mark.Partition

  The enumeration of records as a partition. From the first record on, advancing visits as many
  records as there are values of the marked bits and then comes back to the first one. A visited
  record knows the marked bits and no others, and each record of words is a member of one visit.
-/

import Mathlib
import RefineCheck.Proofs.Mark.Enumeration
import RefineCheck.Proofs.Reduced.Stable

namespace RefineCheck

/-! ## Marked bits

A counter over some bits has a value for each way to set them. -/

/-- All bits of a mask form the largest number that so many bits have. -/
theorem Word.gather_ones {w m x : Nat} (hx : ∀ i < w, x.testBit i = true) :
    gather w m x + 1 = 2 ^ (List.range w).countP m.testBit := by
  induction w generalizing m x with
  | zero => rfl
  | succ w ih =>
    rw [Nat.forall_lt_succ_left'] at hx
    simp only [Nat.testBit_add_one, Nat.testBit_zero, decide_eq_true_eq] at hx
    have hhalf : (m.testBit ∘ Nat.succ) = (m / 2).testBit := funext fun i => Nat.testBit_succ m i
    rw [gather, List.range_succ_eq_map, List.countP_cons, List.countP_map, hhalf, Nat.testBit_zero]
    have hrest := ih (m := m / 2) hx.2
    by_cases hm : m % 2 = 1
    · rw [if_pos hm, if_pos (decide_eq_true hm), Nat.pow_succ, ← hrest, hx.1]
      omega
    · rw [if_neg hm, if_neg (by simpa using hm), hrest, Nat.add_zero]

/-- The number of marked bits. -/
def Marking.count (m : Marking) : Nat := (List.range m.width).countP m.val.bits.getLsbD

/-- The number of marked bits of all elements. -/
def MemoryMark.count (m : MemoryMark) : Nat :=
  ((List.range' 0 (m.marks.last + 1)).map fun i => (m.marks.item i).count).sum

/-- How many bits are marked. -/
def FieldMark.count : FieldMark → Nat
  | .scalar m => m.count
  | .array m => m.count

/-- The number of marked bits of all fields. -/
def RecordMark.count (m : RecordMark) : Nat := (m.fields.map FieldMark.count).sum

theorem Marking.left_zero (m : Marking) : m.left 0 + 1 = 2 ^ m.count := by
  refine Word.gather_ones fun i hi => ?_
  rw [← BitVec.getLsbD, BitVec.getLsbD_not]
  simp [hi]

theorem MemoryMark.capacity_sizes (m : MemoryMark) (n first : Nat) :
    Counter.capacity m.sizes n first =
      2 ^ ((List.range' first n).map fun i => (m.marks.item i).count).sum := by
  induction n generalizing first with
  | zero => rfl
  | succ n ih =>
    rw [Counter.capacity, ih, List.range'_succ, List.map_cons, List.sum_cons, Nat.pow_add, sizes,
      Marking.left_zero]

theorem FieldMark.size_eq (m : FieldMark) : m.size = 2 ^ m.count := by
  cases m with
  | scalar m => exact m.left_zero
  | array m => exact m.capacity_sizes _ 0

theorem RecordMark.size_eq (m : RecordMark) : m.size = 2 ^ m.count := by
  rw [size, count, FieldMark.sizeAll]
  induction m.fields with
  | nil => rfl
  | cons f fs ih => rw [List.map_cons, List.prod_cons, ih, f.size_eq, List.map_cons, List.sum_cons,
      Nat.pow_add]

/-! ## Known bits -/

/-- The bits of a value that are known are those of the mark. -/
def Marking.Knows (m : Marking) (v : Value) : Prop :=
  v.width = m.width ∧ ∀ i < m.width, v.val.bits.known.getLsbD i = m.val.bits.getLsbD i

/-- In each element, the known bits are those of its mark. -/
def FieldMark.Knows : FieldMark → Content → Prop
  | .scalar m, .scalar value => m.Knows value
  | .array m, .array _ a => a.elements.last = m.marks.last ∧
    ∀ i ≤ m.marks.last, (m.marks.item i).Knows (a.elements.item i)
  | _, _ => False

/-- In each field, the known bits are those of its mark. -/
def RecordMark.Knows (m : RecordMark) (r : Record) : Prop :=
  List.Forall₂ (fun m f => FieldMark.Knows m (Field.content f)) m.fields r.fields

theorem Ternary.known_ofKnown {w : Nat} (x known : BitVec w) : (ofKnown x known).known = known := by
  apply BitVec.eq_of_getLsbD_eq
  intro i hi
  simp only [Ternary.known, unknown, ofKnown, BitVec.getLsbD_not, BitVec.getLsbD_and,
    BitVec.getLsbD_or, hi, decide_true, Bool.true_and]
  cases x.getLsbD i <;> cases known.getLsbD i <;> rfl

theorem Marking.knows_valueOf (m : Marking) (n : Nat) : m.Knows (m.valueOf n) := by
  refine ⟨rfl, fun i _ => ?_⟩
  show (Reduced.ofTernary (.ofKnown (BitVec.ofNat m.width n) m.val.bits)).bits.known.getLsbD i = _
  rw [Reduced.ofTernary_bits, Ternary.known_ofKnown]

theorem FieldMark.Shows.knows {m : FieldMark} {c : Content} {n : Nat} (h : m.Shows c n) :
    m.Knows c := by
  cases m with
  | scalar m =>
    cases c with
    | scalar v =>
      obtain ⟨x, rfl, -⟩ := h
      exact m.knows_valueOf x
    | array _ _ => exact h
  | array m =>
    cases c with
    | scalar v => exact h
    | array _ a =>
      obtain ⟨-, -, e, hshows, -⟩ := h
      refine ⟨hshows.last_eq, fun i hi => ?_⟩
      rw [hshows.item_eq hi]
      exact Marking.knows_valueOf _ _

theorem FieldMark.ShowsAll.knows {ms : List FieldMark} {fs : List Field} {n : Nat}
    (h : ShowsAll ms fs n) : List.Forall₂ (fun m f => Knows m (Field.content f)) ms fs := by
  induction ms generalizing fs n with
  | nil =>
    cases fs with
    | nil => exact .nil
    | cons f fs => exact h.elim
  | cons m ms ih =>
    cases fs with
    | nil => exact h.elim
    | cons f fs =>
      obtain ⟨k, j, hhead, htail, -⟩ := h
      exact .cons hhead.knows (ih htail)

/-! ## Members

Words are a member of what is shown at their own position only. -/

namespace FieldMark

variable {m : FieldMark} {c : Content} {d : Concrete.Datum} {n : Nat}

theorem Shows.position_eq (hm : m.WellFormed) (h : m.Shows c n) (hd : c.Has d) :
    m.position d = n := by
  have hkind : d.kind = m.kind := hd.kind_eq.symm.trans h.kind_eq
  cases m with
  | scalar m =>
    cases c with
    | scalar v =>
      cases d with
      | word x =>
        obtain ⟨y, rfl, rfl⟩ := h
        exact (m.has_valueOf hm (Kind.scalar.inj hkind) y).1 hd
      | array _ _ _ => exact hd.elim
    | array _ _ => exact h.elim
  | array m =>
    cases c with
    | scalar v => exact h.elim
    | array width a =>
      cases d with
      | word x => exact hd.elim
      | array indexWidth elementWidth element =>
        obtain ⟨rfl, rfl⟩ := Kind.array.inj hkind
        obtain ⟨-, -, e, hshows, rfl⟩ := h
        obtain ⟨-, -, -, -, hitems⟩ := hd
        -- both numbers are weighed digit by digit, and each digit is that of one element
        refine Counter.weigh_congr fun j _ hj => ?_
        have hj' : j ≤ m.marks.last := by omega
        have hlt : j < Word.last m.indexWidth + 1 := Nat.lt_succ_of_le (hm.last_eq ▸ hj')
        have hitem := hitems ⟨j, hlt⟩
        have hwidth := hm.item_width hj'
        rw [hshows.item_eq hj'] at hitem
        rw [MemoryMark.digits, MemoryMark.digits, Concrete.numbers, dif_pos hlt]
        generalize m.marks.item j = mark at hitem hwidth ⊢
        exact (mark.has_valueOf (hwidth.le.trans hm.width_le) hwidth.symm _).1 hitem

theorem ShowsAll.position_eq {ms : List FieldMark} {fs : List Field} {cs : List Concrete.Field}
    (hm : ∀ m ∈ ms, m.WellFormed) (h : ShowsAll ms fs n) (hc : List.Forall₂ Field.Has fs cs) :
    positionAll ms cs = n := by
  induction hc generalizing ms n with
  | nil =>
    cases ms with
    | nil => exact Eq.symm h
    | cons m ms => exact h.elim
  | cons hf _ ih =>
    cases ms with
    | nil => exact h.elim
    | cons m ms =>
      rw [List.forall_mem_cons] at hm
      obtain ⟨k, j, hhead, htail, rfl⟩ := h
      rw [positionAll, hhead.position_eq hm.1 hf.2.2, ih hm.2 htail]

end FieldMark

theorem RecordMark.Shows.has_iff {t : Shape} {m : RecordMark} {r : Record} {n : Nat}
    (hm : m.Fits t) (h : m.Shows t r n) {c : Concrete.Record} (hc : c.shape = t) :
    r.Has c ↔ FieldMark.positionAll m.fields c.fields = n :=
  ⟨h.2.position_eq hm.fields.wellFormed, h.2.has hm.fields h.1 hc⟩

/-! ## Back to the first record

What a field is set to at first depends on nothing that advancing changes. -/

theorem Ternary.ofKnown_none {w : Nat} (x y : BitVec w) : ofKnown x 0 = ofKnown y 0 :=
  ext_mem fun z => by simp [mem_ofKnown]

/-- A value that overflows is the first one again. -/
theorem Marking.advance_overflow (m : Marking) (n : Nat)
    (h : (m.advance (m.valueOf n)).1 = false) : (m.advance (m.valueOf n)).2 = m.first := by
  rw [advance] at h ⊢
  split
  · rename_i hmarked
    rw [if_pos hmarked] at h
    obtain ⟨hvalue, hleft⟩ := m.val.left_advance ((m.valueOf n).val.bits.umin.setWidth m.width)
    rw [if_neg (Bool.eq_false_iff.1 h)] at hleft
    show Sized.mk m.width (m.val.advance _).2 = ⟨m.width, m.val.proto 0⟩
    rw [hvalue, hleft.2]
  · rename_i hmarked
    have hbits : m.val.bits = 0 := by simpa [isMarked, Mark.isMarked] using hmarked
    rw [valueOf, first, Mark.first, Mark.proto, Mark.proto, hbits, Ternary.ofKnown_none]

namespace FieldMark

variable {m : FieldMark} {f g : Field} {n : Nat} {advanced : Bool}

theorem first_advance (h : m.Shows f.content n) (hadvance : m.advance f = .ok (advanced, g)) :
    m.first g = m.first f ∧ (advanced = false → m.first f = .ok g) := by
  obtain ⟨name, signedness, content⟩ := f
  cases m with
  | scalar m =>
    cases content with
    | scalar v =>
      obtain ⟨x, rfl, -⟩ := h
      obtain ⟨y, hvalue, -⟩ := m.advance_valueOf x
      have hwith : Field.withBits ⟨name, signedness, .scalar (m.valueOf x)⟩ (m.valueOf y) =
          .ok ⟨name, signedness, .scalar (m.valueOf y)⟩ := if_pos rfl
      -- the first value is that of the mark, whatever the field holds
      have hfirst (z : Nat) : first (.scalar m) ⟨name, signedness, .scalar (m.valueOf z)⟩ =
          .ok ⟨name, signedness, .scalar m.first⟩ := if_pos rfl
      have hadvance : (Field.withBits ⟨name, signedness, .scalar (m.valueOf x)⟩
          (m.advance (m.valueOf x)).2 >>= fun f => pure ((m.advance (m.valueOf x)).1, f)) =
            Except.ok (advanced, g) := hadvance
      rw [hvalue, hwith, ok_bind] at hadvance
      obtain ⟨rfl, rfl⟩ := Prod.mk.inj (Except.ok.inj hadvance)
      refine ⟨(hfirst y).trans (hfirst x).symm, fun hover => (hfirst x).trans ?_⟩
      rw [← m.advance_overflow x hover, hvalue]
    | array _ _ => exact h.elim
  | array m =>
    cases content with
    | scalar v => exact h.elim
    | array width a =>
      have hadvance : (m.advance a >>= fun r => pure (r.1,
          (⟨name, signedness, .array width r.2⟩ : Field))) = Except.ok (advanced, g) := hadvance
      obtain ⟨⟨overflow, a'⟩, ha, hg⟩ := bind_eq_ok.1 hadvance
      obtain ⟨rfl, rfl⟩ := Prod.mk.inj (Except.ok.inj hg)
      refine ⟨rfl, fun hover => ?_⟩
      rw [MemoryMark.advance] at ha
      obtain ⟨⟨carried, elements⟩, -, ha⟩ := bind_eq_ok.1 ha
      -- an array that does not carry starts again with its first elements
      cases carried with
      | true =>
        obtain ⟨rfl, -⟩ := Prod.mk.inj (Except.ok.inj ha)
        cases hover
      | false =>
        obtain ⟨-, rfl⟩ := Prod.mk.inj (Except.ok.inj ha)
        rfl

/-- The first value of a field that has its first value. -/
theorem first_first (hf : f.content.kind = m.kind) (h : m.first f = .ok g) : m.first g = .ok g := by
  obtain ⟨name, signedness, content⟩ := f
  cases m with
  | scalar m =>
    cases content with
    | scalar v =>
      have hwidth : m.width = v.width := (Kind.scalar.inj hf).symm
      obtain rfl := Except.ok.inj ((if_pos hwidth).symm.trans h)
      exact if_pos rfl
    | array _ _ => cases hf
  | array m =>
    obtain rfl := Except.ok.inj h
    rfl

/-- The fields set to the first values of their marks. -/
def firstAll (ms : List FieldMark) (fs : List Field) : Except Fault (List Field) :=
  (ms.zip fs).mapM fun p => p.1.first p.2

theorem firstAll_cons (m : FieldMark) (ms : List FieldMark) (f : Field) (fs : List Field) :
    firstAll (m :: ms) (f :: fs) = do return (← m.first f) :: (← firstAll ms fs) :=
  List.mapM_cons

theorem firstAll_advance {ms : List FieldMark} {fs gs : List Field} (h : ShowsAll ms fs n)
    (hadvance : RecordMark.advanceFields ms fs = .ok (advanced, gs)) :
    firstAll ms gs = firstAll ms fs ∧ (advanced = false → firstAll ms fs = .ok gs) := by
  induction ms generalizing fs gs n advanced with
  | nil =>
    cases fs with
    | nil =>
      obtain ⟨-, rfl⟩ := Prod.mk.inj (Except.ok.inj hadvance)
      exact ⟨rfl, fun _ => rfl⟩
    | cons f fs => exact h.elim
  | cons m ms ih =>
    cases fs with
    | nil => exact h.elim
    | cons f fs =>
      obtain ⟨k, j, hhead, htail, -⟩ := h
      rw [RecordMark.advanceFields] at hadvance
      obtain ⟨⟨carried, g⟩, hg, hadvance⟩ := bind_eq_ok.1 hadvance
      obtain ⟨hkeeps, hover⟩ := first_advance hhead hg
      rw [firstAll_cons]
      -- only a field that overflows lets the fields after it advance
      cases carried with
      | false =>
        obtain ⟨⟨advanced', gs'⟩, hgs, hadvance⟩ := bind_eq_ok.1 hadvance
        obtain ⟨rfl, rfl⟩ := Prod.mk.inj (Except.ok.inj hadvance)
        obtain ⟨hkeeps', hover'⟩ := ih htail hgs
        rw [firstAll_cons, hkeeps, hkeeps']
        refine ⟨rfl, fun hadv => ?_⟩
        rw [hover rfl, hover' hadv]
        rfl
      | true =>
        obtain ⟨rfl, rfl⟩ := Prod.mk.inj (Except.ok.inj hadvance)
        rw [firstAll_cons, hkeeps]
        exact ⟨rfl, fun hadv => by cases hadv⟩

theorem firstAll_firstAll {ms : List FieldMark} {fs gs : List Field}
    (hf : fs.map (fun f => f.content.kind) = ms.map kind) (h : firstAll ms fs = .ok gs) :
    firstAll ms gs = .ok gs := by
  induction ms generalizing fs gs with
  | nil =>
    obtain rfl : fs = [] := List.map_eq_nil_iff.1 hf
    obtain rfl : [] = gs := Except.ok.inj h
    rfl
  | cons m ms ih =>
    obtain ⟨f, fs, rfl, hhead, htail⟩ := List.map_eq_cons_iff.1 hf
    rw [firstAll_cons] at h
    obtain ⟨g, hg, h⟩ := bind_eq_ok.1 h
    obtain ⟨gs', hgs, h⟩ := bind_eq_ok.1 h
    obtain rfl := Except.ok.inj h
    rw [firstAll_cons, first_first hhead hg, ih htail hgs]
    rfl

end FieldMark

namespace RecordMark

variable {t : Shape} {m : RecordMark} {r : Record} {n : Nat}

/-- A record whose fields start again as those of a record. -/
def StartsAs (m : RecordMark) (r first : Record) : Prop :=
  FieldMark.firstAll m.fields r.fields = .ok first.fields

theorem first_startsAs (hm : m.Fits t) (h : m.first = .ok r) : m.StartsAs r r := by
  obtain ⟨fs, hfs, h⟩ := bind_eq_ok.1 h
  obtain rfl := Except.ok.inj h
  refine FieldMark.firstAll_firstAll ?_ hfs
  rw [hm.fields.kinds_eq, ← hm.template_eq, Record.shape, List.map_map]
  rfl

/-! ## Visits -/

/-- The records that are visited from one on until advancing overflows, and the record that it leaves
    then. -/
inductive Visits (m : RecordMark) : Record → List Record → Record → Prop
  | last {r s : Record} : m.advance r = .ok (false, s) → Visits m r [r] s
  | next {r r' s : Record} {rest : List Record} :
    m.advance r = .ok (true, r') → Visits m r' rest s → Visits m r (r :: rest) s

theorem Visits.enumerate {s : Record} {visited : List Record} (h : m.Visits r visited s) {fuel : Nat}
    (hfuel : visited.length ≤ fuel) : Verifier.enumerate m fuel r = .ok visited := by
  induction h generalizing fuel with
  | last hlast =>
    obtain ⟨fuel, rfl⟩ := Nat.exists_eq_succ_of_ne_zero (Nat.ne_of_gt hfuel)
    rw [Verifier.enumerate, hlast]
    rfl
  | next hnext _ ih =>
    obtain ⟨fuel, rfl⟩ := Nat.exists_eq_succ_of_ne_zero (Nat.ne_of_gt (Nat.zero_lt_of_lt hfuel))
    rw [Verifier.enumerate, hnext]
    show (Verifier.enumerate m fuel _ >>= _) = _
    rw [ih (Nat.le_of_succ_le_succ hfuel)]
    rfl

/-- One turn of the counter: one record less is left, or none was left and the first one is back. -/
theorem advance_turn (hm : m.Fits t) (h : m.Shows t r n) {first : Record} (hfirst : m.StartsAs r first) :
    (n = 0 ∧ m.advance r = .ok (false, first)) ∨
    ∃ r' n', n = n' + 1 ∧ m.advance r = .ok (true, r') ∧ m.Shows t r' n' ∧ m.StartsAs r' first := by
  obtain ⟨advanced, fs, n', hadvance, hshape, hshows, hdown, hwraps⟩ :=
    FieldMark.advanceFields_spec hm.fields h.1 h.2
  obtain ⟨hkeeps, hover⟩ := FieldMark.firstAll_advance h.2 hadvance
  have hrecord : m.advance r = .ok (advanced, ⟨fs⟩) := by
    rw [advance, Record.checkShape_ok (hm.template_eq.trans h.1.symm), ok_bind, hadvance]
    rfl
  cases advanced with
  | false =>
    have hfields : first.fields = fs := Except.ok.inj (hfirst.symm.trans (hover rfl))
    refine .inl ⟨(hwraps rfl).1, hrecord.trans ?_⟩
    rw [← hfields]
  | true =>
    exact .inr ⟨⟨fs⟩, n', (hdown rfl).symm, hrecord, ⟨hshape, hshows⟩, hkeeps.trans hfirst⟩

/-- From a record on, each record that is left is visited once, and then the first one is back. -/
theorem visits_from (hm : m.Fits t) {first : Record} (h : m.Shows t r n) (hfirst : m.StartsAs r first) :
    ∃ visited, m.Visits r visited first ∧ visited.length = n + 1 ∧
      ∀ i input, visited[i]? = some input → ∃ k, i + k = n ∧ m.Shows t input k := by
  induction n generalizing r with
  | zero =>
    rcases advance_turn hm h hfirst with ⟨-, hover⟩ | ⟨r', n', hn, -⟩
    · refine ⟨[r], .last hover, rfl, fun i input hi => ?_⟩
      cases i with
      | zero =>
        obtain rfl : r = input := Option.some.inj hi
        exact ⟨0, rfl, h⟩
      | succ i => cases hi
    · omega
  | succ n ih =>
    rcases advance_turn hm h hfirst with ⟨hn, -⟩ | ⟨r', n', hn, hnext, hshows, hstarts⟩
    · omega
    · obtain rfl : n = n' := Nat.succ.inj hn
      obtain ⟨visited, hvisits, hlength, hall⟩ := ih hshows hstarts
      refine ⟨r :: visited, .next hnext hvisits, congrArg (· + 1) hlength, fun i input hi => ?_⟩
      cases i with
      | zero =>
        obtain rfl : r = input := Option.some.inj hi
        exact ⟨n + 1, Nat.zero_add _, h⟩
      | succ i =>
        obtain ⟨k, hk, hshows⟩ := hall i input hi
        exact ⟨k, by omega, hshows⟩

/-- From the first record on, advancing visits a record for each value of the marked bits and comes
    back to the first one. In each visited record exactly the marked bits are known, and each record
    of words of the template is a member of exactly one of them. -/
theorem visits_partition (hm : m.Fits t) :
    ∃ (first : Record) (visited : List Record), m.first = .ok first ∧ m.Visits first visited first ∧
      visited.length = 2 ^ m.count ∧
      (∀ fuel ≥ 2 ^ m.count, Verifier.enumerate m fuel first = .ok visited) ∧
      (∀ input ∈ visited, input.shape = t ∧ m.Knows input) ∧
      ∀ c : Concrete.Record, c.shape = t →
        ∃! i : Nat, ∃ input : Record, visited[i]? = some input ∧ input.Has c := by
  -- as many records are left at the first one as the marked bits have other values
  obtain ⟨first, n, hfirst, hshows, hn⟩ := first_spec hm
  obtain ⟨visited, hvisits, hlength, hall⟩ := visits_from hm hshows (first_startsAs hm hfirst)
  have hcount : visited.length = 2 ^ m.count := by rw [hlength, hn, size_eq]
  refine ⟨first, visited, hfirst, hvisits, hcount, fun fuel hfuel => ?_, fun input hin => ?_,
    fun c hc => ?_⟩
  · exact hvisits.enumerate (hcount ▸ hfuel)
  · obtain ⟨i, hi⟩ := List.getElem?_of_mem hin
    obtain ⟨k, -, hk⟩ := hall i input hi
    exact ⟨hk.1, hk.2.knows⟩
  · -- words are a member where as many records are left as their position says
    set position := FieldMark.positionAll m.fields c.fields with hposition
    have hlt : position < m.size := FieldMark.positionAll_lt _ _
    have hi : n - position < visited.length := by omega
    refine ⟨n - position, ⟨visited[n - position], List.getElem?_eq_getElem hi, ?_⟩, ?_⟩
    · obtain ⟨k, hk, hshows⟩ := hall _ _ (List.getElem?_eq_getElem hi)
      exact (hshows.has_iff hm hc).2 (by omega)
    · rintro i ⟨input, hinput, hhas⟩
      obtain ⟨k, hk, hshows⟩ := hall i input hinput
      have := (hshows.has_iff hm hc).1 hhas
      omega

/-- Two bits of a value and both bits of one of two elements make sixteen records. -/
theorem visits_partition_mixed :
    ∃ (m : RecordMark) (first : Record) (visited : List Record),
      m.fields = [.scalar ⟨3, .of 5 1⟩, .array ⟨1, 2, ⟨[⟨0, ⟨2, .of 3 1⟩⟩], ⟨2, .unmarked 2⟩, 1⟩⟩] ∧
      m.first = .ok first ∧ m.Visits first visited first ∧ visited.length = 16 := by
  let elements : MemoryMark := ⟨1, 2, ⟨[⟨0, ⟨2, .of 3 1⟩⟩], ⟨2, .unmarked 2⟩, 1⟩⟩
  let m : RecordMark := ⟨⟨[⟨"x", .unsigned, .scalar ⟨3, .full 3⟩⟩,
    ⟨"a", .signless, .array 0 ⟨1, 2, .replicate 1 ⟨2, .full 2⟩⟩⟩]⟩, [.scalar ⟨3, .of 5 1⟩, .array elements]⟩
  have helements : elements.WellFormed := by
    refine ⟨by decide, ⟨by decide, by decide⟩, rfl, fun {i} _ => ?_⟩
    rw [Runs.item]
    cases h : elements.marks.runs.find? fun r => decide (i ≤ r.last) with
    | none => rfl
    | some r =>
      obtain rfl := List.mem_singleton.1 (List.mem_of_find?_eq_some h)
      rfl
  have hfit : m.Fits [⟨"x", .unsigned, .scalar 3⟩, ⟨"a", .signless, .array 1 2⟩] := by
    have hwidth : 3 ≤ Word.maxWidth := by decide
    exact ⟨rfl, rfl, List.forall_mem_cons.2 ⟨hwidth, List.forall_mem_singleton.2 helements⟩⟩
  obtain ⟨first, visited, hfirst, hvisits, hlength, -⟩ := visits_partition hfit
  exact ⟨m, first, visited, rfl, hfirst, hvisits, hlength.trans (by decide)⟩

end RecordMark

end RefineCheck
