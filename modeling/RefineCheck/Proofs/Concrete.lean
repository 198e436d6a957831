/-
  RefineCheck.Proofs.Concrete

  Single states: records of words instead of sets of words, with the comparisons evaluated on
  them. An abstract state stands for the single states whose words are members of its values,
  and a definite outcome of a comparison is its outcome in all of them.
-/

import Mathlib
import RefineCheck.Proofs.Property.Atomic
import RefineCheck.Proofs.Runs
import RefineCheck.Proofs.Semantics.Abstraction

namespace RefineCheck

/-! ## Words and records of words -/

namespace Concrete

/-- What a field holds: a word, or a word for each index. -/
inductive Datum
  | word (x : Sized BitVec)
  | array (indexWidth elementWidth : Nat)
    (element : Fin (Word.last indexWidth + 1) → BitVec elementWidth)

/-- A named field of a concrete record. -/
structure Field where
  name : String
  signedness : Signedness
  datum : Datum

/-- A concrete record: its fields in order. -/
structure Record where
  fields : List Field

/-- A concrete state: one panic code with a concrete record. -/
structure State where
  panic : BitVec panicWidth
  result : Record

/-- The word that a name and an index denote, with its signedness. -/
def State.lookup (s : State) (name : String) (index : Option Nat) :
    Option (Sized BitVec × Signedness) :=
  if name = panicField then
    match index with
    | some _ => none
    | none => some (⟨panicWidth, s.panic⟩, .unsigned)
  else
    match s.result.fields.find? (·.name == name) with
    | none => none
    | some f =>
      match f.datum, index with
      | .word x, none => some (x, f.signedness)
      | .array indexWidth elementWidth element, some i =>
        if h : i ≤ Word.last indexWidth then
          some (⟨elementWidth, element ⟨i, Nat.lt_succ_of_le h⟩⟩, f.signedness)
        else none
      | _, _ => none

end Concrete

/-! ## Comparisons -/

/-- Whether a comparison of two numbers holds. -/
def Comparison.Holds : Comparison → Int → Int → Prop
  | .eq, m, n => m = n
  | .ne, m, n => m ≠ n
  | .lt, m, n => m < n
  | .le, m, n => m ≤ n
  | .gt, m, n => m > n
  | .ge, m, n => m ≥ n

namespace Atomic

/-- The number that a word is compared as for equality with a constant: only the sign of the constant
    decides in which way the word is read. -/
def readAs (constant : Int) {w : Nat} (y : BitVec w) : Int :=
  if 0 ≤ constant then y.toNat else y.toInt

/-- The number that a word of a declared signedness is compared as. -/
def number? (a : Atomic) (declared : Signedness) (x : Sized BitVec) : Option Int :=
  match a.comparison with
  | .eq | .ne => some (readAs a.constant x.val)
  | .lt | .le | .gt | .ge =>
    match a.reading declared with
    | .unsigned => some x.val.toNat
    | .signed => some x.val.toInt
    | .signless => none

/-- Whether a comparison holds in a single state. -/
def HoldsIn (a : Atomic) (s : Concrete.State) : Prop :=
  ∃ x declared n, s.lookup a.name a.index = some (x, declared) ∧ a.number? declared x = some n ∧
    a.comparison.Holds n a.constant

end Atomic

/-! ## Members -/

/-- Whether a value stands for a word. -/
def Value.Has (v : Value) (x : Sized BitVec) : Prop :=
  v.width ≤ Word.maxWidth ∧ ∃ y ∈ v.val, x = ⟨v.width, y⟩

/-- A datum that the content stands for: one of the same kind, of members only. -/
def Content.Has : Content → Concrete.Datum → Prop
  | .scalar value, .word x => value.Has x
  | .array _ memory, .array indexWidth elementWidth element =>
    memory.indexWidth = indexWidth ∧ memory.elementWidth = elementWidth ∧ memory.elements.Ordered ∧
      memory.elements.last = Word.last indexWidth ∧
      ∀ i, (memory.elements.item i.1).Has ⟨elementWidth, element i⟩
  | _, _ => False

/-- A concrete field that the field stands for. -/
def Field.Has (f : Field) (c : Concrete.Field) : Prop :=
  f.name = c.name ∧ f.signedness = c.signedness ∧ f.content.Has c.datum

/-- A concrete record that the record stands for, field by field. -/
def Record.Has (r : Record) (c : Concrete.Record) : Prop := List.Forall₂ Field.Has r.fields c.fields

/-- Whether a state stands for a single state. -/
def State.Has (s : State) (c : Concrete.State) : Prop :=
  s.panic.Has ⟨panicWidth, c.panic⟩ ∧ s.result.Has c.result

theorem Value.Has.nonempty {v : Value} {x : Sized BitVec} (h : v.Has x) : v.Nonempty := by
  obtain ⟨-, y, hy, -⟩ := h
  exact ⟨y, hy⟩

theorem Content.Has.nonempty {c : Content} {d : Concrete.Datum} (h : c.Has d) : c.Nonempty := by
  cases c with
  | scalar value =>
    cases d with
    | word x => exact Value.Has.nonempty h
    | array _ _ _ => exact h.elim
  | array _ memory =>
    cases d with
    | word x => exact h.elim
    | array indexWidth elementWidth element =>
      obtain ⟨rfl, -, -, -, hitems⟩ := h
      intro i hi
      exact (hitems ⟨i, Nat.lt_succ_of_le hi⟩).nonempty

theorem Record.Has.nonempty {r : Record} {c : Concrete.Record} (h : r.Has c) : r.Nonempty := by
  intro f hf
  obtain ⟨fields⟩ := r
  obtain ⟨cells⟩ := c
  simp only [Record.Has] at h
  induction h with
  | nil => cases hf
  | cons hfield _ ih =>
    rcases List.mem_cons.1 hf with rfl | hf
    · exact hfield.2.2.nonempty
    · exact ih hf

theorem State.Has.nonempty {s : State} {c : Concrete.State} (h : s.Has c) : s.Nonempty :=
  ⟨h.1.nonempty, h.2.nonempty⟩

/-! ## Outcomes -/

theorem Record.Has.find {fields : List Field} {cells : List Concrete.Field}
    (h : List.Forall₂ Field.Has fields cells) {name : String} {f : Field}
    (hf : fields.find? (·.name == name) = some f) :
    ∃ c, cells.find? (·.name == name) = some c ∧ f.Has c := by
  induction h with
  | nil => cases hf
  | @cons g c fields cells hhas _ ih =>
    rw [List.find?_cons] at hf ⊢
    rw [← hhas.1]
    cases hname : g.name == name with
    | true =>
      simp only [hname] at hf ⊢
      obtain rfl := Option.some.inj hf
      exact ⟨c, rfl, hhas⟩
    | false =>
      simp only [hname] at hf ⊢
      exact ih hf

/-- What a scalar stands for is a word. -/
theorem Content.Has.exists_word {value : Value} {d : Concrete.Datum}
    (h : (Content.scalar value).Has d) : ∃ x, d = .word x ∧ value.Has x := by
  cases d with
  | word x => exact ⟨x, rfl, h⟩
  | array _ _ _ => exact h.elim

/-- What an array stands for has a member of every element at its index. -/
theorem Content.Has.exists_elements {width : Nat} {memory : Memory} {d : Concrete.Datum}
    (h : (Content.array width memory).Has d) :
    ∃ element, d = .array memory.indexWidth memory.elementWidth element ∧
      ∀ i, (memory.elements.item i.1).Has ⟨memory.elementWidth, element i⟩ := by
  cases d with
  | word _ => exact h.elim
  | array indexWidth elementWidth element =>
    obtain ⟨rfl, rfl, -, -, hitems⟩ := h
    exact ⟨element, rfl, hitems⟩

/-- A name denotes a member of the value that it denotes in the abstract state. -/
theorem State.Has.lookup {s : State} {c : Concrete.State} (h : s.Has c) {name : String}
    {index : Option Nat} {value : Value} {declared : Signedness}
    (hl : s.lookup name index = .ok (value, declared)) :
    ∃ x, c.lookup name index = some (x, declared) ∧ value.Has x := by
  rw [State.lookup.eq_def] at hl
  rw [Concrete.State.lookup.eq_def]
  split at hl
  · -- the panic code
    rename_i hname
    rw [if_pos hname]
    split at hl
    · cases hl
    · obtain ⟨rfl, rfl⟩ := Prod.mk.inj (Except.ok.inj hl)
      exact ⟨_, rfl, h.1⟩
  · rename_i hname
    rw [if_neg hname]
    split at hl
    · cases hl
    · rename_i f hf
      obtain ⟨d, hd, -, hsign, hcontent⟩ := Record.Has.find h.2 hf
      rw [hd]
      -- a scalar is read without an index and an array with one, or the lookup fails
      cases hc : f.content with
      | scalar value' =>
        rw [hc] at hcontent
        obtain ⟨x, hdatum, hx⟩ := hcontent.exists_word
        cases index with
        | some i =>
          simp only [hc] at hl
          cases hl
        | none =>
          simp only [hc] at hl
          obtain ⟨rfl, rfl⟩ := Prod.mk.inj (Except.ok.inj hl)
          exact ⟨x, by simp only [hdatum, hsign], hx⟩
      | array width memory =>
        rw [hc] at hcontent
        obtain ⟨element, hdatum, hitems⟩ := hcontent.exists_elements
        cases index with
        | none =>
          simp only [hc] at hl
          cases hl
        | some i =>
          simp only [hc] at hl
          split at hl
          · rename_i hi
            obtain ⟨rfl, rfl⟩ := Prod.mk.inj (Except.ok.inj hl)
            exact ⟨_, by simp only [hdatum, hsign, dif_pos hi], hitems ⟨i, Nat.lt_succ_of_le hi⟩⟩
          · cases hl

theorem Word.last_eq {w : Nat} (hw : w ≤ Word.maxWidth) : Word.last w = 2 ^ w - 1 := by
  rw [Word.last, Word.card, min_eq_left hw]
  rfl

theorem Reduced.eq_of_word? {w : Nat} {a : Reduced w} {x y : BitVec w} (h : a.word? = some y)
    (hx : x ∈ a) : x = y := by
  rw [Reduced.word?, Option.orElse_eq_orElse, Option.orElse_eq_or, Option.or_eq_some_iff] at h
  rcases h with h | ⟨-, h⟩
  · exact Ternary.eq_of_word? h hx.1
  · exact SplitRange.eq_of_word? h hx.2

theorem Reduced.mem_iff_of_word? {w : Nat} {a : Reduced w} {x y : BitVec w} (h : a.word? = some y)
    (ha : ∃ x, x ∈ a) : x ∈ a ↔ x = y := by
  refine ⟨eq_of_word? h, ?_⟩
  rintro rfl
  obtain ⟨z, hz⟩ := ha
  rwa [← eq_of_word? h hz]

namespace Atomic

theorem toNat_eq_iff_fit? (n : Nat) {w : Nat} (hw : w ≤ Word.maxWidth) (y : BitVec w) :
    y.toNat = n ↔ fit? n w = some y := by
  have hlt := y.isLt
  rw [fit?, if_pos (Int.natCast_nonneg n), Word.last_eq hw]
  constructor
  · rintro rfl
    rw [if_pos (by omega), BitVec.ofInt_natCast, BitVec.ofNat_toNat, BitVec.setWidth_eq]
  · intro h
    split at h
    · rename_i hle
      rw [← Option.some.inj h, BitVec.ofInt_natCast, BitVec.toNat_ofNat,
        Nat.mod_eq_of_lt (by omega)]
    · cases h

theorem toInt_eq_iff_fit? {constant : Int} (hneg : ¬ 0 ≤ constant) {w : Nat} (y : BitVec w) :
    y.toInt = constant ↔ fit? constant w = some y := by
  have hcard : (Word.card (w - 1) : Int) = 2 ^ (w - 1) := Nat.cast_pow 2 (w - 1)
  rw [fit?, if_neg hneg]
  constructor
  · rintro rfl
    -- the empty word is not negative
    have hpos : w ≠ 0 := by
      rintro rfl
      exact hneg (by simp [BitVec.eq_nil y])
    have hle := BitVec.le_toInt y
    rw [if_neg (by omega), BitVec.ofInt_toInt]
  · intro h
    split at h
    · cases h
    · rename_i hnot
      have hle : -2 ^ (w - 1) ≤ constant := by omega
      have hpos : (0 : Int) < 2 ^ (w - 1) := by positivity
      rw [← Option.some.inj h]
      exact BitVec.toInt_ofInt_eq_self (by omega) hle (by omega)

/-- The word that fits a constant is the one that is equal to it. -/
theorem readAs_eq_iff (constant : Int) {w : Nat} (hw : w ≤ Word.maxWidth) (y : BitVec w) :
    readAs constant y = constant ↔ fit? constant w = some y := by
  -- the sign of the constant decides how the word is read
  rw [readAs]
  split
  · rename_i hc
    lift constant to Nat using hc
    rw [Nat.cast_inj]
    exact toNat_eq_iff_fit? constant hw y
  · rename_i hc
    exact toInt_eq_iff_fit? hc y

theorem equals_agrees (constant : Int) {v : Value} (hw : v.width ≤ Word.maxWidth)
    {y : BitVec v.width} (hy : y ∈ v.val) :
    (equals constant v).Agrees (readAs constant y = constant) := by
  rw [readAs_eq_iff constant hw, equals]
  cases hfit : fit? constant v.width with
  | none => exact ⟨nofun, fun _ => nofun⟩
  | some x =>
    simp only [Option.some.injEq]
    split
    · rename_i hhas
      cases hword : v.val.word? with
      | none => exact Kleene.agrees_unknown _
      | some z =>
        have hxz := Reduced.eq_of_word? hword (Reduced.has_iff.1 hhas)
        have hyz := Reduced.eq_of_word? hword hy
        exact ⟨fun _ => hxz.trans hyz.symm, nofun⟩
    · rename_i hhas
      refine ⟨nofun, ?_⟩
      rintro - rfl
      exact hhas (Reduced.has_iff.2 hy)

/-- The numbers between bounds compare with a constant as the bounds say. -/
theorem order_agrees (comparison : Comparison) (ho : comparison ≠ .eq ∧ comparison ≠ .ne)
    {lowest highest n : Int} (constant : Int) (hl : lowest ≤ n) (hh : n ≤ highest) :
    (order comparison lowest highest constant).Agrees (comparison.Holds n constant) := by
  cases comparison with
  | eq => exact absurd rfl ho.1
  | ne => exact absurd rfl ho.2
  | lt | le | gt | ge =>
    simp only [order, Comparison.Holds, Kleene.Agrees]
    constructor
    · intro h
      split at h
      · simp_all
        omega
      · split at h <;> cases h
    · intro h
      split at h
      · cases h
      · split at h
        · simp_all
          omega
        · cases h

theorem number?_complement (a : Atomic) (declared : Signedness) (x : Sized BitVec) :
    a.complement.number? declared x = a.number? declared x := by
  rw [number?, number?, complement]
  cases a.comparison <;> rfl

theorem holds_complement (comparison : Comparison) (m n : Int) :
    comparison.complement.Holds m n ↔ ¬ comparison.Holds m n := by
  cases comparison <;> simp only [Comparison.complement, Comparison.Holds] <;> omega

/-- A comparison that has an outcome in an abstract state reads a number in each of its members, and
    a definite outcome is right for this number. -/
theorem outcome_agrees {a : Atomic} {s : State} {c : Concrete.State} {v : Kleene} (h : s.Has c)
    (hv : a.evaluate s = .ok v) :
    ∃ x declared n, c.lookup a.name a.index = some (x, declared) ∧
      a.number? declared x = some n ∧ v.Agrees (a.comparison.Holds n a.constant) := by
  rw [evaluate_eq] at hv
  simp only [bind_eq_ok] at hv
  obtain ⟨⟨value, declared⟩, hlookup, hout⟩ := hv
  obtain ⟨x, hx, hw, y, hy, rfl⟩ := h.lookup hlookup
  have hequals := equals_agrees a.constant hw hy
  -- the number lies between the bounds, unsigned and signed
  have hlower : (value.lower : Int) ≤ y.toNat := Int.ofNat_le.2 (Reduced.umin_le hy)
  have hupper : (y.toNat : Int) ≤ value.upper := Int.ofNat_le.2 (Reduced.le_umax hy)
  have hsmin := BitVec.sle_iff_toInt_le.1 (Reduced.smin_sle hy)
  have hsmax := BitVec.sle_iff_toInt_le.1 (Reduced.sle_smax hy)
  have hunsigned (ho) := order_agrees a.comparison ho a.constant hlower hupper
  have hsigned (ho) := order_agrees a.comparison ho a.constant hsmin hsmax
  refine ⟨⟨value.width, y⟩, declared, ?_⟩
  rw [outcome.eq_def] at hout
  rw [number?.eq_def]
  cases hc : a.comparison with
  | eq =>
    simp only [hc, Except.ok.injEq] at hout
    exact ⟨_, hx, rfl, hout ▸ hequals⟩
  | ne =>
    simp only [hc, Except.ok.injEq] at hout
    exact ⟨_, hx, rfl, hout ▸ Kleene.agrees_not hequals⟩
  -- an order needs to know how the number is read
  | lt | le | gt | ge =>
    rw [hc] at hunsigned hsigned
    simp only [hc] at hout ⊢
    cases hr : a.reading declared with
    | unsigned =>
      simp only [hr, Except.ok.injEq] at hout
      exact ⟨_, hx, rfl, hout ▸ hunsigned ⟨by decide, by decide⟩⟩
    | signed =>
      simp only [hr, Except.ok.injEq] at hout
      exact ⟨_, hx, rfl, hout ▸ hsigned ⟨by decide, by decide⟩⟩
    | signless =>
      simp only [hr] at hout
      cases hout

/-- A definite outcome of a comparison is right in every member of an abstract state. -/
theorem evaluate_agrees {a : Atomic} {s : State} {c : Concrete.State} {v : Kleene} (h : s.Has c)
    (hv : a.evaluate s = .ok v) : v.Agrees (a.HoldsIn c) := by
  obtain ⟨x, declared, n, hx, hn, hagrees⟩ := outcome_agrees h hv
  have hiff : a.HoldsIn c ↔ a.comparison.Holds n a.constant := by
    refine ⟨?_, fun hholds => ⟨x, declared, n, hx, hn, hholds⟩⟩
    rintro ⟨x', declared', n', hx', hn', hholds⟩
    obtain ⟨rfl, rfl⟩ := Prod.mk.inj (Option.some.inj (hx.symm.trans hx'))
    obtain rfl := Option.some.inj (hn.symm.trans hn')
    exact hholds
  rwa [hiff]

/-- A comparison that has an outcome holds in a member of an abstract state or its complement does. -/
theorem holdsIn_complement {a : Atomic} {s : State} {c : Concrete.State} {v : Kleene} (h : s.Has c)
    (hv : a.evaluate s = .ok v) : a.complement.HoldsIn c ↔ ¬ a.HoldsIn c := by
  obtain ⟨x, declared, n, hx, hn, -⟩ := outcome_agrees h hv
  have hx' : c.lookup a.complement.name a.complement.index = some (x, declared) := hx
  simp only [HoldsIn, hx', hx, number?_complement, hn, Option.some.injEq, Prod.mk.injEq, and_assoc,
    exists_eq_left', exists_and_left]
  exact holds_complement a.comparison n a.constant

end Atomic

end RefineCheck
