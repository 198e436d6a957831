/-
  RefineCheck.Proofs.Property.Exact

  Comparisons are evaluated exactly in states of built values: the outcome is true if the comparison
  holds for every member of the value it reads, false if it holds for none, and unknown only if it
  holds for some members and not for others. The bounds of a built value are members in either
  reading, and a built value with one member shows that it has no other.
-/

import RefineCheck.Proofs.Concrete
import RefineCheck.Proofs.State.Key

namespace RefineCheck

/-! ## Exact outcomes -/

namespace Kleene

/-- An outcome that tells whether all, none or some of the elements of a set have a property. -/
structure Exact {α : Type} (v : Kleene) (S : Set α) (P : α → Prop) : Prop where
  tt_iff : v = .tt ↔ ∀ x ∈ S, P x
  ff_iff : v = .ff ↔ ∀ x ∈ S, ¬ P x
  unknown_iff : v = .unknown ↔ (∃ x ∈ S, P x) ∧ ∃ x ∈ S, ¬ P x

variable {α : Type} {v : Kleene} {S : Set α} {P : α → Prop}

/-- A sound outcome is exact if it is not unknown without need. -/
theorem exact_of_agrees (hS : S.Nonempty) (h : ∀ x ∈ S, v.Agrees (P x))
    (hu : v = .unknown → (∃ x ∈ S, P x) ∧ ∃ x ∈ S, ¬ P x) : v.Exact S P := by
  obtain ⟨x, hx⟩ := hS
  have htt (hv : v = .tt) : ∀ x ∈ S, P x := fun x hx => (h x hx).1 hv
  have hff (hv : v = .ff) : ∀ x ∈ S, ¬ P x := fun x hx => (h x hx).2 hv
  -- the three cases exclude each other, since the set has an element
  cases v with
  | tt =>
    have hall := htt rfl
    refine ⟨iff_of_true rfl hall, iff_of_false (by decide) fun hnone => hnone x hx (hall x hx),
      iff_of_false (by decide) ?_⟩
    rintro ⟨-, y, hy, hn⟩
    exact hn (hall y hy)
  | ff =>
    have hnone := hff rfl
    refine ⟨iff_of_false (by decide) fun hall => hnone x hx (hall x hx), iff_of_true rfl hnone,
      iff_of_false (by decide) ?_⟩
    rintro ⟨⟨y, hy, hp⟩, -⟩
    exact hnone y hy hp
  | unknown =>
    obtain ⟨⟨y, hy, hp⟩, z, hz, hn⟩ := hu rfl
    exact ⟨iff_of_false (by decide) fun hall => hn (hall z hz),
      iff_of_false (by decide) fun hnone => hnone y hy hp,
      iff_of_true rfl ⟨⟨y, hy, hp⟩, z, hz, hn⟩⟩

theorem Exact.not (h : v.Exact S P) : v.not.Exact S fun x => ¬ P x where
  tt_iff := by
    rw [← h.ff_iff]
    cases v <;> decide
  ff_iff := by
    simp only [Classical.not_not]
    rw [← h.tt_iff]
    cases v <;> decide
  unknown_iff := by
    simp only [Classical.not_not]
    rw [and_comm, ← h.unknown_iff]
    cases v <;> decide

end Kleene

/-! ## Built values -/

theorem Value.Built.nonempty {v : Value} (h : v.Built) : v.Nonempty := h.val.tight.exists_mem

theorem Content.Built.nonempty {c : Content} (h : c.Built) : c.Nonempty := by
  cases c with
  | scalar value => exact Value.Built.nonempty h
  | array _ memory =>
    have hcanonical := Memory.Built.canonical h
    intro i hi
    exact (hcanonical.item_built (hcanonical.last_eq ▸ hi)).nonempty

theorem State.Built.nonempty {s : State} (hs : s.Built) : s.Nonempty :=
  ⟨hs.panic.nonempty, fun f hf => (hs.result f hf).nonempty⟩

theorem State.Built.lookup {s : State} (hs : s.Built) {name : String} {index : Option Nat}
    {value : Value} {signedness : Signedness} (h : s.lookup name index = .ok (value, signedness)) :
    value.Built := by
  rcases value_of_lookup h with rfl | ⟨f, hf, hc⟩
  · exact hs.panic
  · have hcontent := hs.result f hf
    rcases hc with hc | ⟨width, memory, i, hc, hi, rfl⟩
    · rwa [hc] at hcontent
    · rw [hc] at hcontent
      have hcanonical := Memory.Built.canonical hcontent
      exact hcanonical.item_built (hcanonical.last_eq ▸ hi)

namespace Atomic

/-! ## Comparisons of words -/

/-- Whether a constant is the unsigned or the signed number of some word of the width. -/
def Representable (constant : Int) (w : Nat) : Prop :=
  ∃ x : BitVec w, (x.toNat : Int) = constant ∨ x.toInt = constant

/-- Whether a comparison holds for a word of a declared signedness. The word is equal to the constant
    if the width can represent the constant and the word has its two's-complement pattern. -/
def HoldsFor (a : Atomic) (declared : Signedness) {w : Nat} (x : BitVec w) : Prop :=
  match a.comparison with
  | .eq => Representable a.constant w ∧ x = BitVec.ofInt w a.constant
  | .ne => ¬ (Representable a.constant w ∧ x = BitVec.ofInt w a.constant)
  | comparison =>
    match a.reading declared with
    | .unsigned => comparison.Holds x.toNat a.constant
    | .signed => comparison.Holds x.toInt a.constant
    | .signless => False

theorem fit?_eq_some_iff {constant : Int} {w : Nat} (hw : w ≤ Word.maxWidth) {x : BitVec w} :
    fit? constant w = some x ↔ Representable constant w ∧ x = BitVec.ofInt w constant := by
  rw [← readAs_eq_iff constant hw, readAs]
  constructor
  · intro h
    split at h
    · exact ⟨⟨x, .inl h⟩, by rw [← h, BitVec.ofInt_natCast, BitVec.ofNat_toNat, BitVec.setWidth_eq]⟩
    · exact ⟨⟨x, .inr h⟩, by rw [← h, BitVec.ofInt_toInt]⟩
  · rintro ⟨⟨y, hy | hy⟩, rfl⟩
    · rw [← hy, BitVec.ofInt_natCast, BitVec.ofNat_toNat, BitVec.setWidth_eq, if_pos (by omega)]
    · rw [← hy, BitVec.ofInt_toInt]
      split
      · rename_i hpos
        have hmsb : y.msb = false := by
          cases hm : y.msb
          · rfl
          · have := BitVec.toInt_neg_of_msb_true hm
            omega
        rw [BitVec.toInt_eq_toNat_of_msb hmsb]
      · rfl

/-! ## Outcomes -/

variable {value : Value}

theorem equals_exact (hv : value.Built) (constant : Int) :
    (equals constant value).Exact {x | x ∈ value.val} fun x =>
      Representable constant value.width ∧ x = BitVec.ofInt value.width constant := by
  have hfit {x : BitVec value.width} : fit? constant value.width = some x ↔
      Representable constant value.width ∧ x = BitVec.ofInt value.width constant :=
    fit?_eq_some_iff hv.width_le
  refine Kleene.exact_of_agrees hv.nonempty (fun x hx => ?_) fun hu => ?_
  · rw [← hfit, ← readAs_eq_iff constant hv.width_le]
    exact equals_agrees constant hv.width_le hx
  · rw [equals] at hu
    split at hu
    · cases hu
    · rename_i x hx
      split at hu
      · rename_i hhas
        have hmem : x ∈ value.val := Reduced.has_iff.1 hhas
        refine ⟨⟨x, hmem, hfit.1 hx⟩, ?_⟩
        -- were all members equal to the constant, there would be one
        by_contra hall
        push Not at hall
        have hunique : ∃! y, y ∈ value.val := by
          refine ⟨x, hmem, fun y hy => ?_⟩
          have hy' := hfit.2 (hall y hy)
          exact Option.some.inj (hy'.symm.trans hx)
        rw [if_pos (hv.val.tight.word?_isSome_iff.2 hunique)] at hu
        cases hu
      · cases hu

/-- An ordering is left open only if it comes out differently at the bounds. -/
theorem holds_of_order_unknown {comparison : Comparison} (ho : comparison ≠ .eq ∧ comparison ≠ .ne)
    {lowest highest constant : Int} (h : order comparison lowest highest constant = .unknown) :
    (comparison.Holds lowest constant ∧ ¬ comparison.Holds highest constant) ∨
      (comparison.Holds highest constant ∧ ¬ comparison.Holds lowest constant) := by
  cases comparison with
  | eq => exact absurd rfl ho.1
  | ne => exact absurd rfl ho.2
  | lt | le | gt | ge =>
    simp only [order] at h
    simp only [Comparison.Holds]
    grind

/-- An ordering is exact if some members are read as the bounds. -/
theorem order_exact {α : Type} {S : Set α} {comparison : Comparison}
    (ho : comparison ≠ .eq ∧ comparison ≠ .ne) {read : α → Int} {lo hi : α} (hlo : lo ∈ S)
    (hhi : hi ∈ S) (h : ∀ x ∈ S, read lo ≤ read x ∧ read x ≤ read hi) (constant : Int) :
    (order comparison (read lo) (read hi) constant).Exact S fun x =>
      comparison.Holds (read x) constant := by
  refine Kleene.exact_of_agrees ⟨lo, hlo⟩ (fun x hx => ?_) fun hu => ?_
  · exact order_agrees comparison ho constant (h x hx).1 (h x hx).2
  · rcases holds_of_order_unknown ho hu with ⟨hyes, hno⟩ | ⟨hyes, hno⟩
    · exact ⟨⟨lo, hlo, hyes⟩, hi, hhi, hno⟩
    · exact ⟨⟨hi, hhi, hyes⟩, lo, hlo, hno⟩

theorem outcome_exact (hv : value.Built) {a : Atomic} {declared : Signedness} {v : Kleene}
    (h : a.outcome (a.reading declared) value = .ok v) :
    v.Exact {x | x ∈ value.val} (a.HoldsFor declared) := by
  -- the bounds of a tight value are members, so that an order is decided just if it is by them
  have hbounds := hv.val.tight.bounded
  have hunsigned (ho) : (order a.comparison value.lower value.upper a.constant).Exact
      {x | x ∈ value.val} fun x => a.comparison.Holds x.toNat a.constant :=
    order_exact (S := {x | x ∈ value.val}) ho hbounds.umin_mem hbounds.umax_mem (fun x hx =>
      ⟨Int.ofNat_le.2 (hbounds.unsigned x hx).1, Int.ofNat_le.2 (hbounds.unsigned x hx).2⟩) _
  have hsigned (ho) : (order a.comparison value.val.smin.toInt value.val.smax.toInt
      a.constant).Exact {x | x ∈ value.val} fun x => a.comparison.Holds x.toInt a.constant :=
    order_exact (S := {x | x ∈ value.val}) ho hbounds.smin_mem hbounds.smax_mem (fun x hx =>
      ⟨BitVec.sle_iff_toInt_le.1 (hbounds.signed x hx).1,
        BitVec.sle_iff_toInt_le.1 (hbounds.signed x hx).2⟩) _
  rw [outcome.eq_def] at h
  unfold HoldsFor
  cases hc : a.comparison with
  | eq =>
    simp only [hc, Except.ok.injEq] at h ⊢
    exact h ▸ equals_exact hv a.constant
  | ne =>
    simp only [hc, Except.ok.injEq] at h ⊢
    exact h ▸ (equals_exact hv a.constant).not
  | lt | le | gt | ge =>
    rw [hc] at hunsigned hsigned
    simp only [hc] at h ⊢
    cases hr : a.reading declared with
    | unsigned =>
      simp only [hr, Except.ok.injEq] at h ⊢
      exact h ▸ hunsigned ⟨by decide, by decide⟩
    | signed =>
      simp only [hr, Except.ok.injEq] at h ⊢
      exact h ▸ hsigned ⟨by decide, by decide⟩
    | signless =>
      simp only [hr] at h
      cases h

/-- In a state of built values, the value of a comparison is true just if the comparison holds for
    every member of the value it reads, false just if it holds for none, and unknown otherwise. The
    complementary comparison has the complementary value, or fails with the same error. -/
theorem evaluate_exact {s : State} (hs : s.Built) (a : Atomic) :
    (∀ v, a.evaluate s = .ok v → ∃ value declared, s.lookup a.name a.index = .ok (value, declared) ∧
      v.Exact {x | x ∈ value.val} (a.HoldsFor declared)) ∧
    a.complement.evaluate s = (a.evaluate s).map Kleene.not := by
  refine ⟨fun v hv => ?_, evaluate_complement hs.nonempty a⟩
  rw [evaluate_eq, bind_eq_ok] at hv
  obtain ⟨⟨value, declared⟩, hlookup, hout⟩ := hv
  exact ⟨value, declared, hlookup, outcome_exact (hs.lookup hlookup) hout⟩

/-- Of the words of a field about which nothing is known, some are at most seven and some are not. -/
theorem evaluate_exact_striped :
    (State.striped (.full 4)).Built ∧
      evaluate ⟨"x", none, .signless, .le, 7⟩ (State.striped (.full 4)) = .ok .unknown ∧
      ∃ value declared, (State.striped (.full 4)).lookup "x" none = .ok (value, declared) ∧
        Kleene.unknown.Exact {x | x ∈ value.val}
          (HoldsFor ⟨"x", none, .signless, .le, 7⟩ declared) := by
  have hbuilt := State.built_striped (.full 4)
  have hvalue : evaluate ⟨"x", none, .signless, .le, 7⟩ (State.striped (.full 4)) =
      .ok .unknown := by decide
  exact ⟨hbuilt, hvalue, (evaluate_exact hbuilt _).1 _ hvalue⟩

end Atomic

end RefineCheck
