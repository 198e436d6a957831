/-
  RefineCheck.Proofs.Domain.Monotone

  The operators of all three domains are monotone: refining an operand refines the result. In the
  reduced product this follows from the components, since a reduction is monotone as well.
-/

import RefineCheck.Proofs.Domain.Lattice
import RefineCheck.Proofs.SplitRange.Monotone

namespace RefineCheck

/-! ## Monotone domains -/

/-- For operands that contain others, the operators return values of which the one for the wider
    operands contains the other one. -/
structure Domain.Monotone (F : Nat → Type) [Domain F] (Valid : {w : Nat} → F w → Prop) : Prop where
  unary {w : Nat} (op : UnaryOp) {a a' : F w} : Valid a → Valid a' →
    Domain.contains a a' = true →
    ∃ r r', Domain.unary op a = .ok r ∧ Domain.unary op a' = .ok r' ∧ Domain.contains r r' = true
  binary {w : Nat} (op : BinaryOp) {a b a' b' : F w} : Valid a → Valid b → Valid a' → Valid b' →
    Domain.contains a a' = true → Domain.contains b b' = true →
    ∃ r r', Domain.binary op a b = .ok r ∧ Domain.binary op a' b' = .ok r' ∧
      Domain.contains r r' = true
  compare {w : Nat} (op : CompareOp) {a b a' b' : F w} : Valid a → Valid b → Valid a' → Valid b' →
    Domain.contains a a' = true → Domain.contains b b' = true →
    ∃ r r', Domain.compare op a b = .ok r ∧ Domain.compare op a' b' = .ok r' ∧
      Domain.contains r r' = true
  divide {w : Nat} (op : DivideOp) {a b a' b' : F w} : Valid a → Valid b → Valid a' → Valid b' →
    Domain.contains a a' = true → Domain.contains b b' = true →
    ∃ r r', Domain.divide op a b = .ok r ∧ Domain.divide op a' b' = .ok r' ∧
      Domain.contains r.panic r'.panic = true ∧ Domain.contains r.result r'.result = true
  extend {w : Nat} (op : ExtendOp) {a a' : F w} (v : Nat) : Valid a → Valid a' →
    Domain.contains a a' = true →
    ∃ r r' : F v, Domain.extend op a v = .ok r ∧ Domain.extend op a' v = .ok r' ∧
      Domain.contains r r' = true
  join {w : Nat} {a b a' b' : F w} : Valid a → Valid b → Valid a' → Valid b' →
    Domain.contains a a' = true → Domain.contains b b' = true →
    ∃ r r', Domain.join a b = .ok r ∧ Domain.join a' b' = .ok r' ∧ Domain.contains r r' = true

/-! ## Three-valued words -/

namespace Ternary

variable {w : Nat} {a b a' b' : Ternary w}

theorem unary_mono (op : UnaryOp) (ha : a.contains a' = true) :
    (a.unary op).contains (a'.unary op) = true := by
  cases op with
  | neg => exact neg_mono ha
  | not => exact not_mono ha

theorem binary_mono (op : BinaryOp) (ha : a.contains a' = true) (hb : b.contains b' = true) :
    (binary op a b).contains (binary op a' b') = true := by
  cases op with
  | add => exact add_mono ha hb
  | sub => exact sub_mono ha hb
  | mul => exact mul_mono ha hb
  | and => exact and_mono ha hb
  | or => exact or_mono ha hb
  | xor => exact xor_mono ha hb
  | shl => exact shl_mono ha hb
  | lshr => exact lshr_mono ha hb
  | ashr => exact ashr_mono ha hb

theorem compare_mono (op : CompareOp) (ha : a.contains a' = true) (hb : b.contains b' = true) :
    (compare op a b).contains (compare op a' b') = true := by
  cases op with
  | eq => exact eq_mono ha hb
  | ne => exact not_mono (eq_mono ha hb)
  | ult => exact ult_mono ha hb
  | ule => exact ule_mono ha hb
  | slt => exact slt_mono ha hb
  | sle => exact sle_mono ha hb

theorem divide_mono (op : DivideOp) (ha : a.contains a' = true) (hb : b.contains b' = true) :
    (divide op a b).panic.contains (divide op a' b').panic = true ∧
      (divide op a b).result.contains (divide op a' b').result = true := by
  refine ⟨panicOf_mono hb _, ?_⟩
  cases op with
  | udiv => exact udiv_mono ha hb
  | urem => exact urem_mono ha hb
  | sdiv => exact enumerate_mono ha hb _
  | srem => exact enumerate_mono ha hb _

theorem extend_mono (op : ExtendOp) (ha : a.contains a' = true) (v : Nat) :
    (extend op a v).contains (extend op a' v) = true := by
  cases op with
  | uext => exact uext_mono ha v
  | sext => exact sext_mono ha v

theorem monotone : Domain.Monotone Ternary fun _ => True where
  unary op _ _ _ _ ha := ⟨_, _, rfl, rfl, unary_mono op ha⟩
  binary op _ _ _ _ _ _ _ _ ha hb := ⟨_, _, rfl, rfl, binary_mono op ha hb⟩
  compare op _ _ _ _ _ _ _ _ ha hb := ⟨_, _, rfl, rfl, compare_mono op ha hb⟩
  divide op _ _ _ _ _ _ _ _ ha hb := ⟨_, _, rfl, rfl, divide_mono op ha hb⟩
  extend op _ _ v _ _ ha := ⟨_, _, rfl, rfl, extend_mono op ha v⟩
  join _ _ _ _ ha hb := ⟨_, _, rfl, rfl, join_mono ha hb⟩

end Ternary

/-! ## Split ranges -/

namespace SplitRange

variable {w : Nat} {d e d' e' : SplitRange w}

theorem unary_mono (op : UnaryOp) (hd : d.contains d' = true) :
    (d.unary op).contains (d'.unary op) = true := by
  cases op with
  | neg => exact neg_mono hd
  | not => exact not_mono hd

theorem binary_mono (op : BinaryOp) (hd : d.contains d' = true) (he : e.contains e' = true) :
    (binary op d e).contains (binary op d' e') = true := by
  cases op with
  | add => exact add_mono hd he
  | sub => exact sub_mono hd he
  | mul => exact mul_mono hd he
  | and => exact viaTernary_mono Ternary.and_mono hd he
  | or => exact viaTernary_mono Ternary.or_mono hd he
  | xor => exact viaTernary_mono Ternary.xor_mono hd he
  | shl => exact viaTernary_mono Ternary.shl_mono hd he
  | lshr => exact viaTernary_mono Ternary.lshr_mono hd he
  | ashr => exact viaTernary_mono Ternary.ashr_mono hd he

theorem compare_mono (op : CompareOp) (hd : d.contains d' = true) (he : e.contains e' = true) :
    (compare op d e).contains (compare op d' e') = true := by
  cases op with
  | eq => exact eq_mono hd he
  | ne => exact not_mono (eq_mono hd he)
  | ult => exact ult_mono hd he
  | ule => exact ule_mono hd he
  | slt => exact slt_mono hd he
  | sle => exact sle_mono hd he

theorem divide_mono (op : DivideOp) (hd : d.contains d' = true) (he : e.contains e' = true) :
    (divide op d e).panic.contains (divide op d' e').panic = true ∧
      (divide op d e).result.contains (divide op d' e').result = true := by
  refine ⟨panicOf_mono he _, ?_⟩
  cases op with
  | udiv => exact udiv_mono hd he
  | urem => exact urem_mono hd he
  | sdiv => exact exactOrFull_mono hd he _
  | srem => exact exactOrFull_mono hd he _

theorem extend_mono (op : ExtendOp) (hd : d.contains d' = true) (v : Nat) :
    (extend op d v).contains (extend op d' v) = true := by
  cases op with
  | uext => exact uext_mono hd v
  | sext => exact sext_mono hd v

theorem monotone : Domain.Monotone SplitRange fun _ => True where
  unary op _ _ _ _ hd := ⟨_, _, rfl, rfl, unary_mono op hd⟩
  binary op _ _ _ _ _ _ _ _ hd he := ⟨_, _, rfl, rfl, binary_mono op hd he⟩
  compare op _ _ _ _ _ _ _ _ hd he := ⟨_, _, rfl, rfl, compare_mono op hd he⟩
  divide op _ _ _ _ _ _ _ _ hd he := ⟨_, _, rfl, rfl, divide_mono op hd he⟩
  extend op _ _ v _ _ hd := ⟨_, _, rfl, rfl, extend_mono op hd v⟩
  join _ _ _ _ hd he := ⟨_, _, rfl, rfl, join_mono hd he⟩

end SplitRange

/-! ## The reduced product -/

namespace Reduced

variable {w : Nat} {bits bits' : Ternary w} {ranges ranges' : SplitRange w} {a b a' b' : Reduced w}

/-- Reduction keeps those words of the bits that lie within the hull of the narrowed intervals. -/
theorem mem_bits_of_reduce? (h : reduce? bits ranges = some a) {x : BitVec w} :
    x ∈ a.bits ↔ x ∈ bits ∧ x ∈ Ternary.ofRange a.ranges.umin a.ranges.umax := by
  rw [reduce?_eq] at h
  simp only [Option.bind_eq_some_iff] at h
  obtain ⟨narrowed, -, kept, hkept, ha⟩ := h
  obtain rfl := Option.some.inj ha
  exact Ternary.meet?_eq_some hkept x

/-- Reducing narrower components narrows the intervals, since these end in common members, and
    with their hull the bits. -/
theorem reduce?_mono (hbits : bits.contains bits' = true) (hranges : ranges.contains ranges' = true)
    (h : reduce? bits ranges = some a) (h' : reduce? bits' ranges' = some a') :
    a.contains a' = true := by
  obtain ⟨-, hmem⟩ := reduce?_eq_some h
  obtain ⟨htight', hmem'⟩ := reduce?_eq_some h'
  have hsub : ∀ x ∈ a', x ∈ a := by
    intro x hx
    obtain ⟨hb, hr⟩ := (hmem' x).1 hx
    exact (hmem x).2 ⟨Ternary.mem_of_contains hbits hb, SplitRange.mem_of_contains hranges hr⟩
  have hnarrowed : a.ranges.contains a'.ranges = true := by
    rw [SplitRange.contains_iff_ends]
    intro r hr
    obtain ⟨hlo, hhi⟩ := htight'.ends_mem hr
    exact ⟨(hsub _ hlo).2, (hsub _ hhi).2⟩
  rw [contains_iff]
  refine ⟨Ternary.contains_iff.2 fun x hx => ?_, hnarrowed⟩
  obtain ⟨hb, hhull⟩ := (mem_bits_of_reduce? h').1 hx
  have hhulls := Ternary.ofRange_mono (SplitRange.umin_anti hnarrowed) a'.ranges.umin_le_umax
    (SplitRange.umax_mono hnarrowed)
  exact (mem_bits_of_reduce? h).2
    ⟨Ternary.mem_of_contains hbits hb, Ternary.mem_of_contains hhulls hhull⟩

theorem reduce?_of_reduce (h : reduce bits ranges = .ok a) : reduce? bits ranges = some a := by
  rw [reduce] at h
  split at h
  · rename_i hr
    rw [hr, Except.ok.inj h]
  · cases h

theorem reduce_mono (hbits : bits.contains bits' = true) (hranges : ranges.contains ranges' = true)
    (h : reduce bits ranges = .ok a) (h' : reduce bits' ranges' = .ok a') :
    a.contains a' = true :=
  reduce?_mono hbits hranges (reduce?_of_reduce h) (reduce?_of_reduce h')

theorem ne_zero_of_bits {x y : BitVec w} (h : ∀ k < w, x.getLsbD k = true → y.getLsbD k = true)
    (hx : x ≠ 0) : y ≠ 0 := by
  contrapose! hx
  apply BitVec.eq_of_getLsbD_eq
  intro k hk
  have := h k hk
  rw [hx] at this
  simpa using this

theorem canBeTrue_mono {bits bits' : Ternary 1} (h : bits.contains bits' = true)
    (h' : bits'.canBeTrue = true) : bits.canBeTrue = true := by
  rw [Ternary.contains_iff_bits] at h
  simp only [Ternary.canBeTrue, bne_iff_ne] at h' ⊢
  exact ne_zero_of_bits (fun k hk => (h k hk).2) h'

theorem canBeFalse_mono {bits bits' : Ternary 1} (h : bits.contains bits' = true)
    (h' : bits'.canBeFalse = true) : bits.canBeFalse = true := by
  rw [Ternary.contains_iff_bits] at h
  simp only [Ternary.canBeFalse, Bool.or_eq_true, bne_iff_ne] at h' ⊢
  exact h'.imp_left (ne_zero_of_bits fun k hk => (h k hk).1)

theorem truth_mono {bits bits' : Ternary 1} {ranges ranges' : SplitRange 1} {a a' : Reduced 1}
    (hbits : bits.contains bits' = true) (hranges : ranges.contains ranges' = true)
    (h : truth bits ranges = .ok a) (h' : truth bits' ranges' = .ok a') : a.contains a' = true := by
  have hhas {x : BitVec 1} (hx : ranges'.has x = true) : ranges.has x = true :=
    (SplitRange.has_iff ranges x).2
      (SplitRange.mem_of_contains hranges ((SplitRange.has_iff ranges' x).1 hx))
  have hf (hx : (bits'.canBeFalse && ranges'.has 0) = true) :
      (bits.canBeFalse && ranges.has 0) = true := by
    rw [Bool.and_eq_true] at hx ⊢
    exact ⟨canBeFalse_mono hbits hx.1, hhas hx.2⟩
  have ht (hx : (bits'.canBeTrue && ranges'.has 1) = true) :
      (bits.canBeTrue && ranges.has 1) = true := by
    rw [Bool.and_eq_true] at hx ⊢
    exact ⟨canBeTrue_mono hbits hx.1, hhas hx.2⟩
  simp only [truth] at h h'
  split at h
  · rename_i hpop
    split at h'
    · rename_i hpop'
      obtain rfl := Except.ok.inj h
      obtain rfl := Except.ok.inj h'
      exact contains_iff.2
        ⟨Ternary.truth_mono hpop hpop' hf ht, SplitRange.truth_mono hpop hpop' hf ht⟩
    · cases h'
  · cases h

theorem unary_mono (op : UnaryOp) (ha : a.contains a' = true) {r r' : Reduced w}
    (h : a.unary op = .ok r) (h' : a'.unary op = .ok r') : r.contains r' = true := by
  rw [contains_iff] at ha
  exact reduce_mono (Ternary.unary_mono op ha.1) (SplitRange.unary_mono op ha.2) h h'

theorem binary_mono (op : BinaryOp) (ha : a.contains a' = true) (hb : b.contains b' = true)
    {r r' : Reduced w} (h : binary op a b = .ok r) (h' : binary op a' b' = .ok r') :
    r.contains r' = true := by
  rw [contains_iff] at ha hb
  exact reduce_mono (Ternary.binary_mono op ha.1 hb.1) (SplitRange.binary_mono op ha.2 hb.2) h h'

theorem compare_mono (op : CompareOp) (ha : a.contains a' = true) (hb : b.contains b' = true)
    {r r' : Reduced 1} (h : compare op a b = .ok r) (h' : compare op a' b' = .ok r') :
    r.contains r' = true := by
  rw [contains_iff] at ha hb
  exact truth_mono (Ternary.compare_mono op ha.1 hb.1) (SplitRange.compare_mono op ha.2 hb.2) h h'

theorem divide_eq_ok (op : DivideOp) {r : Divided Reduced w} (h : divide op a b = .ok r) :
    reduce? (Ternary.divide op a.bits b.bits).panic (SplitRange.divide op a.ranges b.ranges).panic =
        some r.panic ∧
      reduce (Ternary.divide op a.bits b.bits).result
        (SplitRange.divide op a.ranges b.ranges).result = .ok r.result := by
  rw [divide] at h
  split at h
  · cases h
  · rename_i hp
    simp only [bind_eq_ok, pure_eq_ok] at h
    obtain ⟨result, hresult, rfl⟩ := h
    exact ⟨hp, hresult⟩

theorem divide_mono (op : DivideOp) (ha : a.contains a' = true) (hb : b.contains b' = true)
    {r r' : Divided Reduced w} (h : divide op a b = .ok r) (h' : divide op a' b' = .ok r') :
    r.panic.contains r'.panic = true ∧ r.result.contains r'.result = true := by
  rw [contains_iff] at ha hb
  obtain ⟨hp, hr⟩ := divide_eq_ok op h
  obtain ⟨hp', hr'⟩ := divide_eq_ok op h'
  have hbits := Ternary.divide_mono op ha.1 hb.1
  have hranges := SplitRange.divide_mono op ha.2 hb.2
  exact ⟨reduce?_mono hbits.1 hranges.1 hp hp', reduce_mono hbits.2 hranges.2 hr hr'⟩

theorem extend_mono (op : ExtendOp) (ha : a.contains a' = true) {v : Nat} {r r' : Reduced v}
    (h : extend op a v = .ok r) (h' : extend op a' v = .ok r') : r.contains r' = true := by
  rw [contains_iff] at ha
  exact reduce_mono (Ternary.extend_mono op ha.1 v) (SplitRange.extend_mono op ha.2 v) h h'

theorem join_mono (ha : a.contains a' = true) (hb : b.contains b' = true) {r r' : Reduced w}
    (h : a.join b = .ok r) (h' : a'.join b' = .ok r') : r.contains r' = true := by
  rw [contains_iff] at ha hb
  exact reduce_mono (Ternary.join_mono ha.1 hb.1) (SplitRange.join_mono ha.2 hb.2) h h'

theorem monotone : Domain.Monotone Reduced Built where
  unary op _ _ hv hv' ha := by
    obtain ⟨r, hr, -⟩ := unary_ok op hv.tight
    obtain ⟨r', hr', -⟩ := unary_ok op hv'.tight
    exact ⟨r, r', hr, hr', unary_mono op ha hr hr'⟩
  binary op _ _ _ _ hva hvb hva' hvb' ha hb := by
    obtain ⟨r, hr, -⟩ := binary_ok op hva.tight hvb.tight
    obtain ⟨r', hr', -⟩ := binary_ok op hva'.tight hvb'.tight
    exact ⟨r, r', hr, hr', binary_mono op ha hb hr hr'⟩
  compare op _ _ _ _ hva hvb hva' hvb' ha hb := by
    obtain ⟨r, hr, -⟩ := compare_ok op hva.tight hvb.tight
    obtain ⟨r', hr', -⟩ := compare_ok op hva'.tight hvb'.tight
    exact ⟨r, r', hr, hr', compare_mono op ha hb hr hr'⟩
  divide op _ _ _ _ hva hvb hva' hvb' ha hb := by
    obtain ⟨r, hr, -⟩ := divide_ok op hva.tight hvb.tight
    obtain ⟨r', hr', -⟩ := divide_ok op hva'.tight hvb'.tight
    exact ⟨r, r', hr, hr', divide_mono op ha hb hr hr'⟩
  extend op _ _ v hv hv' ha := by
    obtain ⟨r, hr, -⟩ := extend_ok op hv.tight v
    obtain ⟨r', hr', -⟩ := extend_ok op hv'.tight v
    exact ⟨r, r', hr, hr', extend_mono op ha hr hr'⟩
  join hva hvb hva' hvb' ha hb :=
    ⟨_, _, hva.join_eq hvb, hva'.join_eq hvb',
      join_mono ha hb (hva.join_eq hvb) (hva'.join_eq hvb')⟩

end Reduced

/-- The operators of all three domains are monotone, of the reduced product for the values that its
    constructors and operators build. -/
theorem domains_monotone :
    Domain.Monotone Ternary (fun _ => True) ∧ Domain.Monotone SplitRange (fun _ => True) ∧
      Domain.Monotone Reduced Reduced.Built :=
  ⟨Ternary.monotone, SplitRange.monotone, Reduced.monotone⟩

end RefineCheck
