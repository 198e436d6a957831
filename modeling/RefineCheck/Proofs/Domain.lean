/-
  RefineCheck.Proofs.Domain

  What it means for the operators of a domain to be sound, and that the operators of all
  three domains are. The three-valued words and the split ranges are sound for all of their
  values; the reduced product is sound for every value that its constructors and operators
  build, since these are tight.
-/

import RefineCheck.Proofs.Reduced.Soundness
import RefineCheck.Sized

namespace RefineCheck

/-! ## Soundness of a domain -/

/-- The operators return a value for operands of one width, and that value holds the result on
    words for all members of the operands. The values meant are those of a kind that the
    operators keep. -/
structure Domain.Sound (F : Nat → Type) [Domain F] [∀ w, Membership (BitVec w) (F w)]
    (Valid : {w : Nat} → F w → Prop) : Prop where
  unary {w : Nat} (op : UnaryOp) {a : F w} : Valid a →
    ∃ r : F w, Sized.unary op ⟨w, a⟩ = .ok ⟨w, r⟩ ∧ Valid r ∧ ∀ x ∈ a, op.onWords x ∈ r
  binary {w : Nat} (op : BinaryOp) {a b : F w} : Valid a → Valid b →
    ∃ r : F w, Sized.binary op ⟨w, a⟩ ⟨w, b⟩ = .ok ⟨w, r⟩ ∧ Valid r ∧
      ∀ x ∈ a, ∀ y ∈ b, op.onWords x y ∈ r
  compare {w : Nat} (op : CompareOp) {a b : F w} : Valid a → Valid b →
    ∃ r : F 1, Sized.compare op ⟨w, a⟩ ⟨w, b⟩ = .ok ⟨1, r⟩ ∧ Valid r ∧
      ∀ x ∈ a, ∀ y ∈ b, BitVec.ofBool (op.onWords x y) ∈ r
  divide {w : Nat} (op : DivideOp) {a b : F w} : Valid a → Valid b →
    ∃ (p : F panicWidth) (r : F w),
      Sized.divide op ⟨w, a⟩ ⟨w, b⟩ = .ok (⟨panicWidth, p⟩, ⟨w, r⟩) ∧ Valid p ∧ Valid r ∧
        ∀ x ∈ a, ∀ y ∈ b, (op.divide x y).panic ∈ p ∧ (op.divide x y).result ∈ r
  extend {w : Nat} (op : ExtendOp) {a : F w} {v : Nat} : v ≤ Word.maxWidth → Valid a →
    ∃ r : F v, Sized.extend op ⟨w, a⟩ v = .ok ⟨v, r⟩ ∧ Valid r ∧ ∀ x ∈ a, op.onWords x v ∈ r

/-! ## Operands of one width -/

namespace Sized

variable {F : Nat → Type} [Domain F] {w v : Nat}

theorem unary_ok {op : UnaryOp} {a r : F w} (h : Domain.unary op a = .ok r) :
    unary op ⟨w, a⟩ = .ok ⟨w, r⟩ := by
  rw [unary, h]
  rfl

theorem binary_ok {op : BinaryOp} {a b r : F w} (h : Domain.binary op a b = .ok r) :
    binary op ⟨w, a⟩ ⟨w, b⟩ = .ok ⟨w, r⟩ := by
  simp only [binary, zipWithM, zipWith, dite_true, Except.bind, id, h]
  rfl

theorem compare_ok {op : CompareOp} {a b : F w} {r : F 1} (h : Domain.compare op a b = .ok r) :
    compare op ⟨w, a⟩ ⟨w, b⟩ = .ok ⟨1, r⟩ := by
  simp only [compare, zipWithM, zipWith, dite_true, Except.bind, id, h]
  rfl

theorem divide_ok {op : DivideOp} {a b : F w} {d : Divided F w}
    (h : Domain.divide op a b = .ok d) :
    divide op ⟨w, a⟩ ⟨w, b⟩ = .ok (⟨panicWidth, d.panic⟩, ⟨w, d.result⟩) := by
  simp only [divide, zipWithM, zipWith, dite_true, Except.bind, id, h]
  rfl

theorem extend_ok {op : ExtendOp} {a : F w} {r : F v} (hv : v ≤ Word.maxWidth)
    (h : Domain.extend op a v = .ok r) : extend op ⟨w, a⟩ v = .ok ⟨v, r⟩ := by
  rw [extend, checkWidth, if_pos hv, h]
  rfl

end Sized

/-! ## The components -/

theorem Ternary.sound : Domain.Sound Ternary fun _ => True where
  unary op _ _ := ⟨_, Sized.unary_ok rfl, trivial, fun _ hx => unary_mem op hx⟩
  binary op _ _ _ _ := ⟨_, Sized.binary_ok rfl, trivial, fun _ hx _ hy => binary_mem op hx hy⟩
  compare op _ _ _ _ := ⟨_, Sized.compare_ok rfl, trivial, fun _ hx _ hy => compare_mem op hx hy⟩
  divide op _ _ _ _ :=
    ⟨_, _, Sized.divide_ok rfl, trivial, trivial, fun _ hx _ hy => divide_mem op hx hy⟩
  extend op _ v hv _ :=
    ⟨_, Sized.extend_ok hv rfl, trivial, fun _ hx => extend_mem op hx v⟩

theorem SplitRange.sound : Domain.Sound SplitRange fun _ => True where
  unary op _ _ := ⟨_, Sized.unary_ok rfl, trivial, fun _ hx => unary_mem op hx⟩
  binary op _ _ _ _ := ⟨_, Sized.binary_ok rfl, trivial, fun _ hx _ hy => binary_mem op hx hy⟩
  compare op _ _ _ _ := ⟨_, Sized.compare_ok rfl, trivial, fun _ hx _ hy => compare_mem op hx hy⟩
  divide op _ _ _ _ :=
    ⟨_, _, Sized.divide_ok rfl, trivial, trivial, fun _ hx _ hy => divide_mem op hx hy⟩
  extend op _ v hv _ :=
    ⟨_, Sized.extend_ok hv rfl, trivial, fun _ hx => extend_mem op hx v⟩

/-! ## The reduced product -/

namespace Reduced

/-- The values that the constructors and operators return. -/
inductive Built : {w : Nat} → Reduced w → Prop
  | ofWord {w : Nat} (x : BitVec w) : Built (ofWord x)
  | full (w : Nat) : Built (full w)
  | ofTernary {w : Nat} (bits : Ternary w) : Built (ofTernary bits)
  | ofSplitRange {w : Nat} (ranges : SplitRange w) : Built (ofSplitRange ranges)
  | unary {w : Nat} (op : UnaryOp) {a r : Reduced w} : Built a → a.unary op = .ok r → Built r
  | binary {w : Nat} (op : BinaryOp) {a b r : Reduced w} :
    Built a → Built b → binary op a b = .ok r → Built r
  | compare {w : Nat} (op : CompareOp) {a b : Reduced w} {r : Reduced 1} :
    Built a → Built b → compare op a b = .ok r → Built r
  | panic {w : Nat} (op : DivideOp) {a b : Reduced w} {d : Divided Reduced w} :
    Built a → Built b → divide op a b = .ok d → Built d.panic
  | result {w : Nat} (op : DivideOp) {a b : Reduced w} {d : Divided Reduced w} :
    Built a → Built b → divide op a b = .ok d → Built d.result
  | extend {w v : Nat} (op : ExtendOp) {a : Reduced w} {r : Reduced v} :
    Built a → extend op a v = .ok r → Built r
  | join {w : Nat} {a b r : Reduced w} : Built a → Built b → a.join b = .ok r → Built r
  | meet {w : Nat} {a b r : Reduced w} : Built a → Built b → a.meet? b = some r → Built r

/-- A successful result is the one that an operator is known to return. -/
theorem ok_inj {α : Type} {e : Except Fault α} {a b : α} (ha : e = .ok a) (hb : e = .ok b) :
    a = b :=
  Except.ok.inj (ha.symm.trans hb)

theorem Built.tight {w : Nat} {a : Reduced w} (h : Built a) : a.Tight := by
  induction h with
  | ofWord x => exact tight_ofWord x
  | full w => exact tight_full w
  | ofTernary bits => exact (ofTernary_spec bits).1
  | ofSplitRange ranges => exact (ofSplitRange_spec ranges).1
  | unary op _ hr ha =>
    obtain ⟨r, hok, htight, -⟩ := unary_ok op ha
    rwa [ok_inj hr hok]
  | binary op _ _ hr ha hb =>
    obtain ⟨r, hok, htight, -⟩ := binary_ok op ha hb
    rwa [ok_inj hr hok]
  | compare op _ _ hr ha hb =>
    obtain ⟨r, hok, htight, -⟩ := compare_ok op ha hb
    rwa [ok_inj hr hok]
  | panic op _ _ hr ha hb =>
    obtain ⟨d, hok, htight, -⟩ := divide_ok op ha hb
    rwa [ok_inj hr hok]
  | result op _ _ hr ha hb =>
    obtain ⟨d, hok, -, htight, -⟩ := divide_ok op ha hb
    rwa [ok_inj hr hok]
  | extend op _ hr ha =>
    obtain ⟨r, hok, htight, -⟩ := extend_ok op ha _
    rwa [ok_inj hr hok]
  | join _ _ hr ha _ =>
    obtain ⟨r, hok, htight, -⟩ := join_ok ha
    rwa [ok_inj hr hok]
  | meet _ _ hr _ _ => exact (meet?_eq_some hr).1

/-- The panic component of a division of built values, with its exact members. -/
theorem divide_panic_exact {w : Nat} (op : DivideOp) {a b : Reduced w} (ha : Built a)
    (hb : Built b) :
    ∃ d, divide op a b = .ok d ∧ (∀ c, c ∈ d.panic ↔ ∃ x ∈ a, ∃ y ∈ b, c = (op.divide x y).panic) ∧
      ∀ x ∈ a, ∀ y ∈ b, (op.divide x y).result ∈ d.result := by
  obtain ⟨d, hok, -, -, hpanic, hresult⟩ := divide_ok op ha.tight hb.tight
  exact ⟨d, hok, fun c => (hpanic c).trans (panic_exact op ha.tight hb.tight), hresult⟩

theorem sound : Domain.Sound Reduced Built where
  unary op _ ha := by
    obtain ⟨r, hr, -, hmem⟩ := unary_ok op ha.tight
    exact ⟨r, Sized.unary_ok hr, .unary op ha hr, hmem⟩
  binary op _ _ ha hb := by
    obtain ⟨r, hr, -, hmem⟩ := binary_ok op ha.tight hb.tight
    exact ⟨r, Sized.binary_ok hr, .binary op ha hb hr, hmem⟩
  compare op _ _ ha hb := by
    obtain ⟨r, hr, -, hmem⟩ := compare_ok op ha.tight hb.tight
    exact ⟨r, Sized.compare_ok hr, .compare op ha hb hr, hmem⟩
  divide op _ _ ha hb := by
    obtain ⟨d, hd, hpanic, hresult⟩ := divide_panic_exact op ha hb
    exact ⟨d.panic, d.result, Sized.divide_ok hd, .panic op ha hb hd, .result op ha hb hd,
      fun x hx y hy => ⟨(hpanic _).2 ⟨x, hx, y, hy, rfl⟩, hresult x hx y hy⟩⟩
  extend op _ v hv ha := by
    obtain ⟨r, hr, -, hmem⟩ := extend_ok op ha.tight v
    exact ⟨r, Sized.extend_ok hv hr, .extend op ha hr, hmem⟩

end Reduced

/-- The operators of all three domains are sound and never fail, and the panic codes of a
    division in the reduced product are exactly those that some pair of members raises. -/
theorem domains_sound :
    Domain.Sound Ternary (fun _ => True) ∧ Domain.Sound SplitRange (fun _ => True) ∧
      Domain.Sound Reduced Reduced.Built ∧
      ∀ {w : Nat} (op : DivideOp) {a b : Reduced w}, a.Built → b.Built →
        ∃ (p : Reduced panicWidth) (r : Reduced w),
          Sized.divide op ⟨w, a⟩ ⟨w, b⟩ = .ok (⟨panicWidth, p⟩, ⟨w, r⟩) ∧
            ∀ c, c ∈ p ↔ ∃ x ∈ a, ∃ y ∈ b, c = (op.divide x y).panic := by
  refine ⟨Ternary.sound, SplitRange.sound, Reduced.sound, fun op a b ha hb => ?_⟩
  obtain ⟨d, hd, hpanic, -⟩ := Reduced.divide_panic_exact op ha hb
  exact ⟨d.panic, d.result, Sized.divide_ok hd, hpanic⟩

end RefineCheck
