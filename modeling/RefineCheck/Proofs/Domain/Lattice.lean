/-
  RefineCheck.Proofs.Domain.Lattice

  The three domains as lattices, and how far containment decides inclusion: always for three-valued
  words and split ranges, and in the reduced product for those values whose bits their members show.
-/

import RefineCheck.Proofs.Reduced.Order

namespace RefineCheck

/-! ## Lattices -/

/-- Containment is a partial order that implies inclusion of members, a join is the least upper
    bound, and a meet has the common members. The values meant are those of a kind that joins and
    meets keep. -/
structure Domain.Ordered (F : Nat → Type) [Domain F] [∀ w, Membership (BitVec w) (F w)]
    (Valid : {w : Nat} → F w → Prop) : Prop where
  contains_refl {w : Nat} {a : F w} : Valid a → Domain.contains a a = true
  contains_trans {w : Nat} {a b c : F w} : Valid a → Valid b → Valid c →
    Domain.contains a b = true → Domain.contains b c = true → Domain.contains a c = true
  contains_antisymm {w : Nat} {a b : F w} : Valid a → Valid b →
    Domain.contains a b = true → Domain.contains b a = true → a = b
  mem_of_contains {w : Nat} {a b : F w} : Valid a → Valid b →
    Domain.contains a b = true → ∀ x ∈ b, x ∈ a
  join_least {w : Nat} {a b : F w} : Valid a → Valid b →
    ∃ c, Domain.join a b = .ok c ∧ Valid c ∧ Domain.contains c a = true ∧
      Domain.contains c b = true ∧ ∀ d, Valid d → Domain.contains d a = true →
        Domain.contains d b = true → Domain.contains d c = true
  meet_none {w : Nat} {a b : F w} : Valid a → Valid b →
    (Domain.meet? a b = none ↔ ∀ x, ¬ (x ∈ a ∧ x ∈ b))
  meet_some {w : Nat} {a b c : F w} : Valid a → Valid b → Domain.meet? a b = some c →
    Valid c ∧ ∀ x, x ∈ c ↔ x ∈ a ∧ x ∈ b

/-- The join of a lattice depends neither on the order of its operands nor on how they are
    grouped. -/
structure Domain.Lattice (F : Nat → Type) [Domain F] [∀ w, Membership (BitVec w) (F w)]
    (Valid : {w : Nat} → F w → Prop) : Prop extends Domain.Ordered F Valid where
  join_comm {w : Nat} {a b : F w} : Valid a → Valid b → Domain.join a b = Domain.join b a
  join_assoc {w : Nat} {a b c : F w} : Valid a → Valid b → Valid c →
    (Domain.join a b >>= fun d => Domain.join d c) = Domain.join b c >>= fun d => Domain.join a d
  join_self {w : Nat} {a : F w} : Valid a → Domain.join a a = .ok a

namespace Domain.Ordered

variable {F : Nat → Type} [Domain F] [∀ w, Membership (BitVec w) (F w)]
  {Valid : {w : Nat} → F w → Prop} {w : Nat} {a b c : F w}

/-- A value that is the least upper bound of two others is their join. -/
theorem join_eq (h : Ordered F Valid) (ha : Valid a) (hb : Valid b) (hc : Valid c)
    (hca : Domain.contains c a = true) (hcb : Domain.contains c b = true)
    (hleast : ∀ d, Valid d → Domain.contains d a = true → Domain.contains d b = true →
      Domain.contains d c = true) : Domain.join a b = .ok c := by
  obtain ⟨d, hd, hdv, hda, hdb, hdleast⟩ := h.join_least ha hb
  rw [hd, h.contains_antisymm hdv hc (hleast d hdv hda hdb) (hdleast c hc hca hcb)]

theorem join_comm (h : Ordered F Valid) (ha : Valid a) (hb : Valid b) :
    Domain.join a b = Domain.join b a := by
  obtain ⟨c, hc, hcv, hcb, hca, hleast⟩ := h.join_least hb ha
  rw [hc]
  exact h.join_eq ha hb hcv hca hcb fun d hd hda hdb => hleast d hd hdb hda

/-- Both groupings are the least upper bound of all three. -/
theorem join_assoc (h : Ordered F Valid) (ha : Valid a) (hb : Valid b) (hc : Valid c) :
    (Domain.join a b >>= fun d => Domain.join d c) =
      Domain.join b c >>= fun d => Domain.join a d := by
  obtain ⟨ab, hab, habv, haba, habb, hableast⟩ := h.join_least ha hb
  obtain ⟨bc, hbc, hbcv, hbcb, hbcc, hbcleast⟩ := h.join_least hb hc
  obtain ⟨abc, habc, habcv, habca, habcbc, habcleast⟩ := h.join_least ha hbcv
  rw [hab, hbc]
  show Domain.join ab c = Domain.join a bc
  rw [habc]
  have habcb := h.contains_trans habcv hbcv hb habcbc hbcb
  have habcc := h.contains_trans habcv hbcv hc habcbc hbcc
  refine h.join_eq habv hc habcv (hableast abc habcv habca habcb) habcc fun d hd hdab hdc => ?_
  have hda := h.contains_trans hd habv ha hdab haba
  have hdb := h.contains_trans hd habv hb hdab habb
  exact habcleast d hd hda (hbcleast d hd hdb hdc)

theorem lattice (h : Ordered F Valid) : Lattice F Valid where
  toOrdered := h
  join_comm := h.join_comm
  join_assoc := h.join_assoc
  join_self ha := h.join_eq ha ha ha (h.contains_refl ha) (h.contains_refl ha) fun _ _ h _ => h

end Domain.Ordered

/-! ## The three domains -/

theorem Ternary.ordered : Domain.Ordered Ternary fun _ => True where
  contains_refl {_ a} _ := Ternary.contains_refl a
  contains_trans _ _ _ := Ternary.contains_trans
  contains_antisymm _ _ := Ternary.contains_antisymm
  mem_of_contains _ _ h _ := Ternary.mem_of_contains h
  join_least {_ a b} _ _ := ⟨a.join b, rfl, trivial, join_contains_left a b,
    join_contains_right a b, fun _ _ => Ternary.contains_join⟩
  meet_none _ _ := Ternary.meet?_eq_none
  meet_some _ _ h := ⟨trivial, Ternary.meet?_eq_some h⟩

theorem SplitRange.ordered : Domain.Ordered SplitRange fun _ => True where
  contains_refl {_ a} _ := SplitRange.contains_refl a
  contains_trans _ _ _ := SplitRange.contains_trans
  contains_antisymm _ _ := SplitRange.contains_antisymm
  mem_of_contains _ _ h _ := SplitRange.mem_of_contains h
  join_least {_ a b} _ _ := ⟨a.join b, rfl, trivial, join_contains_left a b,
    join_contains_right a b, fun _ _ => SplitRange.contains_join⟩
  meet_none _ _ := SplitRange.meet?_eq_none
  meet_some _ _ h := ⟨trivial, SplitRange.meet?_eq_some h⟩

theorem Reduced.ordered : Domain.Ordered Reduced Built where
  contains_refl {_ a} _ := Reduced.contains_refl a
  contains_trans _ _ _ := Reduced.contains_trans
  contains_antisymm _ _ := Reduced.contains_antisymm
  mem_of_contains _ _ h _ := Reduced.mem_of_contains h
  join_least {_ a b} ha hb := ⟨_, ha.join_eq hb, .join ha hb (ha.join_eq hb),
    join_contains_left a b, join_contains_right a b, fun _ _ => Reduced.contains_join⟩
  meet_none _ _ := Reduced.meet?_eq_none
  meet_some ha hb h := ⟨.meet ha hb h, (Reduced.meet?_eq_some h).2⟩

/-- All three domains are lattices, the reduced product with the values that its constructors and
    operators build. -/
theorem domains_lattice :
    Domain.Lattice Ternary (fun _ => True) ∧ Domain.Lattice SplitRange (fun _ => True) ∧
      Domain.Lattice Reduced Reduced.Built :=
  ⟨Ternary.ordered.lattice, SplitRange.ordered.lattice, Reduced.ordered.lattice⟩

/-! ## Containment and inclusion -/

/-- Containment decides inclusion of three-valued words and of split ranges. In the reduced product
    it implies inclusion, and for the inclusion of a built value it is decisive if and only if each bit
    that the value admits is shown by one of its members, as is the case if they have one sign. -/
theorem containment_of_inclusion {w : Nat} {b : Reduced w} (hb : b.Built) :
    (∀ s t : Ternary w, s.contains t = true ↔ ∀ x ∈ t, x ∈ s) ∧
      (∀ d e : SplitRange w, d.contains e = true ↔ ∀ x ∈ e, x ∈ d) ∧
      (∀ a : Reduced w, a.contains b = true → ∀ x ∈ b, x ∈ a) ∧
      (b.Exact ↔ ∀ a : Reduced w, a.Built → (a.contains b = true ↔ ∀ x ∈ b, x ∈ a)) ∧
      (b.ranges.near = none ∨ b.ranges.far = none → b.Exact) := by
  refine ⟨fun _ _ => Ternary.contains_iff, fun _ _ => SplitRange.contains_iff,
    fun _ h _ => Reduced.mem_of_contains h, ⟨fun hexact a _ => ?_, fun h => ?_⟩, hb.exact⟩
  · exact ⟨fun h _ => Reduced.mem_of_contains h, hexact.contains hb.tight⟩
  · exact Reduced.exact_of_contains fun a ha => (h a ha).2

/-- Zero and one have one sign, so a value contains them if it holds both. -/
theorem containment_of_inclusion_upTo_one :
    (Reduced.ofSplitRange (.ofRange (.upTo 1#2))).ranges.far = none ∧
      (Reduced.full 2).contains (.ofSplitRange (.ofRange (.upTo 1#2))) = true := by
  have hfar : (Reduced.ofSplitRange (.ofRange (.upTo 1#2))).ranges.far = none := by decide
  obtain ⟨-, -, -, hexact, hsign⟩ :=
    containment_of_inclusion (.ofSplitRange (.ofRange (.upTo 1#2)))
  exact ⟨hfar, (hexact.1 (hsign (.inr hfar)) _ (.full 2)).2 fun x _ => Reduced.mem_full x⟩

/-- The words zero and two of width two, joined: their lowest bit is known. -/
def Reduced.zeroOrTwo : Reduced 2 :=
  ⟨(Ternary.ofWord 0).join (.ofWord 2), (SplitRange.ofWord 0).join (.ofWord 2)⟩

/-- Of the two intervals alone the lowest bit is lost, although no member sets it. The joined words
    have the same members, yet do not contain the intervals. -/
theorem Reduced.included_not_contained :
    zeroOrTwo.Built ∧ (ofSplitRange zeroOrTwo.ranges).Built ∧
      (∀ x ∈ ofSplitRange zeroOrTwo.ranges, x ∈ zeroOrTwo) ∧
      zeroOrTwo.contains (ofSplitRange zeroOrTwo.ranges) = false := by
  have hbits : ∀ x : BitVec 2, zeroOrTwo.ranges.has x = true → x ∈ zeroOrTwo.bits := by decide
  have hjoin : (ofWord 0#2).join (ofWord 2#2) = .ok zeroOrTwo :=
    (Built.ofWord 0).join_eq (Built.ofWord 2)
  refine ⟨.join (.ofWord 0) (.ofWord 2) hjoin, .ofSplitRange _, fun x hx => ?_, by decide⟩
  have hranges := ((ofSplitRange_spec zeroOrTwo.ranges).2 x).1 hx
  exact ⟨hbits x ((SplitRange.has_iff _ x).2 hranges), hranges⟩

end RefineCheck
