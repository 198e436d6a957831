/-
  RefineCheck.Property.Normal

  Normal forms of properties: positive normal form without negations, existential normal
  form over three temporal operators, and the canonical form in which every temporal
  operator but `next` is a fixed point. Also the test that fixed-point variables occur
  with one polarity.
-/

import RefineCheck.Property

namespace RefineCheck.Property

/-! ## Polarity -/

/-- A variable whose polarity differs from that of its fixed point. The bindings tell for each
    variable whether its fixed point is under an odd number of negations. -/
def negatedVariable? : (negated : Bool) → (bindings : List (String × Bool)) → Property →
    Option String
  | _, _, .const _ | _, _, .atom _ => none
  | negated, bindings, .not p => negatedVariable? (!negated) bindings p
  | negated, bindings, .var name =>
    if (bindings.lookup name).getD false = negated then none else some name
  | negated, bindings, .fix _ name p => negatedVariable? negated ((name, negated) :: bindings) p
  | negated, bindings, .next _ p | negated, bindings, .eventually _ p
  | negated, bindings, .always _ p => negatedVariable? negated bindings p
  | negated, bindings, .and p q | negated, bindings, .or p q
  | negated, bindings, .holdUntil _ p q | negated, bindings, .release _ p q =>
    negatedVariable? negated bindings p <|> negatedVariable? negated bindings q

/-! ## Positive normal form -/

/-- The property, or its complement, with negations pushed into the atomic properties. The
    bindings tell for each variable whether its fixed point is complemented. -/
def positive : (complement : Bool) → (bindings : List (String × Bool)) → Property →
    Except Fault Property
  | complement, _, .const value => return .const (value != complement)
  | complement, _, .atom a => return .atom (if complement then a.complement else a)
  | complement, bindings, .not p => positive (!complement) bindings p
  | complement, bindings, .and p q => do
    let p ← positive complement bindings p
    let q ← positive complement bindings q
    return if complement then .or p q else .and p q
  | complement, bindings, .or p q => do
    let p ← positive complement bindings p
    let q ← positive complement bindings q
    return if complement then .and p q else .or p q
  | complement, bindings, .next paths p => do
    let p ← positive complement bindings p
    return .next (if complement then paths.dual else paths) p
  | complement, bindings, .eventually paths p => do
    let p ← positive complement bindings p
    return if complement then .always paths.dual p else .eventually paths p
  | complement, bindings, .always paths p => do
    let p ← positive complement bindings p
    return if complement then .eventually paths.dual p else .always paths p
  | complement, bindings, .holdUntil paths p q => do
    let p ← positive complement bindings p
    let q ← positive complement bindings q
    return if complement then .release paths.dual p q else .holdUntil paths p q
  | complement, bindings, .release paths p q => do
    let p ← positive complement bindings p
    let q ← positive complement bindings q
    return if complement then .holdUntil paths.dual p q else .release paths p q
  | complement, bindings, .fix kind name p => do
    -- the complement of the least solution of `f` is the greatest of `x ↦ ¬ f (¬ x)`
    let p ← positive complement ((name, complement) :: bindings) p
    return .fix (if complement then kind.dual else kind) name p
  | complement, bindings, .var name =>
    match bindings.lookup name with
    | some bound => if bound = complement then .ok (.var name) else .error (.oppositePolarity name)
    | none => .ok (.var name)

/-- The positive normal form. -/
def pnf (p : Property) : Except Fault Property := do
  let result ← positive false [] p
  if result.hasNegation then throw (.negationRemains result.text)
  return result

/-! ## Canonical form -/

/-- The variable introduced for an operator enclosed by `depth` fixed points. Variables that are
    read from text never start like it. -/
def generatedName (depth : Nat) : String := s!"__Z{depth}"

/-- Until-like operators become the least solution of
    `z = sufficient ∨ (permitting ∧ next z)` and release-like ones the greatest solution of
    `z = sufficient ∧ (permitting ∨ next z)`. -/
def canonicalAt : (depth : Nat) → Property → Property
  | _, .const value => .const value
  | _, .atom a => .atom a
  | _, .var name => .var name
  | depth, .not p => .not (canonicalAt depth p)
  | depth, .and p q => .and (canonicalAt depth p) (canonicalAt depth q)
  | depth, .or p q => .or (canonicalAt depth p) (canonicalAt depth q)
  | depth, .next paths p => .next paths (canonicalAt depth p)
  | depth, .eventually paths p => least depth paths (.const true) (canonicalAt (depth + 1) p)
  | depth, .always paths p => greatest depth paths (.const false) (canonicalAt (depth + 1) p)
  | depth, .holdUntil paths p q =>
    least depth paths (canonicalAt (depth + 1) p) (canonicalAt (depth + 1) q)
  | depth, .release paths p q =>
    greatest depth paths (canonicalAt (depth + 1) p) (canonicalAt (depth + 1) q)
  | depth, .fix kind name p => .fix kind name (canonicalAt (depth + 1) p)
where
  again (depth : Nat) (paths : Paths) : Property := .next paths (.var (generatedName depth))
  least (depth : Nat) (paths : Paths) (permitting sufficient : Property) : Property :=
    .fix .least (generatedName depth) (.or sufficient (.and permitting (again depth paths)))
  greatest (depth : Nat) (paths : Paths) (permitting sufficient : Property) : Property :=
    .fix .greatest (generatedName depth) (.and sufficient (.or permitting (again depth paths)))

/-- Every temporal operator but `next` as a fixed point, named by its depth. -/
def canonical (p : Property) : Property := canonicalAt 0 p

/-! ## Existential normal form -/

/-- Every temporal operator expressed by `next`, `always` and `holdUntil` on some path. -/
def enf : Property → Property
  | .const value => .const value
  | .atom a => .atom a
  | .var name => .var name
  | .not p => .not p.enf
  | .and p q => .and p.enf q.enf
  | .or p q => .or p.enf q.enf
  | .next .all p => .not (.next .some (.not p.enf))
  | .next .some p => .next .some p.enf
  | .eventually .all p => .not (.always .some (.not p.enf))
  | .eventually .some p => .holdUntil .some (.const true) p.enf
  | .always .all p => .not (.holdUntil .some (.const true) (.not p.enf))
  | .always .some p => .always .some p.enf
  | .holdUntil .all p q =>
    .not (.or (.holdUntil .some (.not q.enf) (.and (.not p.enf) (.not q.enf)))
      (.always .some (.not q.enf)))
  | .holdUntil .some p q => .holdUntil .some p.enf q.enf
  | .release .all p q => .not (.holdUntil .some (.not p.enf) (.not q.enf))
  | .release .some p q => .or (.always .some q.enf) (.holdUntil .some q.enf (.and p.enf q.enf))
  | .fix kind name p => .fix kind name p.enf

end RefineCheck.Property
