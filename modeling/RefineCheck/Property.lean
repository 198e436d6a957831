/-
  RefineCheck.Property

  Properties: computation tree logic extended with fixed points. A property is a tree
  over comparisons of state fields with constants, and has a text that reads back as the
  same tree.
-/

import RefineCheck.Record

namespace RefineCheck

/-! ## Atomic properties -/

/-- The comparisons of an atomic property. -/
inductive Comparison
  | eq | ne | lt | le | gt | ge
deriving DecidableEq, Repr

namespace Comparison

/-- The symbol of the comparison. -/
def text : Comparison → String
  | .eq => "=="
  | .ne => "!="
  | .lt => "<"
  | .le => "<="
  | .gt => ">"
  | .ge => ">="

/-- The comparison with this symbol. -/
def ofText? (s : String) : Option Comparison :=
  [eq, ne, lt, le, gt, ge].find? fun c => c.text == s

/-- The comparison that holds exactly when this one does not. -/
def complement : Comparison → Comparison
  | .eq => .ne
  | .ne => .eq
  | .lt => .ge
  | .le => .gt
  | .gt => .le
  | .ge => .lt

theorem complement_complement (c : Comparison) : c.complement.complement = c := by
  cases c <;> rfl

end Comparison

/-- A comparison of a field, or of an element of an array field, with a constant. -/
structure Atomic where
  name : String
  index : Option Nat
  /-- Overrides the signedness of the field unless it is signless. -/
  forced : Signedness
  comparison : Comparison
  constant : Int
deriving DecidableEq, Repr

namespace Atomic

/-- The element, with its cast if it has one, the comparison and the constant. -/
def text (a : Atomic) : String :=
  let element := match a.index with
    | some i => a.name ++ s!"[{i}]"
    | none => a.name
  let left := match a.forced with
    | .signless => element
    | .signed => "as_signed(" ++ element ++ ")"
    | .unsigned => "as_unsigned(" ++ element ++ ")"
  left ++ " " ++ a.comparison.text ++ " " ++ toString a.constant

/-- The atomic property with the complementary comparison. -/
def complement (a : Atomic) : Atomic := { a with comparison := a.comparison.complement }

end Atomic

/-! ## Properties -/

/-- Whether an operator speaks of all paths from a state or of some path. -/
inductive Paths
  | all | some
deriving DecidableEq, Repr

namespace Paths

/-- The other quantifier. -/
def dual : Paths → Paths
  | .all => .some
  | .some => .all

/-- The letter of the quantifier in an operator's name. -/
def text : Paths → String
  | .all => "A"
  | .some => "E"

end Paths

/-- Which of the solutions of a recursive property is meant. -/
inductive Extremum
  | least | greatest
deriving DecidableEq, Repr

namespace Extremum

/-- The other extremum. -/
def dual : Extremum → Extremum
  | .least => .greatest
  | .greatest => .least

/-- The name of the operator. -/
def text : Extremum → String
  | .least => "lfp"
  | .greatest => "gfp"

end Extremum

/-- The properties: fixed points and temporal operators over atomic ones. -/
inductive Property
  | const (value : Bool)
  | atom (a : Atomic)
  | not (p : Property)
  | and (p q : Property)
  | or (p q : Property)
  /-- Holds if `p` holds in all or some successors. -/
  | next (paths : Paths) (p : Property)
  /-- Holds if `p` holds at some point of the paths. -/
  | eventually (paths : Paths) (p : Property)
  /-- Holds if `p` holds at every point of the paths. -/
  | always (paths : Paths) (p : Property)
  /-- Holds if `goal` holds at some point of the paths and `hold` at every point before. -/
  | holdUntil (paths : Paths) (hold goal : Property)
  /-- Holds if `releasee` holds on the paths up to and including the point where `releaser`
      does, or forever. -/
  | release (paths : Paths) (releaser releasee : Property)
  /-- The least or greatest solution of `name = p`. -/
  | fix (kind : Extremum) (name : String) (p : Property)
  /-- The solution of the innermost enclosing fixed point of that name. -/
  | var (name : String)
deriving DecidableEq, Repr

namespace Property

/-! ## Structure -/

/-- The direct parts, in the order they are written. -/
def children : Property → List Property
  | .const _ | .atom _ | .var _ => []
  | .not p | .next _ p | .eventually _ p | .always _ p | .fix _ _ p => [p]
  | .and p q | .or p q | .holdUntil _ p q | .release _ p q => [p, q]

/-- Whether every variable is one of the bound ones or bound by a fixed point inside. -/
def closedUnder : (bound : List String) → Property → Bool
  | _, .const _ | _, .atom _ => true
  | bound, .var name => bound.contains name
  | bound, .not p | bound, .next _ p | bound, .eventually _ p | bound, .always _ p =>
    closedUnder bound p
  | bound, .and p q | bound, .or p q | bound, .holdUntil _ p q | bound, .release _ p q =>
    closedUnder bound p && closedUnder bound q
  | bound, .fix _ name p => closedUnder (name :: bound) p

/-- Whether every variable is bound by an enclosing fixed point. -/
def isClosed (p : Property) : Bool := closedUnder [] p

/-- Whether a negation occurs. -/
def hasNegation : Property → Bool
  | .const _ | .atom _ | .var _ => false
  | .not _ => true
  | .next _ p | .eventually _ p | .always _ p | .fix _ _ p => hasNegation p
  | .and p q | .or p q | .holdUntil _ p q | .release _ p q => hasNegation p || hasNegation q

/-! ## Text -/

/-- Whether the property is a conjunction or a disjunction. -/
def isConnective : Property → Bool
  | .and _ _ | .or _ _ => true
  | _ => false

/-- Text in parentheses, if it needs them. -/
def bracket (needed : Bool) (s : String) : String := if needed then "(" ++ s ++ ")" else s

/-- The text of a property; connectives inside connectives are in parentheses. -/
def text : Property → String
  | .const value => if value then "true" else "false"
  | .atom a => a.text
  | .not p => "!(" ++ p.text ++ ")"
  | .and p q => bracket p.isConnective p.text ++ " && " ++ bracket q.isConnective q.text
  | .or p q => bracket p.isConnective p.text ++ " || " ++ bracket q.isConnective q.text
  | .next paths p => paths.text ++ "X![" ++ p.text ++ "]"
  | .eventually paths p => paths.text ++ "F![" ++ p.text ++ "]"
  | .always paths p => paths.text ++ "G![" ++ p.text ++ "]"
  | .holdUntil paths p q => paths.text ++ "U![" ++ p.text ++ ", " ++ q.text ++ "]"
  | .release paths p q => paths.text ++ "R![" ++ p.text ++ ", " ++ q.text ++ "]"
  | .fix kind name p => kind.text ++ "![" ++ name ++ ", " ++ p.text ++ "]"
  | .var name => name

/-- Properties are told apart by their text. -/
def key (p : Property) : String := p.text

/-- The property every system is verified for first: it never panics. -/
def inherent : Property :=
  .always .all (.atom ⟨"__panic", none, .signless, .eq, 0⟩)

/-- Whether the property is the inherent one. -/
def isInherent (p : Property) : Bool := p.key == inherent.key

end Property

end RefineCheck
