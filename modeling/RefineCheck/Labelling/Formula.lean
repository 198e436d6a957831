/-
  RefineCheck.Labelling.Formula

  Properties in canonical form prepared for labelling. Closed parts carry a number under
  which their labels are kept, and equal closed parts share it. Fixed points carry a number
  under which their history is kept, and variables the number of their fixed point.
-/

import Std.Data.TreeMap
import RefineCheck.Property.Normal

namespace RefineCheck

open Std (TreeMap)

/-- A property in the form that is labelled: each fixed point has a number. -/
inductive Formula
  | const (value : Bool)
  | atom (a : Atomic)
  | and (f g : Formula)
  | or (f g : Formula)
  | next (paths : Paths) (f : Formula)
  | fix (id : Nat) (kind : Extremum) (name : String) (f : Formula)
  | var (id : Nat) (name : String)
  /-- A closed formula, whose labels do not depend on the fixed points around it. -/
  | shared (id : Nat) (f : Formula)
deriving DecidableEq, Repr

namespace Formula

/-- The property without the numbers. -/
def toProperty : Formula → Property
  | .const value => .const value
  | .atom a => .atom a
  | .and f g => .and f.toProperty g.toProperty
  | .or f g => .or f.toProperty g.toProperty
  | .next paths f => .next paths f.toProperty
  | .fix _ kind name f => .fix kind name f.toProperty
  | .var _ name => .var name
  | .shared _ f => f.toProperty

/-- The atomic properties in the order they are written. -/
def atoms : Formula → List Atomic
  | .const _ | .var _ _ => []
  | .atom a => [a]
  | .and f g | .or f g => f.atoms ++ g.atoms
  | .next _ f | .fix _ _ _ f | .shared _ f => f.atoms

/-- The body of the fixed point with a number. -/
def body? (id : Nat) : Formula → Option Formula
  | .const _ | .atom _ | .var _ _ => none
  | .and f g | .or f g => f.body? id <|> g.body? id
  | .next _ f | .shared _ f => f.body? id
  | .fix i _ _ f => if i = id then some f else f.body? id

/-! ## Numbering -/

/-- The next free number and the closed formulas by their text. -/
structure Numbering where
  next : Nat := 0
  closed : TreeMap String Formula := {}

/-- Numbers a closed property once, and any other each time it is met. -/
def share (p : Property) (fresh : StateT Numbering (Except Fault) Formula) :
    StateT Numbering (Except Fault) Formula := do
  if !p.isClosed then fresh
  else
    match (← get).closed[p.key]? with
    | some f => return f
    | none =>
      let f ← fresh
      let id := (← get).next
      modify fun n => { next := id + 1, closed := n.closed.insert p.key (.shared id f) }
      return .shared id f

/-- Numbers a property in canonical form. The bindings give the numbers of the enclosing fixed
    points by their variables. -/
def number (bindings : List (String × Nat)) : Property → StateT Numbering (Except Fault) Formula
  | .const value => share (.const value) (return .const value)
  | .atom a => share (.atom a) (return .atom a)
  | .and p q => share (.and p q) do
    let f ← number bindings p
    return .and f (← number bindings q)
  | .or p q => share (.or p q) do
    let f ← number bindings p
    return .or f (← number bindings q)
  | .next paths p => share (.next paths p) (return .next paths (← number bindings p))
  | .fix kind name p => share (.fix kind name p) do
    let id := (← get).next
    modify fun n => { n with next := id + 1 }
    return .fix id kind name (← number ((name, id) :: bindings) p)
  | .var name =>
    match bindings.lookup name with
    | some id => return .var id name
    | none => throw (.freeVariable name)
  | p => throw (.notCanonical p.text)

/-- The formula of a property: its positive normal form in canonical form, numbered. -/
def ofProperty (p : Property) : Except Fault Formula := do
  let (f, _) ← (number [] (← p.pnf).canonical).run {}
  return f

end Formula

end RefineCheck
