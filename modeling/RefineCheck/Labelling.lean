/-
  RefineCheck.Labelling

  What is known of one property on a space: the labels of its closed parts and the histories
  of its fixed points. Labels are kept between checks, and after a change of the space only
  the states that the change can reach backwards are labelled again.
-/

import RefineCheck.Labelling.Formula
import RefineCheck.Labelling.History
import RefineCheck.Property.Atomic
import RefineCheck.Space

namespace RefineCheck

open Std (TreeMap TreeSet)

/-- Why a property cannot be checked. -/
inductive CheckError
  /-- An atomic property that the states give no meaning to, found before any labelling. -/
  | invalid (a : Atomic) (cause : LookupError)
  /-- A lookup that fails while states are labelled. -/
  | lookup (cause : LookupError)
  | fault (cause : Fault)
deriving DecidableEq, Repr

/-- The labels of states. -/
abbrev Labels := TreeMap StateId Label

namespace Labels

/-- The valuation of a state; a state without a label counts as false. -/
def valuation (labels : Labels) (id : StateId) : Valuation :=
  match labels[id]? with
  | some label => label.valuation
  | none => .ff

/-- Labels each state of a list. -/
def tabulate (targets : List StateId) (label : StateId → Label) : Labels :=
  targets.foldl (fun labels id => labels.insert id (label id)) {}

/-- Replaces the labels of the states of a list by others. -/
def update (labels : Labels) (targets : List StateId) (other : Labels) : Labels :=
  targets.foldl (fun labels id =>
    labels.insert id ((other[id]?).getD ⟨.ff, []⟩)) labels

end Labels

/-- The verdict over all or over some successors. -/
def Paths.combine (paths : Paths) (valuations : List Valuation) : Valuation :=
  match paths with
  | .all => valuations.foldl .and .tt
  | .some => valuations.foldl .or .ff

/-- The value that an iteration starts from. -/
def Extremum.ground : Extremum → Valuation
  | .least => .ff
  | .greatest => .tt

/-- A property with the labels that were computed for it so far. -/
structure Labelling where
  property : Property
  formula : Formula
  /-- The labels of the closed parts by their numbers. -/
  labels : TreeMap Nat Labels := {}
  /-- The histories of the fixed points by their numbers. -/
  histories : TreeMap Nat History := {}
  /-- The states whose labels, and those of all states that lead to them, are out of date. -/
  changed : TreeSet StateId := {}
  /-- Counts the iterations of fixed points. -/
  time : Nat := 0

namespace Labelling

/-- A labelling of a property that knows nothing yet. -/
def ofProperty (p : Property) : Except Fault Labelling :=
  return { property := p, formula := ← Formula.ofProperty p }

/-- The labels of the closed part with this number. -/
def labelsOf (l : Labelling) (id : Nat) : Labels := l.labels.getD id {}

/-- The history of the fixed point with this number. -/
def history (l : Labelling) (id : Nat) : History := l.histories.getD id {}

/-! ## Forgetting -/

/-- Forgets everything about some states. -/
def purge (l : Labelling) (states : List StateId) : Labelling :=
  { l with
    labels := l.labels.map fun _ labels => states.foldl (fun m id => m.erase id) labels
    histories := l.histories.map fun _ h => h.removeStates states }

/-- Forgets everything. -/
def clear (l : Labelling) : Labelling := { property := l.property, formula := l.formula }

/-- Declares that states are new or have other successors than before. -/
def declare (l : Labelling) (states : List StateId) : Labelling :=
  { l with changed := l.changed.insertMany states }

/-- Declares that states were removed from the space. -/
def removeStates (l : Labelling) (states : List StateId) : Labelling :=
  let l := l.purge states
  { l with changed := states.foldl (fun m id => m.erase id) l.changed }

/-- The states that a change in some states affects: these and all that lead to them. -/
def affected (s : Space) (changed : TreeSet StateId) : List StateId :=
  s.backwards.walk changed.toList changed

/-- Forgets what the declared changes affect. -/
def settle (s : Space) (l : Labelling) : Labelling :=
  { l.purge (affected s l.changed) with changed := {} }

/-! ## Labels -/

/-- Labels what is asked for and remembers it; what was remembered stays after a failure. -/
abbrev LabelM := ExceptT CheckError (StateM Labelling)

/-- A fault of what is labelled ends the computation. -/
def raise {α : Type} (f : Except Fault α) : LabelM α :=
  match f with
  | .ok a => return a
  | .error cause => throw (.fault cause)

/-- The next time. -/
def tick : LabelM Nat :=
  modifyGet fun l => (l.time + 1, { l with time := l.time + 1 })

/-- Records labels of a fixed point at a time. -/
def record (id time : Nat) (labels : List (StateId × Label)) : LabelM Unit :=
  modify fun l =>
    let history := labels.foldl (fun h (state, label) => h.insert time state label) (l.history id)
    { l with histories := l.histories.insert id history }

/-- Remembers labels of a closed part. -/
def remember (id : Nat) (labels : Labels) : LabelM Unit :=
  modify fun l => { l with labels := l.labels.insert id labels }

/-- The label of a property about the successors of a state. -/
def nextLabel (s : Space) (paths : Paths) (inner : StateId → Valuation) (id : StateId) : Label :=
  let valuation := paths.combine ((s.next id).map inner)
  ⟨valuation, (s.next id).filter fun n => inner n == valuation⟩

/-- Iterates a fixed point on the targets until no valuation changes. A monotone body changes
    each valuation at most twice, so fuel for that many rounds and one more is enough. -/
def iterate (id : Nat) (targets : List StateId) (body : Labels → LabelM Labels) :
    (fuel : Nat) → (approximation : Labels) → LabelM Labels
  | 0, _ => throw (.fault (.unsettled id))
  | fuel + 1, approximation => do
    let values ← body approximation
    let time ← tick
    let changed := targets.filter fun n => values.valuation n != approximation.valuation n
    record id time (changed.map fun n => (n, (values[n]?).getD ⟨.ff, []⟩))
    let approximation := approximation.update targets values
    if changed.isEmpty then return approximation
    else iterate id targets body fuel approximation

/-- Labels the targets with a formula. The environment has the labels of the variables, and
    `known` the labels that the formula already has on the rest of the region. -/
def label (s : Space) (region : List StateId) :
    Formula → (env : TreeMap Nat Labels) → (targets : List StateId) → (known : Labels) →
      LabelM Labels
  | .const value, _, targets, _ => return .tabulate targets fun _ => ⟨.ofBool value, []⟩
  | .atom a, _, targets, _ =>
    targets.foldlM (fun labels id => do
      match a.evaluate (← raise (s.state id)) with
      | .ok value => return labels.insert id ⟨.ofKleene value, []⟩
      | .error cause => throw (.lookup cause)) {}
  | .and f g, env, targets, _ => do
    let left ← label s region f env region {}
    let right ← label s region g env region {}
    return .tabulate targets fun id => ⟨(left.valuation id).and (right.valuation id), []⟩
  | .or f g, env, targets, _ => do
    let left ← label s region f env region {}
    let right ← label s region g env region {}
    return .tabulate targets fun id => ⟨(left.valuation id).or (right.valuation id), []⟩
  | .next paths f, env, targets, _ => do
    let inner ← label s region f env region {}
    return .tabulate targets (nextLabel s paths inner.valuation)
  | .fix id kind _ f, env, targets, known => do
    let ground : Label := ⟨kind.ground, []⟩
    let start := if targets.length < region.length then known else {}
    record id (← tick) (targets.map fun n => (n, ground))
    let result ← iterate id targets (fun labels => label s region f (env.insert id labels) region {})
      (2 * targets.length + 1) (start.update targets (.tabulate targets fun _ => ground))
    return Labels.update {} targets result
  | .var id _, env, targets, _ => return Labels.update {} targets (env.getD id {})
  | .shared id f, env, _, _ => do
    let known := (← get).labelsOf id
    let missing := region.filter fun n => !known.contains n
    if missing.isEmpty then return known
    else
      let fresh ← label s region f env missing known
      let labels := known.update missing fresh
      remember id labels
      return labels

/-- Fails if some atomic property has no meaning in a state. All states have the same fields, so
    one state speaks for them. -/
def validate (s : Space) (f : Formula) (id : StateId) : LabelM Unit :=
  f.atoms.forM fun a => do
    match a.evaluate (← raise (s.state id)) with
    | .ok _ => return ()
    | .error cause => throw (.invalid a cause)

end Labelling

end RefineCheck
