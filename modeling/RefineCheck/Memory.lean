/-
  RefineCheck.Memory

  Abstract arrays of values, indexed by values. An index that stands for several
  numbers reads the join of all elements it may select, and writes by joining the
  written element into each of them.
-/

import RefineCheck.Runs
import RefineCheck.Sized

namespace RefineCheck

/-- An array with one element for each word of the index width. -/
structure Memory where
  indexWidth : Nat
  elementWidth : Nat
  elements : Runs Value
deriving DecidableEq

namespace Memory

/-- The array with one element everywhere. -/
def replicate (indexWidth : Nat) (fill : Value) : Memory where
  indexWidth
  elementWidth := fill.width
  elements := .replicate (Word.last indexWidth) fill

/-- Whether a value has the width of the indices. -/
def checkIndex (a : Memory) (index : Value) : Except Fault Unit :=
  if index.width = a.indexWidth then .ok ()
  else .error (.indexWidth index.width a.indexWidth)

/-- Whether a value has the width of the elements. -/
def checkElement (a : Memory) (element : Value) : Except Fault Unit :=
  if element.width = a.elementWidth then .ok ()
  else .error (.elementWidth element.width a.elementWidth)

/-- The element at a number. -/
def element (a : Memory) (i : Nat) : Except Fault Value := a.elements.get i

/-- The join of every element the index may select. -/
def read (a : Memory) (index : Value) : Except Fault Value := do
  a.checkIndex index
  let joined ← a.elements.reduce? index.lower index.upper Sized.join
  return joined.getD (a.elements.item index.lower)

/-- Replaces the element at a single index, and joins the new element into every one that
    a wider index may select. -/
def write (a : Memory) (index element : Value) : Except Fault Memory := do
  a.checkIndex index
  a.checkElement element
  let elements ← match index.number? with
    | some i => a.elements.set i element
    | none => a.elements.mapRangeM index.lower index.upper (·.join element)
  return { a with elements }

/-- Element by element. -/
def join (a b : Memory) : Except Fault Memory :=
  return { a with elements := ← a.elements.zipWithM Sized.join b.elements }

/-- The common elements, and whether every index has one. An index without one keeps the
    element of the first array. -/
def meet (a b : Memory) : Except Fault (Bool × Memory) := do
  let met ← a.elements.zipWithM
    (fun x y => do
      let common ← x.meet? y
      return (common.isSome, common.getD x)) b.elements
  let ok := met.segments.all fun s => s.value.1
  return (ok, { a with elements := met.map Prod.snd })

/-- Element by element. -/
def contains (a b : Memory) : Except Fault Bool := a.elements.allM Sized.contains b.elements

/-- The runs of equal elements in braces. -/
def text (a : Memory) : String := "\x7b" ++ a.elements.text Sized.text ++ "\x7d"

end Memory

end RefineCheck
