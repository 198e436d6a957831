/-
  RefineCheck.Memory.Mark

  Refinement marks of arrays: one mark for each element.
-/

import RefineCheck.Mark
import RefineCheck.Memory

namespace RefineCheck

/-- A mark of every element of an array. -/
structure MemoryMark where
  indexWidth : Nat
  elementWidth : Nat
  marks : Runs Marking
deriving DecidableEq

namespace MemoryMark

/-! ## Construction -/

/-- The same mark for every element. -/
def replicate (indexWidth : Nat) (fill : Marking) : MemoryMark where
  indexWidth
  elementWidth := fill.width
  marks := .replicate (Word.last indexWidth) fill

/-- The mark of no bit. -/
def unmarked (indexWidth elementWidth : Nat) : Except Fault MemoryMark :=
  return replicate indexWidth (← Marking.unmarked elementWidth)

/-- Marks every bit of every element. -/
def all (indexWidth elementWidth importance : Nat) : Except Fault MemoryMark :=
  return replicate indexWidth (← Marking.all elementWidth importance)

/-- Joins a mark into the element at an index. -/
def withElement (m : MemoryMark) (i : Nat) (mark : Marking) : Except Fault MemoryMark := do
  let joined ← (← m.marks.get i).join mark
  return { m with marks := ← m.marks.set i joined }

/-- The mark of the element at the index. -/
def element (m : MemoryMark) (i : Nat) : Except Fault Marking := m.marks.get i

/-- Whether some bit of some element is marked. -/
def isMarked (m : MemoryMark) : Bool := m.marks.segments.any fun s => s.value.isMarked

/-- The largest importance of an element. -/
def importance (m : MemoryMark) : Nat :=
  m.marks.segments.foldl (fun n s => max n s.value.importance) 0

/-- The runs of equal marks in braces. -/
def text (m : MemoryMark) : String := "\x7b" ++ m.marks.text Marking.text ++ "\x7d"

/-! ## Combination -/

/-- Element by element. -/
def join (m n : MemoryMark) : Except Fault MemoryMark :=
  return { m with marks := ← m.marks.zipWithM Marking.join n.marks }

/-- The first run whose mark an offer refines, with the refined mark. -/
def findRefinement : List (Segment (Marking × Marking)) → Except Fault (Option (Nat × Marking))
  | [] => return none
  | s :: rest => do
    match ← s.value.1.refine? s.value.2 with
    | some refined => return some (s.first, refined)
    | none => findRefinement rest

/-- Refines the element with the lowest index that the offer refines. -/
def refine? (m offer : MemoryMark) : Except Fault (Option MemoryMark) := do
  match ← findRefinement (← m.marks.zip offer.marks).segments with
  | none => return none
  | some (i, refined) => return some { m with marks := ← m.marks.set i refined }

/-- Makes every unmarked bit of every element unknown. -/
def decay (m : MemoryMark) (a : Memory) : Except Fault Memory :=
  return { a with elements := ← m.marks.zipWithM Marking.decay a.elements }

/-- Keeps only the marks on unknown bits of the elements. -/
def limit (m : MemoryMark) (a : Memory) : Except Fault MemoryMark :=
  return { m with marks := ← m.marks.zipWithM Marking.limit a.elements }

/-! ## Enumeration -/

/-- The first array of the enumeration: each element is the first of its mark. -/
def first (m : MemoryMark) : Memory where
  indexWidth := m.indexWidth
  elementWidth := m.elementWidth
  elements := m.marks.map Marking.first

/-- Advances the elements of one mark as a counter, from an index on. Elements that
    overflow start again and carry into the next. -/
def advanceRun (mark : Marking) : (count i : Nat) → Runs Value → Except Fault (Bool × Runs Value)
  | 0, _, elements => return (false, elements)
  | count + 1, i, elements => do
    let (advanced, value) := mark.advance (← elements.get i)
    let elements ← elements.set i value
    if advanced then return (true, elements)
    else advanceRun mark count (i + 1) elements

/-- Advances the first marked element that does not overflow. -/
def advanceSegments :
    List (Segment Marking) → Runs Value → Except Fault (Bool × Runs Value)
  | [], elements => return (false, elements)
  | s :: rest, elements => do
    if s.value.isMarked then
      let (advanced, elements) ← advanceRun s.value (s.last + 1 - s.first) s.first elements
      if advanced then return (true, elements) else advanceSegments rest elements
    else advanceSegments rest elements

/-- Advances the array as a counter, the lowest index first. After the last array it starts
    again with the first one. -/
def advance (m : MemoryMark) (a : Memory) : Except Fault (Bool × Memory) := do
  let (advanced, elements) ← advanceSegments m.marks.segments a.elements
  return if advanced then (true, { a with elements }) else (false, m.first)

/-! ## Backward marks -/

/-- Marks of a read. A single index passes the mark to the element it selects; otherwise
    the index is marked, so that it becomes single first. -/
def backRead (a : Memory) (index : Value) (later : Marking) :
    Except Fault (MemoryMark × Marking) := do
  let earlier ← unmarked a.indexWidth a.elementWidth
  if !later.isMarked then return (earlier, ← Marking.unmarked a.indexWidth)
  match index.number? with
  | some i =>
    let limited ← later.limit (← a.elements.get i)
    return ({ earlier with marks := ← earlier.marks.set i limited },
      ← Marking.unmarked a.indexWidth)
  | none => return (earlier, ← (← Marking.all a.indexWidth later.importance).limit index)

/-- Marks of a write. At a single index the mark of the written element goes to the element
    operand. Otherwise the index alone is marked if an element it may select is, and the
    array keeps its marks if none is. -/
def backWrite (a : Memory) (index element : Value) (later : MemoryMark) :
    Except Fault (MemoryMark × Marking × Marking) := do
  let noIndex ← Marking.unmarked a.indexWidth
  let noElement ← Marking.unmarked a.elementWidth
  match index.number? with
  | some i =>
    let written ← later.marks.get i
    let earlier := { later with marks := ← later.marks.set i noElement }
    return (earlier, noIndex, ← written.limit element)
  | none =>
    if ← later.marks.any index.lower index.upper Marking.isMarked then
      return (← unmarked a.indexWidth a.elementWidth,
        ← (← Marking.all a.indexWidth later.importance).limit index, noElement)
    else return (later, noIndex, noElement)

end MemoryMark

end RefineCheck
