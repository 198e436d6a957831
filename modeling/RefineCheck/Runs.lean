/-
  RefineCheck.Runs

  Arrays over the indices from zero to a last one, stored as runs of equal elements.
  Each run is given by the last index it covers, so neighbouring runs meet without a
  gap and reading an index takes the first run that reaches it.
-/

import RefineCheck.Fault

namespace RefineCheck

/-- The elements up to the index `last`, from where the previous run ended. -/
structure Run (α : Type) where
  last : Nat
  value : α
deriving DecidableEq

/-- A run with both of its ends. -/
structure Segment (α : Type) where
  first : Nat
  last : Nat
  value : α
deriving DecidableEq

/-- A total map from the indices `0 … last`: some runs, and the element of all indices
    after them. -/
structure Runs (α : Type) where
  runs : List (Run α)
  final : α
  last : Nat
deriving DecidableEq

namespace Runs

variable {α β : Type}

/-! ## Reading -/

/-- The array with one element everywhere. -/
def replicate (last : Nat) (fill : α) : Runs α := ⟨[], fill, last⟩

/-- The element at an index, whether or not the index is in range. -/
def item (l : Runs α) (i : Nat) : α :=
  match l.runs.find? fun r => i ≤ r.last with
  | some r => r.value
  | none => l.final

/-- Whether the index is one of the list. -/
def checkIndex (l : Runs α) (i : Nat) : Except Fault Unit :=
  if i ≤ l.last then .ok () else .error (.indexRange i l.last)

/-- The item at an index of the list. -/
def get (l : Runs α) (i : Nat) : Except Fault α := do
  l.checkIndex i
  return l.item i

/-- The runs with their first indices, starting at `first`. -/
def segmentsFrom (final : α) (last : Nat) : (first : Nat) → List (Run α) → List (Segment α)
  | first, [] => [⟨first, last, final⟩]
  | first, r :: rest => ⟨first, r.last, r.value⟩ :: segmentsFrom final last (r.last + 1) rest

/-- All runs with both ends, in order. -/
def segments (l : Runs α) : List (Segment α) := segmentsFrom l.final l.last 0 l.runs

/-- The runs that overlap a range, clipped to it. The range may start past the end of
    the array, where its last run is taken to go on. -/
def within (l : Runs α) (first last : Nat) : Except Fault (List (Segment α)) := do
  l.checkIndex last
  let overlapping := l.segments.filter fun s =>
    (first ≤ s.last || s.last == l.last) && s.first ≤ last
  return overlapping.map fun s => ⟨max s.first first, min s.last last, s.value⟩

/-- Combines the elements of a range; there is nothing to combine in an empty one. -/
def reduce? (l : Runs α) (first last : Nat) (f : α → α → Except Fault α) :
    Except Fault (Option α) := do
  match ← l.within first last with
  | [] => return none
  | s :: rest => return some (← rest.foldlM (fun acc t => f acc t.value) s.value)

/-- Whether some element of a range has the property. -/
def any (l : Runs α) (first last : Nat) (p : α → Bool) : Except Fault Bool :=
  return (← l.within first last).any fun s => p s.value

/-! ## Writing -/

/-- Drops every run that has the element of what follows it. -/
def compress [DecidableEq α] (final : α) : List (Run α) → List (Run α)
  | [] => []
  | r :: rest =>
    let kept := compress final rest
    let next := match kept with
      | [] => final
      | s :: _ => s.value
    if r.value = next then kept else r :: kept

/-- Makes a run end at the index. -/
def cut (final : α) (i : Nat) : List (Run α) → List (Run α)
  | [] => [⟨i, final⟩]
  | r :: rest =>
    if i < r.last then ⟨i, r.value⟩ :: r :: rest
    else if i = r.last then r :: rest
    else r :: cut final i rest

/-- Applies a function to the element of each run, given the first index of the run. -/
def mapRunsM (f : Nat → α → Except Fault β) :
    (first : Nat) → List (Run α) → Except Fault (List (Run β) × Nat)
  | first, [] => return ([], first)
  | first, r :: rest => do
    let value ← f first r.value
    let (rest, next) ← mapRunsM f (r.last + 1) rest
    return (⟨r.last, value⟩ :: rest, next)

/-- Applies a function to the elements of all runs in order. -/
def mapFromM [DecidableEq β] (f : Nat → α → Except Fault β) (l : Runs α) :
    Except Fault (Runs β) := do
  let (runs, next) ← mapRunsM f 0 l.runs
  let final ← f next l.final
  return ⟨compress final runs, final, l.last⟩

/-- Applies a function to every element. -/
def mapM [DecidableEq β] (f : α → Except Fault β) (l : Runs α) : Except Fault (Runs β) :=
  l.mapFromM fun _ => f

/-- Applies a total function to every element. -/
def map [DecidableEq β] (f : α → β) (l : Runs α) : Runs β :=
  ⟨compress (f l.final) (l.runs.map fun r => ⟨r.last, f r.value⟩), f l.final, l.last⟩

/-- Applies a function to the elements of a range. -/
def mapRangeM [DecidableEq α] (l : Runs α) (first last : Nat) (f : α → Except Fault α) :
    Except Fault (Runs α) := do
  l.checkIndex last
  if last < first then throw (.emptyRange first last)
  let runs := if first = 0 then l.runs else cut l.final (first - 1) l.runs
  let runs := if last < l.last then cut l.final last runs else runs
  { l with runs }.mapFromM fun start value =>
    if first ≤ start ∧ start ≤ last then f value else .ok value

/-- Replaces the element at an index. -/
def set [DecidableEq α] (l : Runs α) (i : Nat) (value : α) : Except Fault (Runs α) :=
  l.mapRangeM i i fun _ => .ok value

/-! ## Pairing -/

/-- The runs on which both arrays are constant. -/
def zipRuns (a : α) (b : β) : List (Run α) → List (Run β) → List (Run (α × β))
  | [], [] => []
  | [], s :: ss => ⟨s.last, (a, s.value)⟩ :: zipRuns a b [] ss
  | r :: rs, [] => ⟨r.last, (r.value, b)⟩ :: zipRuns a b rs []
  | r :: rs, s :: ss =>
    if r.last < s.last then ⟨r.last, (r.value, s.value)⟩ :: zipRuns a b rs (s :: ss)
    else if s.last < r.last then ⟨s.last, (r.value, s.value)⟩ :: zipRuns a b (r :: rs) ss
    else ⟨r.last, (r.value, s.value)⟩ :: zipRuns a b rs ss
termination_by rs ss => rs.length + ss.length

/-- Pairs the elements of two arrays of one size. -/
def zip (l : Runs α) (k : Runs β) : Except Fault (Runs (α × β)) :=
  if l.last = k.last then
    .ok ⟨zipRuns l.final k.final l.runs k.runs, (l.final, k.final), l.last⟩
  else .error (.sizeMismatch l.last k.last)

/-- Combines two arrays of one size element by element. -/
def zipWithM {γ : Type} [DecidableEq γ] (f : α → β → Except Fault γ) (l : Runs α) (k : Runs β) :
    Except Fault (Runs γ) := do
  (← l.zip k).mapM fun p => f p.1 p.2

/-- Whether a test holds at every index of two arrays of one size. Every run is tested. -/
def allM (p : α → β → Except Fault Bool) (l : Runs α) (k : Runs β) : Except Fault Bool := do
  let outcomes ← (← l.zip k).segments.mapM fun s => p s.value.1 s.value.2
  return outcomes.all id

/-! ## Text -/

/-- Each run as `[first..last]: element`, or `[index]: element`. -/
def text (element : α → String) (l : Runs α) : String :=
  ", ".intercalate <| l.segments.map fun s =>
    (if s.first = s.last then s!"[{s.first}]" else s!"[{s.first}..{s.last}]") ++ ": " ++
      element s.value

end Runs

end RefineCheck
