/-
  RefineCheck.State

  States of a system: a panic code together with a record, the marks of states, and the
  lookup of the values that atomic properties name.
-/

import RefineCheck.Record.Mark

namespace RefineCheck

/-- The name under which the panic code is looked up. -/
def panicField : String := "__panic"

/-- Why a name in a property does not denote a value that can be compared. -/
inductive LookupError
  | fieldNotFound (name : String)
  /-- The index is out of range, or the field is not an array. -/
  | indexInvalid (name : String) (index : Nat)
  | indexRequired (name : String)
  /-- An ordering comparison of a field that is neither signed nor unsigned. -/
  | signednessUnknown (name : String)
deriving DecidableEq, Repr

/-- The text of the failure. -/
def LookupError.message : LookupError → String
  | .fieldNotFound name => "machine: field " ++ Text.quote name ++ " not found"
  | .indexInvalid name i => s!"machine: index {i} is invalid for field " ++ Text.quote name
  | .indexRequired name => "machine: array field " ++ Text.quote name ++ " requires an index"
  | .signednessUnknown name =>
    "machine: signedness of field " ++ Text.quote name ++
      " is not established, use as_signed or as_unsigned"

/-! ## States -/

/-- The panic code and the record that a step results in. -/
structure State where
  panic : Value
  result : Record
deriving DecidableEq

namespace State

/-- A state that certainly does not panic. -/
def quiet (result : Record) : State := ⟨Value.ofNat panicWidth noPanic, result⟩

/-- Whether the first covers the second, first the panic value and then the fields. -/
def contains (s t : State) : Except Fault Bool := do
  if ← s.panic.contains t.panic then s.result.contains t.result else return false

/-- Whether both have the same panic value and the same fields. -/
def equal (s t : State) : Bool := decide (s.panic = t.panic) && s.result.equal t.result

/-- The panic value with the fields. -/
def text (s : State) : String := panicField ++ ": " ++ s.panic.text ++ ", " ++ s.result.text

/-- States are told apart by their text. -/
def key (s : State) : String := s.text

/-- The value a name and an index denote. The panic code is unsigned; an index is given
    for arrays and only for them. -/
def lookup (s : State) (name : String) (index : Option Nat) :
    Except LookupError (Value × Signedness) :=
  if name = panicField then
    match index with
    | some i => .error (.indexInvalid name i)
    | none => .ok (s.panic, .unsigned)
  else
    match s.result.field? name with
    | none => .error (.fieldNotFound name)
    | some f =>
      match f.content, index with
      | .scalar _, some i => .error (.indexInvalid name i)
      | .scalar value, none => .ok (value, f.signedness)
      | .array _ _, none => .error (.indexRequired name)
      | .array _ memory, some i =>
        if i ≤ Word.last memory.indexWidth then .ok (memory.elements.item i, f.signedness)
        else .error (.indexInvalid name i)

end State

/-! ## Marks of states -/

/-- A mark of the panic code and of the record. -/
structure StateMark where
  panic : Marking
  result : RecordMark
deriving DecidableEq

namespace StateMark

/-- The mark of no bit of states of this form. -/
def unmarked (template : Record) : Except Fault StateMark :=
  return ⟨⟨panicWidth, .unmarked panicWidth⟩, ← RecordMark.unmarked template⟩

/-- Marks every bit. -/
def all (template : Record) (importance : Nat) : Except Fault StateMark :=
  return ⟨⟨panicWidth, .all panicWidth importance⟩, ← RecordMark.all template importance⟩

/-- Whether some bit is marked, that of the panic value included. -/
def isMarked (m : StateMark) : Bool := m.panic.isMarked || m.result.isMarked

/-- The greatest importance of a marked bit. -/
def importance (m : StateMark) : Nat := max m.panic.importance m.result.importance

/-- Marks what either marks. -/
def join (m n : StateMark) : Except Fault StateMark :=
  return ⟨← m.panic.join n.panic, ← m.result.join n.result⟩

/-- Refines the panic code first, then the record. -/
def refine? (m offer : StateMark) : Except Fault (Option StateMark) := do
  match ← m.panic.refine? offer.panic with
  | some panic => return some { m with panic }
  | none => return (← m.result.refine? offer.result).map fun result => { m with result }

/-- Makes every unmarked bit unknown. -/
def decay (m : StateMark) (s : State) : Except Fault State :=
  return ⟨← m.panic.decay s.panic, ← m.result.decay s.result⟩

/-- Whether both mark the same bits with the same importance. -/
def equal (m n : StateMark) : Bool := decide (m.panic = n.panic) && m.result.equal n.result

/-- The mark of the panic value with those of the fields. -/
def text (m : StateMark) : String :=
  "\x7b" ++ panicField ++ ": " ++ m.panic.text ++ ", " ++ m.result.text ++ "\x7d"

end StateMark

end RefineCheck
