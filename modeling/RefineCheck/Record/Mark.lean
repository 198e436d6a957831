/-
  RefineCheck.Record.Mark

  Refinement marks of records: one mark for each field of a template.
-/

import RefineCheck.Memory.Mark
import RefineCheck.Record

namespace RefineCheck

/-- The mark of one field. -/
inductive FieldMark
  | scalar (mark : Marking)
  | array (mark : MemoryMark)
deriving DecidableEq

namespace FieldMark

/-- Whether some bit is marked. -/
def isMarked : FieldMark → Bool
  | .scalar m => m.isMarked
  | .array m => m.isMarked

/-- The greatest importance of a marked bit. -/
def importance : FieldMark → Nat
  | .scalar m => m.importance
  | .array m => m.importance

/-- The mark of the value, or those of the elements. -/
def text : FieldMark → String
  | .scalar m => m.text
  | .array m => m.text

/-- The mark of a single value; an array mark counts as one of width zero. -/
def bits : FieldMark → Marking
  | .scalar m => m
  | .array _ => ⟨0, .unmarked 0⟩

/-- The mark of no bit of the field. -/
def unmarkedOf (f : Field) : Except Fault FieldMark :=
  match f.content with
  | .scalar value => return .scalar (← Marking.unmarked value.width)
  | .array _ memory =>
    return .array (← MemoryMark.unmarked memory.indexWidth memory.elementWidth)

/-- The mark of every bit of the field. -/
def allOf (importance : Nat) (f : Field) : Except Fault FieldMark :=
  match f.content with
  | .scalar value => return .scalar (← Marking.all value.width importance)
  | .array _ memory =>
    return .array (← MemoryMark.all memory.indexWidth memory.elementWidth importance)

/-- Marks what either marks; both are marks of one kind of field. -/
def join : FieldMark → FieldMark → Except Fault FieldMark
  | .array m, .array n => return .array (← m.join n)
  | m, n => return .scalar (← m.bits.join n.bits)

/-- One more mark from the offer; both are marks of one kind of field. -/
def refine? : FieldMark → FieldMark → Except Fault (Option FieldMark)
  | .array m, .array n => return (← m.refine? n).map .array
  | m, n => return (← m.bits.refine? n.bits).map .scalar

/-- The field with every unmarked bit unknown. -/
def decay (m : FieldMark) (f : Field) : Except Fault Field :=
  match m, f.content with
  | .array m, .array _ memory => return f.withArray (← m.decay memory)
  | m, _ => do f.withBits (← m.bits.decay (← f.bits))

/-- Keeps only the marks on unknown bits of the field. -/
def limit (m : FieldMark) (f : Field) : Except Fault FieldMark :=
  match m, f.content with
  | .array m, .array _ memory => return .array (← m.limit memory)
  | m, _ => return .scalar (← m.bits.limit (← f.bits))

/-- The field set to the first value of the enumeration. -/
def first (m : FieldMark) (f : Field) : Except Fault Field :=
  match m with
  | .array m => return f.withArray m.first
  | .scalar m => f.withBits m.first

/-- The field set to the next value of the enumeration, and whether it did not overflow. -/
def advance (m : FieldMark) (f : Field) : Except Fault (Bool × Field) :=
  match m, f.content with
  | .array m, .array _ memory => do
    let (advanced, memory) ← m.advance memory
    return (advanced, f.withArray memory)
  | m, _ => do
    let (advanced, value) := m.bits.advance (← f.bits)
    return (advanced, ← f.withBits value)

end FieldMark

/-- A mark of every field of a template record. -/
structure RecordMark where
  template : Record
  fields : List FieldMark
deriving DecidableEq

namespace RecordMark

/-! ## Construction -/

/-- The mark of no bit of records of this form. -/
def unmarked (template : Record) : Except Fault RecordMark :=
  return ⟨template, ← template.fields.mapM FieldMark.unmarkedOf⟩

/-- Marks every bit. -/
def all (template : Record) (importance : Nat) : Except Fault RecordMark :=
  return ⟨template, ← template.fields.mapM (FieldMark.allOf importance)⟩

/-- The mark of the first field of a name. -/
def field (m : RecordMark) (name : String) : Except Fault FieldMark :=
  match (m.template.fields.zip m.fields).find? fun p => p.1.name == name with
  | some p => .ok p.2
  | none => .error (.noField name)

/-- The mark of a field that is not an array. -/
def bits (m : RecordMark) (name : String) : Except Fault Marking := do
  match ← m.field name with
  | .scalar mark => return mark
  | .array _ => throw (.markIsArray name)

/-- The mark of a field that is an array. -/
def array (m : RecordMark) (name : String) : Except Fault MemoryMark := do
  match ← m.field name with
  | .array mark => return mark
  | .scalar _ => throw (.markNotArray name)

/-- Replaces the mark of the first field of a name. -/
def replace (name : String) (mark : FieldMark) : List Field → List FieldMark → List FieldMark
  | f :: fs, m :: ms => if f.name == name then mark :: ms else m :: replace name mark fs ms
  | _, ms => ms

/-- Replaces the mark of the field of this name. -/
def withField (m : RecordMark) (name : String) (mark : FieldMark) : RecordMark :=
  { m with fields := replace name mark m.template.fields m.fields }

/-- Joins a mark into a field that is a single value. -/
def joinBits (m : RecordMark) (name : String) (mark : Marking) : Except Fault RecordMark := do
  return m.withField name (.scalar (← (← m.bits name).join mark))

/-- Joins a mark into a field that is an array. -/
def joinArray (m : RecordMark) (name : String) (mark : MemoryMark) : Except Fault RecordMark := do
  return m.withField name (.array (← (← m.array name).join mark))

/-- Whether some bit is marked. -/
def isMarked (m : RecordMark) : Bool := m.fields.any FieldMark.isMarked

/-- The largest importance of a field. -/
def importance (m : RecordMark) : Nat := m.fields.foldl (fun n f => max n f.importance) 0

/-- Whether both mark the same bits with the same importance. -/
def equal (m n : RecordMark) : Bool := decide (m.fields = n.fields)

/-- Only the marked fields are written. -/
def text (m : RecordMark) : String :=
  let parts := (m.template.fields.zip m.fields).filterMap fun (f, mark) =>
    if mark.isMarked then some (f.name ++ ": " ++ mark.text) else none
  "\x7b" ++ ", ".intercalate parts ++ "\x7d"

/-! ## Combination -/

/-- Whether both have as many fields. -/
def checkShape (m n : RecordMark) : Except Fault Unit :=
  if m.fields.length = n.fields.length then .ok ()
  else .error (.markSizes m.fields.length n.fields.length)

/-- Marks what either marks, field by field. -/
def join (m n : RecordMark) : Except Fault RecordMark := do
  m.checkShape n
  return { m with fields := ← (m.fields.zip n.fields).mapM fun p => p.1.join p.2 }

/-- Refines the first field that the offer refines. -/
def refineFields : List FieldMark → List FieldMark → Except Fault (Option (List FieldMark))
  | m :: ms, n :: ns => do
    match ← m.refine? n with
    | some refined => return some (refined :: ms)
    | none => return (← refineFields ms ns).map (m :: ·)
  | _, _ => return none

/-- One more mark from the offer, in the first field that takes one. -/
def refine? (m offer : RecordMark) : Except Fault (Option RecordMark) := do
  m.checkShape offer
  return (← refineFields m.fields offer.fields).map fun fields => { m with fields }

/-- Makes every unmarked bit of the record unknown. -/
def decay (m : RecordMark) (r : Record) : Except Fault Record := do
  m.template.checkShape r
  return ⟨← (m.fields.zip r.fields).mapM fun p => p.1.decay p.2⟩

/-- Keeps only the marks on bits unknown in the record. -/
def limit (m : RecordMark) (r : Record) : Except Fault RecordMark := do
  m.template.checkShape r
  return { m with fields := ← (m.fields.zip r.fields).mapM fun p => p.1.limit p.2 }

/-! ## Enumeration -/

/-- The first record of the enumeration: marked bits are zero, the rest unknown. -/
def first (m : RecordMark) : Except Fault Record :=
  return ⟨← (m.fields.zip m.template.fields).mapM fun p => p.1.first p.2⟩

/-- Advances the first field that does not overflow; those before it start again. -/
def advanceFields : List FieldMark → List Field → Except Fault (Bool × List Field)
  | m :: ms, f :: fs => do
    let (advanced, f) ← m.advance f
    if advanced then return (true, f :: fs)
    else
      let (advanced, fs) ← advanceFields ms fs
      return (advanced, f :: fs)
  | _, fs => return (false, fs)

/-- Advances the record as a counter whose first field is the least significant. After the
    last record it starts again with the first one. -/
def advance (m : RecordMark) (r : Record) : Except Fault (Bool × Record) := do
  m.template.checkShape r
  let (advanced, fields) ← advanceFields m.fields r.fields
  return (advanced, ⟨fields⟩)

end RecordMark

end RefineCheck
