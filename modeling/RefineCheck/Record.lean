/-
  RefineCheck.Record

  Records: ordered collections of named fields, each a single value or an array. States
  and inputs of a system are records.
-/

import RefineCheck.Memory

namespace RefineCheck

/-- How ordering comparisons read a field. -/
inductive Signedness
  | signless | unsigned | signed
deriving DecidableEq, Repr

/-- The name of the signedness. -/
def Signedness.text : Signedness → String
  | .signless => "signless"
  | .unsigned => "unsigned"
  | .signed => "signed"

/-- The signedness of this name. -/
def Signedness.ofText? (s : String) : Option Signedness :=
  [signless, unsigned, signed].find? fun r => r.text == s

/-- What a field holds. An array in a field also has the width that a single value assigned
    to the field must have, although such an assignment leaves the array as it is. -/
inductive Content
  | scalar (value : Value)
  | array (scalarWidth : Nat) (memory : Memory)
deriving DecidableEq

/-- A named field. -/
structure Field where
  name : String
  signedness : Signedness
  content : Content
deriving DecidableEq

namespace Field

/-- The field that holds a single value. -/
def ofValue (name : String) (signedness : Signedness) (value : Value) : Field :=
  ⟨name, signedness, .scalar value⟩

/-- Array fields have no signedness of their own. -/
def ofMemory (name : String) (memory : Memory) : Field :=
  ⟨name, .signless, .array 0 memory⟩

/-- Whether the field holds an array. -/
def isArray (f : Field) : Bool :=
  match f.content with
  | .scalar _ => false
  | .array _ _ => true

/-- The width of the single values the field may be set to. -/
def scalarWidth (f : Field) : Nat :=
  match f.content with
  | .scalar value => value.width
  | .array width _ => width

/-- The value of a field that is not an array. -/
def bits (f : Field) : Except Fault Value :=
  match f.content with
  | .scalar value => .ok value
  | .array _ _ => .error (.fieldIsArray f.name)

/-- The array of a field that is one. -/
def array (f : Field) : Except Fault Memory :=
  match f.content with
  | .scalar _ => .error (.fieldNotArray f.name)
  | .array _ memory => .ok memory

/-- Stores a value of the field's width; an array only checks it and stays as it is. -/
def withBits (f : Field) (value : Value) : Except Fault Field :=
  if value.width = f.scalarWidth then
    match f.content with
    | .scalar _ => .ok { f with content := .scalar value }
    | .array _ _ => .ok f
  else .error (.fieldWidth f.name f.scalarWidth value.width)

/-- Any field may be set to an array. -/
def withArray (f : Field) (memory : Memory) : Field :=
  { f with content := .array f.scalarWidth memory }

/-- Equality of name, signedness and what the field holds. -/
def equal (f g : Field) : Bool :=
  f.name == g.name && f.signedness == g.signedness &&
    match f.content, g.content with
    | .scalar a, .scalar b => decide (a = b)
    | .array _ a, .array _ b => decide (a = b)
    | _, _ => false

/-- The name with the value. -/
def text (f : Field) : String :=
  f.name ++ ": " ++
    match f.content with
    | .scalar value => value.text
    | .array _ memory => memory.text

end Field

/-- An ordered collection of fields. -/
structure Record where
  fields : List Field
deriving DecidableEq

namespace Record

/-- The first field whose name occurs before it, if any. -/
def duplicate? : (seen : List String) → List Field → Option String
  | _, [] => none
  | seen, f :: rest => if f.name ∈ seen then some f.name else duplicate? (f.name :: seen) rest

/-- A record of these fields, whose names must be distinct. -/
def of (fields : List Field) : Except Fault Record :=
  match duplicate? [] fields with
  | some name => .error (.duplicateField name)
  | none => .ok ⟨fields⟩

/-- The record without fields. -/
def empty : Record := ⟨[]⟩

/-- The first field of this name. -/
def field? (r : Record) (name : String) : Option Field := r.fields.find? (·.name == name)

/-- The field of this name, which must be there. -/
def field (r : Record) (name : String) : Except Fault Field :=
  match r.field? name with
  | some f => .ok f
  | none => .error (.noField name)

/-- The single value of a field. -/
def bits (r : Record) (name : String) : Except Fault Value := do (← r.field name).bits

/-- The array of a field. -/
def array (r : Record) (name : String) : Except Fault Memory := do (← r.field name).array

/-- Replaces the first field of a name. -/
def replace (name : String) (g : Field) : List Field → List Field
  | [] => []
  | f :: rest => if f.name == name then g :: rest else f :: replace name g rest

/-- Stores a value in the field of this name. -/
def withBits (r : Record) (name : String) (value : Value) : Except Fault Record := do
  return ⟨replace name (← (← r.field name).withBits value) r.fields⟩

/-- Stores an array in the field of this name. -/
def withArray (r : Record) (name : String) (memory : Memory) : Except Fault Record := do
  return ⟨replace name ((← r.field name).withArray memory) r.fields⟩

/-- The first pair of fields that differ in name or kind. -/
def mismatch? : List Field → List Field → Option (String × String)
  | f :: fs, g :: gs =>
    if f.name != g.name || f.isArray != g.isArray then some (f.name, g.name)
    else mismatch? fs gs
  | _, _ => none

/-- Fails unless both records have fields of the same names and kinds. -/
def checkShape (r s : Record) : Except Fault Unit :=
  if r.fields.length = s.fields.length then
    match mismatch? r.fields s.fields with
    | some (f, g) => .error (.recordFields f g)
    | none => .ok ()
  else .error (.recordSizes r.fields.length s.fields.length)

/-- Applies one function to pairs of single values and another to pairs of arrays. -/
def zipFieldsM {α : Type} (onBits : Field → Value → Value → Except Fault α)
    (onArrays : Field → Memory → Memory → Except Fault α) :
    List Field → List Field → Except Fault (List α)
  | f :: fs, g :: gs => do
    let head ← match f.content, g.content with
      | .array _ a, .array _ b => onArrays f a b
      | _, _ => onBits f (← f.bits) (← g.bits)
    return head :: (← zipFieldsM onBits onArrays fs gs)
  | _, _ => return []

/-- Joins field by field. -/
def join (r s : Record) : Except Fault Record := do
  r.checkShape s
  return ⟨← zipFieldsM (fun f a b => do f.withBits (← a.join b))
    (fun f a b => return f.withArray (← a.join b)) r.fields s.fields⟩

/-- Whether the fields of `f :: fs` contain those of `g :: gs` one by one; the comparison ends
    at the first that does not. -/
def containsFields : List Field → List Field → Except Fault Bool
  | f :: fs, g :: gs => do
    let inside ← match f.content, g.content with
      | .array _ a, .array _ b => a.contains b
      | _, _ => (← f.bits).contains (← g.bits)
    if inside then containsFields fs gs else return false
  | _, _ => return true

/-- Whether every field contains the corresponding field. -/
def contains (r s : Record) : Except Fault Bool := do
  r.checkShape s
  containsFields r.fields s.fields

/-- Whether both have equal fields in the same order. -/
def equal (r s : Record) : Bool :=
  r.fields.length == s.fields.length && (r.fields.zip s.fields).all fun p => p.1.equal p.2

/-- The fields in braces. -/
def text (r : Record) : String :=
  "\x7b" ++ ", ".intercalate (r.fields.map Field.text) ++ "\x7d"

end Record

end RefineCheck
