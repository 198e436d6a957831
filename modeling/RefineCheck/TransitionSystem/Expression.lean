/-
  RefineCheck.TransitionSystem.Expression

  Systems written as expressions: one for each state field, evaluated forwards over
  abstract values, and interpreted backwards to find which leaves a mark asks for.
-/

import RefineCheck.TransitionSystem

namespace RefineCheck

/-- Which outcome of a division is meant. -/
inductive Divided.Part
  | panic | result
deriving DecidableEq, Repr

/-- An expression over the fields of a state and of an input. Its value is a single value or an
    array. -/
inductive Expression
  | input (name : String)
  | state (name : String)
  | constant (value : Value)
  /-- The array with one element everywhere. -/
  | fill (indexWidth : Nat) (value : Value)
  | unary (op : UnaryOp) (e : Expression)
  | extend (op : ExtendOp) (e : Expression) (width : Nat)
  | binary (op : BinaryOp) (a b : Expression)
  | compare (op : CompareOp) (a b : Expression)
  | divide (op : DivideOp) (part : Divided.Part) (a b : Expression)
  /-- The second operand if the first is nonzero, the third if it is zero, their join if it can be
      either. -/
  | choose (condition a b : Expression)
  | read (array index : Expression)
  | write (array index element : Expression)
  /-- The same value; marks that pass it get another importance. -/
  | important (importance : Nat) (e : Expression)
  /-- Fails with the text if the condition can be true. -/
  | failIf (condition : Expression) (text : String) (e : Expression)
  /-- A constant that cannot be built; evaluating it fails. -/
  | invalid (fault : Fault)

namespace Expression

/-! ## Evaluation -/

/-- What an expression evaluates to. -/
inductive Result
  | bits (value : Value)
  | array (memory : Memory)

namespace Result

/-- What a read of the field gives. -/
def ofField (f : Field) : Result :=
  match f.content with
  | .scalar value => .bits value
  | .array _ memory => .array memory

/-- The value of a result that is one. -/
def asBits : Result → Except Fault Value
  | .bits value => .ok value
  | .array _ => .error (.raised "value expected")

/-- The array of a result that is one. -/
def asArray : Result → Except Fault Memory
  | .array memory => .ok memory
  | .bits _ => .error (.raised "array expected")

/-- The join of two results of one kind. -/
def join : Result → Result → Except Fault Result
  | .array a, .array b => return .array (← a.join b)
  | a, b => return .bits (← (← a.asBits).join (← b.asBits))

end Result

/-- The state and the input an expression is evaluated in. -/
structure Scope where
  state : Record
  input : Record

/-- Operands are evaluated from left to right. -/
def eval (scope : Scope) : Expression → Except Fault Result
  | .input name => return .ofField (← scope.input.field name)
  | .state name => return .ofField (← scope.state.field name)
  | .constant value => return .bits value
  | .fill indexWidth value => return .array (.replicate indexWidth value)
  | .unary op e => return .bits (← (← (← eval scope e).asBits).unary op)
  | .extend op e width => return .bits (← (← (← eval scope e).asBits).extend op width)
  | .binary op a b => do
    let a ← (← eval scope a).asBits
    let b ← (← eval scope b).asBits
    return .bits (← a.binary op b)
  | .compare op a b => do
    let a ← (← eval scope a).asBits
    let b ← (← eval scope b).asBits
    return .bits (← a.compare op b)
  | .divide op part a b => do
    let a ← (← eval scope a).asBits
    let b ← (← eval scope b).asBits
    let (panic, result) ← a.divide op b
    return .bits (if part = .panic then panic else result)
  | .choose condition a b => do
    let condition ← (← eval scope condition).asBits
    let a ← eval scope a
    let b ← eval scope b
    match condition.number? with
    | some 0 => return b
    | some _ => return a
    | none => a.join b
  | .read array index => do
    let array ← (← eval scope array).asArray
    let index ← (← eval scope index).asBits
    return .bits (← array.read index)
  | .write array index element => do
    let array ← (← eval scope array).asArray
    let index ← (← eval scope index).asBits
    let element ← (← eval scope element).asBits
    return .array (← array.write index element)
  | .important _ e => eval scope e
  | .failIf condition text e => do
    let condition ← (← eval scope condition).asBits
    if condition.val.canBeTrue then throw (.raised text) else eval scope e
  | .invalid fault => .error fault

/-! ## Backward marks -/

/-- The marks of the state and of the input that are collected from the leaves. -/
structure Demand where
  state : RecordMark
  input : RecordMark

/-- Joins a mark into a field. -/
def joinField (m : RecordMark) (name : String) : FieldMark → Except Fault RecordMark
  | .scalar mark => m.joinBits name mark
  | .array mark => m.joinArray name mark

/-- The marks that reach a result of one kind. -/
def asMarking : FieldMark → Except Fault Marking
  | .scalar mark => .ok mark
  | .array _ => .error (.raised "mark of a value expected")

/-- The mark of an array. -/
def asMemoryMark : FieldMark → Except Fault MemoryMark
  | .array mark => .ok mark
  | .scalar _ => .error (.raised "mark of an array expected")

/-- Keeps the marks on unknown bits of a result. -/
def limitTo (later : FieldMark) : Result → Except Fault FieldMark
  | .bits value => return .scalar (← (← asMarking later).limit value)
  | .array memory => return .array (← (← asMemoryMark later).limit memory)

/-- The mark of an operand all of whose bits decide the result. -/
def backDeciding (a : Value) (later : FieldMark) : Marking :=
  ⟨a.width, if later.isMarked then (Mark.all a.width later.importance).limit a.val
    else .unmarked a.width⟩

/-- The same marks with another importance; marks of arrays keep theirs. -/
def withImportance (n : Nat) : FieldMark → FieldMark
  | .scalar mark => .scalar (mark.withImportance n)
  | .array mark => .array mark

/-- Pushes a mark of the value of an expression back to the leaves it depends on. -/
def demand (scope : Scope) : Expression → (later : FieldMark) → Demand → Except Fault Demand
  | .input name, later, d => return { d with input := ← joinField d.input name later }
  | .state name, later, d => return { d with state := ← joinField d.state name later }
  | .constant _, _, d => return d
  | .fill _ _, _, d => return d
  | .unary op e, later, d => do
    let value ← (← eval scope e).asBits
    let later ← asMarking later
    let mark ← match op with
      | .neg => pure (Marking.back value later)
      | .not => Marking.backNot value later
    demand scope e (.scalar mark) d
  | .extend op e _, later, d => do
    let value ← (← eval scope e).asBits
    demand scope e (.scalar (Marking.backExtend op value (← asMarking later))) d
  | .binary op a b, later, d => do
    let x ← (← eval scope a).asBits
    let y ← (← eval scope b).asBits
    let (m, n) ← Marking.backBinary op x y (← asMarking later)
    demand scope b (.scalar n) (← demand scope a (.scalar m) d)
  | .compare _ a b, later, d => do
    let x ← (← eval scope a).asBits
    let y ← (← eval scope b).asBits
    let (m, n) := Marking.backArith x y (← asMarking later)
    demand scope b (.scalar n) (← demand scope a (.scalar m) d)
  | .divide _ _ a b, later, d => do
    let x ← (← eval scope a).asBits
    let y ← (← eval scope b).asBits
    let (m, n) := Marking.backArith x y (← asMarking later)
    demand scope b (.scalar n) (← demand scope a (.scalar m) d)
  | .choose condition a b, later, d => do
    let c ← (← eval scope condition).asBits
    let x ← eval scope a
    let y ← eval scope b
    match c.number? with
    | some 0 => demand scope b (← limitTo later y) d
    | some _ => demand scope a (← limitTo later x) d
    | none =>
      let d ← demand scope condition (.scalar (backDeciding c later)) d
      let d ← demand scope a (← limitTo later x) d
      demand scope b (← limitTo later y) d
  | .read array index, later, d => do
    let x ← (← eval scope array).asArray
    let i ← (← eval scope index).asBits
    let (m, n) ← MemoryMark.backRead x i (← asMarking later)
    demand scope index (.scalar n) (← demand scope array (.array m) d)
  | .write array index element, later, d => do
    let x ← (← eval scope array).asArray
    let i ← (← eval scope index).asBits
    let e ← (← eval scope element).asBits
    let (m, n, k) ← MemoryMark.backWrite x i e (← asMemoryMark later)
    let d ← demand scope array (.array m) d
    let d ← demand scope index (.scalar n) d
    demand scope element (.scalar k) d
  | .important n e, later, d => demand scope e (withImportance n later) d
  | .failIf _ _ e, later, d => demand scope e later d
  | .invalid fault, _, _ => .error fault

end Expression

/-! ## Systems -/

/-- How a system answers a question about marks. -/
inductive Backward
  /-- Through its expressions. -/
  | faithful
  /-- It marks nothing. -/
  | blind
  /-- It fails. -/
  | failing
  /-- Its marks of the input are those of a record without fields. -/
  | misshapen
deriving DecidableEq, Repr

/-- A system given by expressions. A state field without an expression keeps its value. -/
structure Description where
  inputs : Record
  states : Record
  init : List (String × Expression)
  next : List (String × Expression)
  initPanic : Option Expression
  nextPanic : Option Expression
  messages : List (Nat × String)
  backward : Backward

namespace Description

open Expression (Scope Demand)

/-- The expressions of all state fields, in order. -/
def updates (d : Description) (given : List (String × Expression)) : List (String × Expression) :=
  d.states.fields.map fun f => (f.name, (given.lookup f.name).getD (.state f.name))

/-- Evaluates the fields in order, each one before the next is set, then the panic code. -/
def forward (d : Description) (given : List (String × Expression)) (panic : Option Expression)
    (scope : Scope) : Except Fault State := do
  let result ← (d.updates given).foldlM (fun (r : Record) (name, e) => do
    match ← e.eval scope with
    | .bits value => r.withBits name value
    | .array memory => r.withArray name memory) d.states
  match panic with
  | none => return .quiet result
  | some e => return ⟨← (← e.eval scope).asBits, result⟩

/-- Collects the marks that a mark of the resulting state asks for. -/
def marksBefore (d : Description) (given : List (String × Expression)) (panic : Option Expression)
    (scope : Scope) (later : StateMark) : Except Fault Demand := do
  let nothing : Demand := ⟨← RecordMark.unmarked d.states, ← RecordMark.unmarked d.inputs⟩
  match d.backward with
  | .blind => return nothing
  | .failing => throw (.raised "refinement failed")
  | .misshapen => return { nothing with input := ← RecordMark.unmarked .empty }
  | .faithful =>
    let demand ← (d.updates given).foldlM
      (fun demand (name, e) => do e.demand scope (← later.result.field name) demand) nothing
    match panic with
    | none => return demand
    | some e => e.demand scope (.scalar later.panic) demand

/-- The transition system that the expressions describe. -/
def toSystem (d : Description) : TransitionSystem where
  inputTemplate := d.inputs
  stateTemplate := d.states
  init input := d.forward d.init d.initPanic ⟨d.states, input⟩
  next state input := d.forward d.next d.nextPanic ⟨state, input⟩
  refineInit input later :=
    return (← d.marksBefore d.init d.initPanic ⟨d.states, input⟩ later).input
  refineNext state input later := do
    let demand ← d.marksBefore d.next d.nextPanic ⟨state, input⟩ later
    return (demand.state, demand.input)
  panicMessage code := (d.messages.lookup code).getD ""

end Description

end RefineCheck
