/-
  RefineCheck.Kleene

  Truth values of properties. `Kleene` is the three-valued logic in which unknown lies
  between false and true. `Valuation` adds verdicts that depend on a parameter of the
  system, which no refinement can resolve.
-/

namespace RefineCheck

/-! ## Three values -/

/-- A truth value that may be unknown, in increasing order. -/
inductive Kleene
  | ff | unknown | tt
deriving DecidableEq, Repr

namespace Kleene

/-- The known truth value. -/
def ofBool (b : Bool) : Kleene := if b then .tt else .ff

/-- Whether the value is true or false. -/
def isKnown (v : Kleene) : Bool := v != .unknown

/-- The truth value, if it is known. -/
def toBool? : Kleene → Option Bool
  | .ff => some false
  | .unknown => none
  | .tt => some true

/-- Negation, which leaves the unknown value unknown. -/
def not : Kleene → Kleene
  | .ff => .tt
  | .unknown => .unknown
  | .tt => .ff

/-- The smaller value. -/
def and : Kleene → Kleene → Kleene
  | .ff, _ | _, .ff => .ff
  | .unknown, _ | _, .unknown => .unknown
  | .tt, .tt => .tt

/-- The larger value. -/
def or : Kleene → Kleene → Kleene
  | .tt, _ | _, .tt => .tt
  | .unknown, _ | _, .unknown => .unknown
  | .ff, .ff => .ff

/-- The name of the value. -/
def text : Kleene → String
  | .ff => "false"
  | .unknown => "unknown"
  | .tt => "true"

/-- The value of this name. -/
def ofText? (s : String) : Option Kleene := [ff, unknown, tt].find? fun v => v.text == s

end Kleene

/-! ## Four values -/

/-- The value of a property in a state. -/
inductive Valuation
  | ff | tt | dependent | unknown
deriving DecidableEq, Repr

namespace Valuation

/-- The known valuation. -/
def ofBool (b : Bool) : Valuation := if b then .tt else .ff

/-- The valuation of an outcome that depends on no variable. -/
def ofKleene : Kleene → Valuation
  | .ff => .ff
  | .unknown => .unknown
  | .tt => .tt

/-- The truth value, if it is definite. -/
def toBool? : Valuation → Option Bool
  | .ff => some false
  | .tt => some true
  | .dependent | .unknown => none

/-- Whether the valuation is the unknown one. -/
def isUnknown (v : Valuation) : Bool := v == .unknown

/-- A dependent verdict counts as known. -/
def isKnown (v : Valuation) : Bool := !v.isUnknown

/-- Negation: only the two known valuations change. -/
def not : Valuation → Valuation
  | .ff => .tt
  | .tt => .ff
  | v => v

/-- The rank in conjunction: a conjunction has the operand of the highest rank. -/
def andRank : Valuation → Nat
  | .tt => 0
  | .dependent => 1
  | .unknown => 2
  | .ff => 3

/-- The rank in disjunction: a disjunction has the operand of the highest rank. -/
def orRank : Valuation → Nat
  | .ff => 0
  | .dependent => 1
  | .unknown => 2
  | .tt => 3

/-- By how many ranks two values differ in conjunction. -/
def compareAnd (v u : Valuation) : Int := v.andRank - u.andRank

/-- By how many ranks two values differ in disjunction. -/
def compareOr (v u : Valuation) : Int := v.orRank - u.orRank

/-- Conjunction: the operand of the higher rank, the first of equals. -/
def and (v u : Valuation) : Valuation := if u.andRank ≤ v.andRank then v else u

/-- Disjunction: the operand of the higher rank, the first of equals. -/
def or (v u : Valuation) : Valuation := if u.orRank ≤ v.orRank then v else u

/-- The name of the valuation. -/
def text : Valuation → String
  | .ff => "false"
  | .tt => "true"
  | .dependent => "dependent"
  | .unknown => "unknown"

/-- The valuation of this name. -/
def ofText? (s : String) : Option Valuation :=
  [ff, tt, dependent, unknown].find? fun v => v.text == s

/-- Conjunction agrees with the three-valued one. -/
theorem ofKleene_and (v u : Kleene) : ofKleene (v.and u) = (ofKleene v).and (ofKleene u) := by
  cases v <;> cases u <;> rfl

/-- Disjunction agrees with the three-valued one. -/
theorem ofKleene_or (v u : Kleene) : ofKleene (v.or u) = (ofKleene v).or (ofKleene u) := by
  cases v <;> cases u <;> rfl

end Valuation

end RefineCheck
