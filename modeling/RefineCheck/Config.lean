/-
  RefineCheck.Config

  The configuration of the verifier, the log and the service: its defaults, how it is read
  from a document and from the environment, and how it is written.
-/

import RefineCheck.Config.Document

namespace RefineCheck

/-- The settings of the program, with their defaults. -/
structure Config where
  decay : Bool := false
  assumeInherent : Bool := false
  /-- How many successors are computed at once; zero stands for as many as there are processors. -/
  workers : Int := 0
  /-- The largest number of refinements; a negative one stands for no limit. -/
  maxRefinements : Int := -1
  level : String := "info"
  development : Bool := false
  address : String := "localhost:12111"
deriving DecidableEq, Repr

namespace Config

/-! ## Documents -/

/-- The entries of a mapping by their keys, unless two have the same. A key that stands for nothing
    is dropped. -/
def fields? (entries : List (Scalar × Node)) : Option (List (String × Node)) :=
  let keys := entries.map fun e => e.1.text
  if keys.length = keys.eraseDups.length then
    some ((entries.filter fun e => e.1.meaning != .null).map fun e => (e.1.text, e.2))
  else none

/-- The settings of a section; nothing stands for an empty one. -/
def section? : Node → Option (List (String × Node))
  | .mapping entries => fields? entries
  | .scalar s => if s.meaning = .null then some [] else none

/-- The scalar of a setting; nothing if it is a mapping. -/
def setting? : Node → Option Scalar
  | .scalar s => some s
  | .mapping _ => none

/-- Takes the settings of one section; settings that are not known are skipped. -/
def withSetting (c : Config) (part name : String) (node : Node) : Option Config :=
  match part, name with
  | "verification", "decay" => do return { c with decay := ← (← setting? node).toBool? c.decay }
  | "verification", "assume_inherent" => do
    return { c with assumeInherent := ← (← setting? node).toBool? c.assumeInherent }
  | "verification", "workers" => do return { c with workers := ← (← setting? node).toInt? c.workers }
  | "verification", "max_refinements" => do
    return { c with maxRefinements := ← (← setting? node).toInt? c.maxRefinements }
  | "logging", "level" => do return { c with level := (← setting? node).toText c.level }
  | "logging", "development" => do
    return { c with development := ← (← setting? node).toBool? c.development }
  | "service", "address" => do return { c with address := (← setting? node).toText c.address }
  | _, _ => some c

/-- The sections that are read; all others are skipped. -/
def sections : List String := ["verification", "logging", "service"]

/-- The configuration with the settings of a document. Nothing if the document cannot be read or a
    setting has a value of another kind. -/
def withText? (c : Config) (text : String) : Option Config := do
  (← fields? (← Node.ofText? text)).foldlM (fun c (part, node) => do
    if part ∈ sections then
      (← section? node).foldlM (fun c (name, value) => c.withSetting part name value) c
    else some c) c

/-- The document that holds all settings. -/
def text (c : Config) : String :=
  let line (name value : String) : String := "    " ++ name ++ ": " ++ value ++ "\n"
  "verification:\n" ++ line "decay" (toString c.decay) ++
    line "assume_inherent" (toString c.assumeInherent) ++ line "workers" (toString c.workers) ++
    line "max_refinements" (toString c.maxRefinements) ++
    "logging:\n" ++ line "level" (writeText 8 c.level) ++
    line "development" (toString c.development) ++
    "service:\n" ++ line "address" (writeText 8 c.address)

/-! ## Environment -/

/-- Why a value of the environment is refused. -/
inductive EnvironmentError
  | notBool (name value : String)
  | notInt (name value : String) (cause : Text.DecimalError)
deriving DecidableEq, Repr

/-- The text of the failure, which quotes the value that was read. -/
def EnvironmentError.message : EnvironmentError → String
  | .notBool name value =>
    "config: " ++ name ++ ": strconv.ParseBool: parsing " ++ Text.quote value ++ ": invalid syntax"
  | .notInt name value cause =>
    "config: " ++ name ++ ": strconv.Atoi: parsing " ++ Text.quote value ++
      (match cause with
      | .malformed => ": invalid syntax"
      | .outOfRange => ": value out of range")

/-- The values of variables by their names. -/
abbrev Environment := List (String × String)

/-- The value of a variable; an empty one counts as missing. -/
def setIn? (env : Environment) (name : String) : Option String :=
  (env.lookup name).filter fun value => !value.isEmpty

/-- The setting of a variable that holds a truth value, or the old one if it is not set. -/
def boolFrom (env : Environment) (name : String) (old : Bool) : Except EnvironmentError Bool :=
  match setIn? env name with
  | none => .ok old
  | some value =>
    if value ∈ ["1", "t", "T", "TRUE", "true", "True"] then .ok true
    else if value ∈ ["0", "f", "F", "FALSE", "false", "False"] then .ok false
    else .error (.notBool name value)

/-- The setting of a variable that holds a number, or the old one if it is not set. -/
def intFrom (env : Environment) (name : String) (old : Int) : Except EnvironmentError Int :=
  match setIn? env name with
  | none => .ok old
  | some value => (Text.decimal? value).mapError (.notInt name value)

/-- The setting of a variable that holds a text, or the old one if it is not set. -/
def textFrom (env : Environment) (name : String) (old : String) : String :=
  (setIn? env name).getD old

/-- The configuration with what the environment sets. -/
def withEnvironment (c : Config) (env : Environment) : Except EnvironmentError Config := do
  let decay ← boolFrom env "GOMCK_DECAY" c.decay
  let assumeInherent ← boolFrom env "GOMCK_ASSUME_INHERENT" c.assumeInherent
  let workers ← intFrom env "GOMCK_WORKERS" c.workers
  let maxRefinements ← intFrom env "GOMCK_MAX_REFINEMENTS" c.maxRefinements
  let development ← boolFrom env "GOMCK_LOG_DEVELOPMENT" c.development
  return {
    decay, assumeInherent, workers, maxRefinements, development
    level := textFrom env "GOMCK_LOG_LEVEL" c.level
    address := textFrom env "GOMCK_ADDRESS" c.address }

/-! ## Options -/

/-- A setting that is handed to the verifier. -/
inductive VerifierOption
  | logger
  | decay
  | assumeInherent
  | workers (count : Int)
deriving DecidableEq, Repr

/-- The option as a log prints it. -/
def VerifierOption.text : VerifierOption → String
  | .logger => "logger"
  | .decay => "decay true"
  | .assumeInherent => "assume_inherent true"
  | .workers count => s!"workers {count}"

/-- The settings that differ from what the verifier does by itself, after the logger. -/
def options (c : Config) : List VerifierOption :=
  .logger :: (if c.decay then [.decay] else []) ++
    (if c.assumeInherent then [.assumeInherent] else []) ++
    (if 0 < c.workers then [.workers c.workers] else [])

end Config

end RefineCheck
