/-
  RefineCheck.Property.Parser

  Reading a property from its text, such as

    AG![x == 0] && !(EF![as_signed(mem[3]) < -1])
    lfp![Z, p == 1 || EX![Z]]

  Connectives of one kind chain to the left, and connectives of different kinds need
  parentheses between them.
-/

import RefineCheck.Property.Normal
import RefineCheck.Property.Token

namespace RefineCheck

/-! ## Errors -/

/-- What a parser wanted to see. -/
inductive SyntaxCause
  | expectedProperty
  | expectedExpression
  | expectedToken (kind : Lexeme.Kind) (context : String)
  | unknownInvocation
  | reservedVariable
  | negativeIndex
  | extraneous
deriving DecidableEq, Repr

/-- What was expected. -/
def SyntaxCause.text : SyntaxCause → String
  | .expectedProperty => "expected a property"
  | .expectedExpression => "expected an identifier or a macro invocation"
  | .expectedToken kind context => "expected " ++ kind.text ++ " when parsing " ++ context
  | .unknownInvocation => "unknown macro invocation"
  | .reservedVariable => "fixed-point variables may not start with __"
  | .negativeIndex => "expected a nonnegative index"
  | .extraneous => "extraneous tokens"

/-- Why a text is not a property. -/
inductive ParseError
  | lexical (e : LexError)
  /-- The cause and the token it was found at, if the text did not end there. -/
  | syntactic (cause : SyntaxCause) (found : Option Token)
  | notMonotone (name : String)
deriving DecidableEq, Repr

namespace ParseError

/-- The stage that failed. -/
def kind : ParseError → String
  | .lexical _ => "lex error"
  | .syntactic _ _ => "syntax error"
  | .notMonotone _ => "not monotone"

/-- The byte the error was found at, unless it is the end of the text. -/
def offset? : ParseError → Option Nat
  | .lexical (.unexpected i _) | .lexical (.invalidNumber i _) => some i
  | .syntactic _ (some t) => some t.offset
  | .syntactic _ none | .notMonotone _ => none

/-- What went wrong, with the token that stands there. -/
def reason : ParseError → String
  | .lexical (.unexpected _ c) => "unexpected character " ++ Text.quoteChar c
  | .lexical (.invalidNumber _ s) => "invalid number " ++ s
  | .syntactic cause none => cause.text
  | .syntactic cause (some t) =>
    cause.text ++ " (have " ++ t.lexeme.kind.text ++ " " ++ Text.quote t.lexeme.text ++ ")"
  | .notMonotone name => s!"variable {name} occurs negated"

/-- The text of the failure, which quotes the input. -/
def message (input : String) (e : ParseError) : String :=
  let place := match e.offset? with
    | some i => s!" at offset {i} of "
    | none => " beyond the end of "
  "property: " ++ e.kind ++ place ++ Text.quote input ++ ": " ++ e.reason

end ParseError

/-! ## Parsing -/

namespace Property.Parser

/-- A reader takes tokens from the front of a list. -/
abbrev Reader (α : Type) := List Token → Except ParseError (α × List Token)

/-- Fails at the first token that is left. -/
def failAt {α : Type} (tokens : List Token) (cause : SyntaxCause) : Except ParseError α :=
  .error (.syntactic cause tokens.head?)

/-- Takes a token of a given kind without content. -/
def expect (wanted : Lexeme) (context : String) : Reader Unit
  | t :: rest =>
    if t.lexeme = wanted then .ok ((), rest)
    else failAt (t :: rest) (.expectedToken wanted.kind context)
  | [] => failAt [] (.expectedToken wanted.kind context)

/-- Reads an identifier, for the construct that is being parsed. -/
def expectName (context : String) : Reader (String × Token)
  | ⟨.name s, i⟩ :: rest => .ok ((s, ⟨.name s, i⟩), rest)
  | tokens => failAt tokens (.expectedToken .name context)

/-- Reads a number, for the construct that is being parsed. -/
def expectNumber (context : String) : Reader (Int × Token)
  | ⟨.number s n, i⟩ :: rest => .ok ((n, ⟨.number s n, i⟩), rest)
  | tokens => failAt tokens (.expectedToken .number context)

/-- Reads a comparison, for the construct that is being parsed. -/
def expectComparison (context : String) : Reader Comparison
  | ⟨.comparison c, _⟩ :: rest => .ok (c, rest)
  | tokens => failAt tokens (.expectedToken .comparison context)

/-- An optional index in square brackets. -/
def index? : Reader (Option Nat)
  | ⟨.openSquare, _⟩ :: rest => do
    let ((n, token), rest) ← expectNumber "an index" rest
    if n < 0 then throw (.syntactic .negativeIndex (some token))
    let ((), rest) ← expect .closeSquare "an index" rest
    return (some n.toNat, rest)
  | tokens => .ok (none, tokens)

/-- The signedness that a function name forces. -/
def forcedBy : String → Signedness
  | "as_signed" => .signed
  | "as_unsigned" => .unsigned
  | _ => .signless

/-- The rest of an atomic property that starts with a name. -/
def atomic (first : String) : Reader Atomic := fun tokens => do
  let forced := forcedBy first
  let (name, tokens) ←
    if forced = .signless then pure (first, tokens)
    else do
      let ((), tokens) ← expect .openParen "forced signedness" tokens
      let ((name, _), tokens) ← expectName "forced signedness" tokens
      pure (name, tokens)
  let (index, tokens) ← index? tokens
  let tokens ←
    if forced = .signless then pure tokens
    else do
      let ((), tokens) ← expect .closeParen "forced signedness" tokens
      pure tokens
  let (comparison, tokens) ← expectComparison "an atomic property" tokens
  let ((constant, _), tokens) ← expectNumber "an atomic property" tokens
  return (⟨name, index, forced, comparison, constant⟩, tokens)

/-- A temporal operator by its name: with one or with two operands. -/
inductive Operator
  | unary (build : Property → Property)
  | binary (build : Property → Property → Property)

/-- The operator of this name. -/
def operator? : String → Option Operator
  | "AX" => some (.unary (.next .all))
  | "EX" => some (.unary (.next .some))
  | "AF" => some (.unary (.eventually .all))
  | "EF" => some (.unary (.eventually .some))
  | "AG" => some (.unary (.always .all))
  | "EG" => some (.unary (.always .some))
  | "AU" => some (.binary (.holdUntil .all))
  | "EU" => some (.binary (.holdUntil .some))
  | "AR" => some (.binary (.release .all))
  | "ER" => some (.binary (.release .some))
  | _ => none

/-- The fixed-point operator of this name. -/
def extremum? : String → Option Extremum
  | "lfp" => some .least
  | "gfp" => some .greatest
  | _ => none

/-- Whether a variable name is kept for generated ones. -/
def isReserved (name : String) : Bool :=
  match name.toList with
  | '_' :: '_' :: _ => true
  | _ => false

mutual

/-- An expression, or a chain of expressions joined by one connective. The scope has the variables of
    the enclosing fixed points. -/
def property : (fuel : Nat) → (scope : List String) → Reader Property
  | 0, _, tokens => failAt tokens .expectedProperty
  | fuel + 1, scope, tokens => do
    let (first, tokens) ← expression fuel scope tokens
    match tokens with
    | ⟨.and, _⟩ :: _ => chain fuel scope .and .and first tokens
    | ⟨.or, _⟩ :: _ => chain fuel scope .or .or first tokens
    | _ => return (first, tokens)

/-- The rest of a chain, as long as its connective comes next. -/
def chain : (fuel : Nat) → (scope : List String) → (connective : Lexeme) →
    (build : Property → Property → Property) → (left : Property) → Reader Property
  | 0, _, _, _, _, tokens => failAt tokens .expectedProperty
  | fuel + 1, scope, connective, build, left, tokens =>
    match tokens with
    | t :: rest =>
      if t.lexeme = connective then do
        let (right, rest) ← expression fuel scope rest
        chain fuel scope connective build (build left right) rest
      else .ok (left, t :: rest)
    | [] => .ok (left, [])

/-- A constant, a variable, an atomic property, an operator with its operands, a negation or a
    property in parentheses. -/
def expression : (fuel : Nat) → (scope : List String) → Reader Property
  | 0, _, tokens => failAt tokens .expectedProperty
  | fuel + 1, scope, tokens =>
    match tokens with
    | [] => failAt [] .expectedProperty
    | ⟨.name s, _⟩ :: rest =>
      if s = "true" then .ok (.const true, rest)
      else if s = "false" then .ok (.const false, rest)
      else if scope.contains s then .ok (.var s, rest)
      else do
        let (a, rest) ← atomic s rest
        return (.atom a, rest)
    | ⟨.invocation s, i⟩ :: rest =>
      match extremum? s, operator? s with
      | some kind, _ => do
        let context := "a fixed point"
        let ((), rest) ← expect .openSquare context rest
        let ((name, token), rest) ← expectName context rest
        if isReserved name then throw (.syntactic .reservedVariable (some token))
        let ((), rest) ← expect .comma context rest
        let (p, rest) ← property fuel (name :: scope) rest
        let ((), rest) ← expect .closeSquare context rest
        return (.fix kind name p, rest)
      | none, some (.unary build) => do
        let ((), rest) ← expect .openSquare s rest
        let (p, rest) ← property fuel scope rest
        let ((), rest) ← expect .closeSquare s rest
        return (build p, rest)
      | none, some (.binary build) => do
        let ((), rest) ← expect .openSquare s rest
        let (p, rest) ← property fuel scope rest
        let ((), rest) ← expect .comma s rest
        let (q, rest) ← property fuel scope rest
        let ((), rest) ← expect .closeSquare s rest
        return (build p q, rest)
      | none, none => failAt (⟨.invocation s, i⟩ :: rest) .unknownInvocation
    | ⟨.exclamation, _⟩ :: rest => do
      let ((), rest) ← expect .openParen "a negation" rest
      let (p, rest) ← property fuel scope rest
      let ((), rest) ← expect .closeParen "a negation" rest
      return (.not p, rest)
    | ⟨.openParen, _⟩ :: rest => do
      let (p, rest) ← property fuel scope rest
      let ((), rest) ← expect .closeParen "a parenthesized property" rest
      return (p, rest)
    | tokens => failAt tokens .expectedExpression

end

/-- The property that a whole token list writes. Two units of fuel for each token are enough. -/
def ofTokens (tokens : List Token) : Except ParseError Property := do
  let (p, rest) ← property (2 * tokens.length + 2) [] tokens
  match rest with
  | [] => return p
  | _ => failAt rest .extraneous

end Property.Parser

/-- The property that a text writes, if its variables occur with the polarity of their fixed
    points. -/
def Property.parse (text : String) : Except ParseError Property := do
  let tokens ← (Token.ofText text).mapError ParseError.lexical
  let p ← Parser.ofTokens tokens
  match negatedVariable? false [] p with
  | some name => throw (.notMonotone name)
  | none => return p

end RefineCheck
