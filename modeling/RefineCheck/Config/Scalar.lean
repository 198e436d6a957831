/-
  RefineCheck.Config.Scalar

  The scalars of a configuration document. A plain scalar stands for a number, a truth value
  or nothing if it looks like one, a quoted one always for its text. Text is written plain
  where it reads back as the same text, and quoted elsewhere.
-/

import RefineCheck.Text.Decimal
import RefineCheck.Text.Numeral
import RefineCheck.Text.Quoted

namespace RefineCheck.Config

/-- A scalar of a document and whether it was quoted. -/
structure Scalar where
  quoted : Bool
  text : String
deriving DecidableEq, Repr

/-- What a scalar stands for. -/
inductive Meaning
  | null
  | bool (b : Bool)
  /-- An integer from `-2 ^ 63` up to `2 ^ 64`. -/
  | integer (n : Int)
  | decimal (x : Text.Decimal)
  | infinity (negative : Bool)
  | notANumber
  | timestamp
  | text (s : String)
deriving DecidableEq, Repr

/-! ## Timestamps -/

/-- How many days the month has. -/
def daysIn (year month : Nat) : Nat :=
  if month = 2 then
    if year % 4 = 0 ∧ (year % 100 ≠ 0 ∨ year % 400 = 0) then 29 else 28
  else if month = 4 ∨ month = 6 ∨ month = 9 ∨ month = 11 then 30
  else 31

/-- A number of one or two digits and what follows it. -/
def oneOrTwoDigits? : List Char → Option (Nat × List Char)
  | a :: b :: rest =>
    if a.isDigit then
      if b.isDigit then some ((a.toNat - 48) * 10 + (b.toNat - 48), rest)
      else some (a.toNat - 48, b :: rest)
    else none
  | [a] => if a.isDigit then some (a.toNat - 48, []) else none
  | [] => none

/-- Three numbers with a character between them, each below a bound, and what follows. -/
def triple? (separator : Char) (bounds : Nat × Nat × Nat) (cs : List Char) :
    Option ((Nat × Nat × Nat) × List Char) := do
  let (a, rest) ← oneOrTwoDigits? cs
  let (b, rest) ← if rest.head? = some separator then oneOrTwoDigits? rest.tail else none
  let (c, rest) ← if rest.head? = some separator then oneOrTwoDigits? rest.tail else none
  if a < bounds.1 ∧ b < bounds.2.1 ∧ c < bounds.2.2 then some ((a, b, c), rest) else none

/-- What follows a fraction of a second, if there is one. -/
def dropFraction : List Char → List Char
  | '.' :: d :: rest | ',' :: d :: rest =>
    if d.isDigit then rest.dropWhile Char.isDigit else '.' :: d :: rest
  | cs => cs

/-- Whether a text is a time zone. -/
def isZone : List Char → Bool
  | ['Z'] => true
  | [sign, a, b, ':', c, d] =>
    (sign = '+' || sign = '-') && a.isDigit && b.isDigit && c.isDigit && d.isDigit
  | _ => false

/-- Whether what follows a date is a time of day. -/
def isTime : List Char → Bool
  | [] => true
  | separator :: rest =>
    match triple? ':' (24, 60, 60) rest with
    | none => false
    | some (_, rest) =>
      if separator = ' ' then (dropFraction rest).isEmpty
      else (separator = 'T' || separator = 't') && isZone (dropFraction rest)

/-- Whether a text is a date with four digits for the year, alone or with a time. -/
def isTimestamp (cs : List Char) : Bool :=
  let year := cs.takeWhile Char.isDigit
  match cs.dropWhile Char.isDigit with
  | '-' :: rest =>
    match oneOrTwoDigits? rest with
    | some (month, '-' :: rest) =>
      match oneOrTwoDigits? rest, Text.ofDigits? 10 year with
      | some (day, rest), some y =>
        year.length == 4 && 1 ≤ month && month ≤ 12 && 1 ≤ day && day ≤ daysIn y month && isTime rest
      | _, _ => false
    | _ => false
  | _ => false

/-! ## Numbers -/

/-- An integer with an optional sign and base mark. -/
def integer? (cs : List Char) : Option Int :=
  let below (n limit : Nat) : Option Int := if n < limit then some n else none
  match cs with
  | '-' :: rest => do
    let n ← Text.natLiteral? rest
    if n ≤ Text.int64Bound then some (-(n : Int)) else none
  | '+' :: rest => do below (← Text.natLiteral? rest) Text.int64Bound
  | _ => do below (← Text.natLiteral? cs) Text.uint64Bound

/-- The exponent at the end of a number; no text stands for zero. -/
def exponent? : List Char → Option Int
  | [] => some 0
  | e :: rest =>
    if e = 'e' ∨ e = 'E' then
      let (negative, digits) := match rest with
        | '-' :: ds => (true, ds)
        | '+' :: ds => (false, ds)
        | ds => (false, ds)
      if digits.isEmpty then none
      else (Text.ofDigits? 10 digits).map fun n => if negative then -(n : Int) else n
    else none

/-- A decimal fraction with an optional sign and exponent. -/
def decimal? (cs : List Char) : Option Text.Decimal := do
  let (negative, cs) := match cs with
    | '-' :: rest => (true, rest)
    | '+' :: rest => (false, rest)
    | cs => (false, cs)
  let whole := cs.takeWhile Char.isDigit
  let (fraction, rest) := match cs.dropWhile Char.isDigit with
    | '.' :: rest => (rest.takeWhile Char.isDigit, rest.dropWhile Char.isDigit)
    | rest => ([], rest)
  if whole.isEmpty && fraction.isEmpty then none
  let digits ← Text.ofDigits? 10 (whole ++ fraction)
  let x : Text.Decimal :=
    ⟨if negative then -(digits : Int) else digits, (← exponent? rest) - fraction.length⟩
  if x.magnitude?.isSome then some x else none

/-! ## Meaning -/

/-- Texts with a meaning of their own. -/
def wordMeaning? (s : String) : Option Meaning :=
  if s ∈ ["", "~", "null", "Null", "NULL"] then some .null
  else if s ∈ ["true", "True", "TRUE"] then some (.bool true)
  else if s ∈ ["false", "False", "FALSE"] then some (.bool false)
  else if s ∈ [".nan", ".NaN", ".NAN"] then some .notANumber
  else if s ∈ [".inf", ".Inf", ".INF", "+.inf", "+.Inf", "+.INF"] then some (.infinity false)
  else if s ∈ ["-.inf", "-.Inf", "-.INF"] then some (.infinity true)
  else none

/-- The number a text writes. Underscores may stand anywhere in a number that starts with a digit or
    a sign. -/
def numberMeaning? (s : String) : Option Meaning :=
  let cs := s.toList
  let plain := cs.filter (· != '_')
  match cs with
  | '.' :: _ => (decimal? cs).map .decimal
  | c :: _ =>
    if c.isDigit || c = '+' || c = '-' then
      if isTimestamp cs then some .timestamp
      else (integer? plain).map .integer <|> (decimal? plain).map .decimal
    else none
  | [] => none

/-- What a plain scalar stands for. -/
def plainMeaning (s : String) : Meaning :=
  ((wordMeaning? s) <|> (numberMeaning? s)).getD (.text s)

/-- What the scalar stands for: a quoted one is always a text. -/
def Scalar.meaning (s : Scalar) : Meaning := if s.quoted then .text s.text else plainMeaning s.text

/-! ## Reading settings -/

/-- Words that stand for a truth value where one is asked for. -/
def spokenBool? (s : String) : Option Bool :=
  if s ∈ ["y", "Y", "yes", "Yes", "YES", "on", "On", "ON"] then some true
  else if s ∈ ["n", "N", "no", "No", "NO", "off", "Off", "OFF"] then some false
  else none

/-- A truth value, or the old one if the scalar stands for nothing. -/
def Scalar.toBool? (s : Scalar) (old : Bool) : Option Bool :=
  match s.meaning with
  | .null => some old
  | .bool b => some b
  | .text t => spokenBool? t
  | _ => none

/-- A 64-bit integer, or the old one if the scalar stands for nothing. Fractions are cut towards
    zero. -/
def Scalar.toInt? (s : Scalar) (old : Int) : Option Int :=
  match s.meaning with
  | .null => some old
  | .integer n => if n < Text.int64Bound then some n else none
  | .decimal x =>
    if x.mantissa < 0 ∨ (x.magnitude?.getD 0) ≤ Text.int64Bound then some x.toInt64 else none
  | .infinity true => some (-(Text.int64Bound : Int))
  | _ => none

/-- A text, or the old one if the scalar stands for nothing. -/
def Scalar.toText (s : Scalar) (old : String) : String :=
  match s.meaning with
  | .null => old
  | _ => s.text

/-! ## Writing -/

/-- Sixties separated by colons, which other readers take for numbers. -/
def isSexagesimal (s : String) : Bool :=
  let sixty (part : String) : Bool :=
    match part.toList with
    | [d] => d.isDigit
    | [t, d] => '0' ≤ t && t ≤ '5' && d.isDigit
    | _ => false
  let digits (cs : List Char) : Bool := cs.all fun c => c.isDigit || c = '_'
  let unsigned := match s.toList with
    | '-' :: rest | '+' :: rest => String.ofList rest
    | _ => s
  match unsigned.splitOn ":" with
  | first :: second :: rest =>
    let parts := second :: rest
    let last := parts.getLastD ""
    let (whole, fraction) := (last.toList.takeWhile (· != '.'), last.toList.dropWhile (· != '.'))
    (match first.toList with
      | d :: ds => d.isDigit && digits ds
      | [] => false) &&
    parts.dropLast.all sixty && sixty (String.ofList whole) && digits (fraction.drop 1)
  | _ => false

/-- Whether a text would not read back as itself if it were plain. -/
def isAmbiguous (s : String) : Bool :=
  plainMeaning s != .text s || (spokenBool? s).isSome || isSexagesimal s

/-- Whether the character separates words of a line. -/
def isBlank (c : Char) : Bool := c = ' ' || c = '\t'

/-- Whether a character can be written as it is. -/
def isShown (c : Char) : Bool :=
  let n := c.toNat
  n == 0x0a || (0x20 ≤ n && n ≤ 0x7e) || (0xa0 ≤ n && n ≤ 0xfffd && n != 0xfeff)

/-- Whether a plain scalar cannot start with these characters. -/
def startsWithIndicator : List Char → Bool
  | [] => false
  | c :: rest =>
    let alone := match rest with
      | [] => true
      | d :: _ => isBlank d
    "#,[]\x7b\x7d&*!|>'\"%@\x60".toList.contains c || ((c = '?' || c = ':' || c = '-') && alone)

/-- Whether a plain scalar ends before a character: at a colon before a blank or the end of the line,
    and at a number sign after a blank. -/
def endsPlainAt (afterBlank : Bool) (c : Char) (rest : List Char) : Bool :=
  let alone := match rest with
    | [] => true
    | d :: _ => isBlank d
  (c = ':' && alone) || (c = '#' && afterBlank)

/-- Whether a plain scalar ends before one of the characters. -/
def endsPlain : (afterBlank : Bool) → List Char → Bool
  | _, [] => false
  | afterBlank, c :: rest => endsPlainAt afterBlank c rest || endsPlain (isBlank c) rest

/-- Whether a text that is not ambiguous can be written plain. -/
def isPlain (s : String) : Bool :=
  let cs := s.toList
  !startsWithIndicator cs && !endsPlain true cs && cs.head? != some ' ' && cs.getLast? != some ' ' &&
    cs.all (fun c => isShown c && c != '\u2028' && c != '\u2029') && !s.startsWith "---" &&
    !s.startsWith "..."

/-- The digits of a number in upper case. -/
def hexUpper (count n : Nat) : List Char := (Text.hexDigits count n).map Char.toUpper

/-- How a character is written between double quotes. -/
def escape (c : Char) : List Char :=
  match c.toNat with
  | 0x00 => ['\\', '0']
  | 0x07 => ['\\', 'a']
  | 0x08 => ['\\', 'b']
  | 0x09 => ['\\', 't']
  | 0x0a => ['\\', 'n']
  | 0x0b => ['\\', 'v']
  | 0x0c => ['\\', 'f']
  | 0x0d => ['\\', 'r']
  | 0x1b => ['\\', 'e']
  | 0x22 => ['\\', '"']
  | 0x5c => ['\\', '\\']
  | 0x85 => ['\\', 'N']
  | 0x2028 => ['\\', 'L']
  | 0x2029 => ['\\', 'P']
  | n =>
    if isShown c then [c]
    else if n ≤ 0xff then '\\' :: 'x' :: hexUpper 2 n
    else if n ≤ 0xffff then '\\' :: 'u' :: hexUpper 4 n
    else '\\' :: 'U' :: hexUpper 8 n

/-- The text in double quotes, with escapes. -/
def doubleQuoted (s : String) : String := String.ofList ('"' :: s.toList.flatMap escape ++ ['"'])

/-- The text in single quotes, each of its own doubled. -/
def singleQuoted (s : String) : String :=
  String.ofList ('\'' :: s.toList.flatMap (fun c => if c = '\'' then ['\'', '\''] else [c]) ++ ['\''])

/-- Whether a space stands directly before a line break, or after the last one at the end. -/
def hasTrailingSpace (lines : List String) : Bool := lines.any fun l => l.endsWith " "

/-- Several lines below a bar, each after an indentation. The marks after the bar tell whether the
    text starts with a space or a break, and how it ends. -/
def literal (indent : Nat) (s : String) : String :=
  let lines := s.splitOn "\n"
  let start := match s.toList.head? with
    | some c => if c = ' ' || c = '\n' then "4" else ""
    | none => ""
  let ending :=
    if !s.endsWith "\n" then "-" else if s = "\n" || s.endsWith "\n\n" then "+" else ""
  let line (l : String) : String :=
    if l.isEmpty then l else String.ofList (List.replicate indent ' ') ++ l
  let lines := if s.endsWith "\n" then lines.dropLast else lines
  "|" ++ start ++ ending ++ "\n" ++ "\n".intercalate (lines.map line)

/-- A text as the value of a setting. -/
def writeText (indent : Nat) (s : String) : String :=
  if s.contains '\n' then
    if s.toList.all (fun c => isShown c || c = '\t') && !hasTrailingSpace (s.splitOn "\n") then
      literal indent s
    else doubleQuoted s
  else if isAmbiguous s then doubleQuoted s
  else if isPlain s then s
  else if s.toList.all isShown then singleQuoted s
  else doubleQuoted s

end RefineCheck.Config
