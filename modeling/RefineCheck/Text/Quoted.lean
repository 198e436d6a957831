/-
  RefineCheck.Text.Quoted

  Quoted text as it appears in messages: a delimiter on both sides, short
  escapes for the common control characters, hexadecimal escapes for other
  characters that cannot be shown.
-/

import RefineCheck.Text.Printable

namespace RefineCheck.Text

/-! ## Hexadecimal digits -/

/-- One lower-case hexadecimal digit. -/
def hexDigit (n : Nat) : Char :=
  if n < 10 then Char.ofNat (n + 48) else Char.ofNat (n - 10 + 97)

/-- The lowest `count` hexadecimal digits of a number, the most significant first. -/
def hexDigits : (count n : Nat) → List Char
  | 0, _ => []
  | count + 1, n => hexDigits count (n / 16) ++ [hexDigit (n % 16)]

/-- A number with the `0x` mark and no leading zero. -/
def hexText (n : Nat) : String :=
  String.ofList ('0' :: 'x' :: hexDigits (Nat.log2 n / 4 + 1) n)

/-! ## Quoting -/

/-- How a character is written between two delimiters. -/
def escape (delimiter c : Char) : List Char :=
  if c = delimiter ∨ c = '\\' then ['\\', c]
  else if isPrintable c then [c]
  else match c.toNat with
    | 7 => ['\\', 'a']
    | 8 => ['\\', 'b']
    | 12 => ['\\', 'f']
    | 10 => ['\\', 'n']
    | 13 => ['\\', 'r']
    | 9 => ['\\', 't']
    | 11 => ['\\', 'v']
    | n =>
      if n < 0x80 then '\\' :: 'x' :: hexDigits 2 n
      else if n < 0x10000 then '\\' :: 'u' :: hexDigits 4 n
      else '\\' :: 'U' :: hexDigits 8 n

/-- Text between double quotes. -/
def quote (s : String) : String :=
  String.ofList ('"' :: s.toList.flatMap (escape '"') ++ ['"'])

/-- A single character between apostrophes. -/
def quoteChar (c : Char) : String :=
  String.ofList ('\'' :: escape '\'' c ++ ['\''])

end RefineCheck.Text
