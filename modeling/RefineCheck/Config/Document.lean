/-
  RefineCheck.Config.Document

  Configuration documents: mappings from keys to scalars or to further mappings, one key on a
  line, with the entries of an inner mapping indented further than its key.
-/

import RefineCheck.Config.Scalar

namespace RefineCheck.Config

/-- A part of a document. -/
inductive Node
  | scalar (s : Scalar)
  | mapping (entries : List (Scalar × Node))

/-- The scalar of a key without a value. -/
def Scalar.nothing : Scalar := ⟨false, ""⟩

/-! ## Lines -/

/-- A line with a key. -/
structure Entry where
  indent : Nat
  key : Scalar
  value : Option Scalar

/-- Whether a document may hold a character. -/
def isAllowed (c : Char) : Bool :=
  let n := c.toNat
  n == 0x09 || n == 0x0d || n == 0x85 || isShown c || 0x10000 ≤ n

/-- The character that an escape with hexadecimal digits stands for. -/
def ofHex? (digits : List Char) : Option Char := do
  let n ← Text.ofDigits? 16 digits
  if n.isValidChar then some (Char.ofNat n) else none

/-- The number of hexadecimal digits after an escape letter. -/
def hexLength? : Char → Option Nat
  | 'x' => some 2
  | 'u' => some 4
  | 'U' => some 8
  | _ => none

/-- The character of a short escape. -/
def shortEscape? : Char → Option Char
  | '0' => some '\x00'
  | 'a' => some '\x07'
  | 'b' => some '\x08'
  | 't' | '\t' => some '\t'
  | 'n' => some '\n'
  | 'v' => some '\x0b'
  | 'f' => some '\x0c'
  | 'r' => some '\r'
  | 'e' => some '\x1b'
  | ' ' => some ' '
  | '"' => some '"'
  | '\'' => some '\''
  | '/' => some '/'
  | '\\' => some '\\'
  | 'N' => some '\u0085'
  | '_' => some '\u00a0'
  | 'L' => some '\u2028'
  | 'P' => some '\u2029'
  | _ => none

/-- The text up to the closing double quote, and what follows it. -/
def readDouble? (acc : List Char) : List Char → Option (String × List Char)
  | [] => none
  | '"' :: rest => some (String.ofList acc.reverse, rest)
  | '\\' :: e :: rest =>
    match shortEscape? e, hexLength? e with
    | some c, _ => readDouble? (c :: acc) rest
    | none, some n =>
      if rest.length < n then none
      else match ofHex? (rest.take n) with
        | some c => readDouble? (c :: acc) (rest.drop n)
        | none => none
    | none, none => none
  | c :: rest => if c = '\\' then none else readDouble? (c :: acc) rest
termination_by cs => cs.length
decreasing_by
  all_goals
    simp only [List.length_cons, List.length_drop]
    omega

/-- The text up to the closing apostrophe, and what follows it. -/
def readSingle? (acc : List Char) : List Char → Option (String × List Char)
  | [] => none
  | '\'' :: '\'' :: rest => readSingle? ('\'' :: acc) rest
  | '\'' :: rest => some (String.ofList acc.reverse, rest)
  | c :: rest => readSingle? (c :: acc) rest

/-- The characters of a plain scalar, up to a colon before a blank or a number sign after one. -/
def readPlain (afterBlank : Bool) : List Char → List Char × List Char
  | [] => ([], [])
  | c :: rest =>
    if endsPlainAt afterBlank c rest then ([], c :: rest)
    else
      let (text, rest) := readPlain (isBlank c) rest
      (c :: text, rest)

/-- A text without the blanks at its end. -/
def trimEnd (cs : List Char) : List Char := (cs.reverse.dropWhile isBlank).reverse

/-- The scalar at the start of a text, and what follows it and the blanks after it. -/
def readScalar? (cs : List Char) : Option (Scalar × List Char) :=
  match cs with
  | '"' :: rest => (readDouble? [] rest).map fun (s, rest) => (⟨true, s⟩, rest.dropWhile isBlank)
  | '\'' :: rest => (readSingle? [] rest).map fun (s, rest) => (⟨true, s⟩, rest.dropWhile isBlank)
  | cs =>
    if startsWithIndicator cs then none
    else
      let (text, rest) := readPlain false cs
      some (⟨false, String.ofList (trimEnd text)⟩, rest)

/-- Whether nothing but a comment is left of a line. -/
def isFinished (cs : List Char) : Bool := cs.isEmpty || cs.head? == some '#'

/-- The key of a line and what follows its colon and the blanks after it. -/
def readKey? (cs : List Char) : Option (Scalar × List Char) :=
  match readScalar? cs with
  | some (key, ':' :: rest) =>
    match rest with
    | [] => some (key, [])
    | c :: _ => if isBlank c then some (key, rest.dropWhile isBlank) else none
  | _ => none

/-- The text of lines below a bar. The marks after the bar say how much they are indented and what
    becomes of the breaks at the end. -/
def readLiteral? (parent : Nat) (marks : List Char) (lines : List (List Char)) : Option Scalar := do
  let marks := trimEnd marks
  let explicit := (marks.find? Char.isDigit).map fun c => parent + (c.toNat - 48)
  let spaces (l : List Char) : Nat := (l.takeWhile (· = ' ')).length
  let isEmpty (l : List Char) : Bool := spaces l == l.length
  let found := ((lines.find? fun l => !isEmpty l).map spaces).getD (parent + 1)
  let indent := explicit.getD (max found (parent + 1))
  if !marks.all (fun c => c.isDigit || c = '-' || c = '+') || 2 < marks.length then none
  let lines := lines.map fun l => String.ofList (l.drop indent)
  let kept := (lines.reverse.dropWhile String.isEmpty).reverse
  let body := "\n".intercalate kept
  let ending :=
    if marks.contains '-' then ""
    else if marks.contains '+' then String.ofList (List.replicate (lines.length - kept.length) '\n')
    else ""
  let break1 := if marks.contains '-' || kept.isEmpty then "" else "\n"
  return ⟨true, body ++ break1 ++ ending⟩

/-- The lines with keys. Empty lines and comments are skipped, a tab cannot indent a line, and the
    text of a key with a bar is taken from the lines that are indented further. -/
def readEntries? : List (List Char) → Option (List Entry)
  | [] => some []
  | line :: lines =>
    let indent := (line.takeWhile (· = ' ')).length
    let cs := line.drop indent
    if isFinished cs then readEntries? lines
    else if cs.head? = some '\t' then none
    else match readKey? cs with
      | none => none
      | some (key, '|' :: marks) =>
        let inner (l : List Char) : Bool :=
          let spaces := (l.takeWhile (· = ' ')).length
          spaces == l.length || indent < spaces
        match readLiteral? indent marks (lines.takeWhile inner), readEntries? (lines.dropWhile inner) with
        | some value, some entries => some (⟨indent, key, some value⟩ :: entries)
        | _, _ => none
      | some (key, rest) =>
        if isFinished rest then (readEntries? lines).map (⟨indent, key, none⟩ :: ·)
        else match readScalar? rest with
          | some (value, rest) =>
            if isFinished rest then (readEntries? lines).map (⟨indent, key, some value⟩ :: ·) else none
          | none => none
termination_by lines => lines.length
decreasing_by
  · exact Nat.lt_succ_self _
  · exact Nat.lt_succ_of_le (List.dropWhile_sublist _).length_le
  · exact Nat.lt_succ_self _
  · exact Nat.lt_succ_self _

/-! ## Mappings -/

/-- The mapping that entries at an indentation form with those indented further. -/
def ofEntries? (indent : Nat) : List Entry → Option (List (Scalar × Node))
  | [] => some []
  | e :: rest => do
    if e.indent ≠ indent then none
    let inner := rest.takeWhile fun d => indent < d.indent
    let node ← match e.value, inner with
      | some value, [] => some (Node.scalar value)
      | none, [] => some (Node.scalar .nothing)
      | none, d :: _ => (ofEntries? d.indent inner).map Node.mapping
      | some _, _ :: _ => none
    return (e.key, node) :: (← ofEntries? indent (rest.dropWhile fun d => indent < d.indent))
termination_by entries => entries.length
decreasing_by
  · simp only [List.length_cons]
    exact Nat.lt_succ_of_le (List.dropWhile_sublist _).length_le
  · simp only [List.length_cons]
    exact Nat.lt_succ_of_le (List.takeWhile_sublist _).length_le

/-- The lines of a text; each of the common line breaks ends one. -/
def linesOf (text : String) : List (List Char) :=
  let text := (text.replace "\r\n" "\n").map fun c => if c = '\r' then '\n' else c
  (text.splitOn "\n").map String.toList

/-- Whether a line is the mark before or after a document. -/
def isMark (line : List Char) : Bool :=
  let mark := line.take 3
  (mark = ['-', '-', '-'] || mark = ['.', '.', '.']) && (trimEnd (line.drop 3)).isEmpty

/-- The lines of the first document of a text. -/
def documentLines (lines : List (List Char)) : List (List Char) :=
  let isBare (l : List Char) : Bool := isFinished (l.dropWhile (· = ' '))
  let body := match lines.dropWhile isBare with
    | first :: rest => if isMark first then rest else first :: rest
    | [] => []
  body.takeWhile fun l => !isMark l

/-- The document a text writes. A text without entries is an empty document. -/
def Node.ofText? (text : String) : Option (List (Scalar × Node)) := do
  if !text.toList.all isAllowed then none
  let entries ← readEntries? (documentLines (linesOf text))
  match entries with
  | [] => some []
  | e :: _ => ofEntries? e.indent entries

end RefineCheck.Config
