/-
  RefineCheck.Property.Token

  The tokens of a property text and how they are read. Positions are counted in bytes of
  the UTF-8 form, and a byte beyond ASCII is judged by the Latin-1 character it would be
  alone, so only some characters beyond ASCII may occur in names.
-/

import RefineCheck.Property
import RefineCheck.Text.Numeral

namespace RefineCheck

/-! ## Tokens -/

/-- What stands at one place of a property text. -/
inductive Lexeme
  | name (text : String)
  /-- A name directly followed by an exclamation mark. -/
  | invocation (text : String)
  | number (text : String) (value : Int)
  | exclamation
  | openParen
  | closeParen
  | openSquare
  | closeSquare
  | comma
  | and
  | or
  | comparison (c : Comparison)
deriving DecidableEq, Repr

/-- The kinds of tokens an error message can speak of. -/
inductive Lexeme.Kind
  | name | invocation | number | exclamation | openParen | closeParen | openSquare | closeSquare
  | comma | and | or | comparison
deriving DecidableEq, Repr

namespace Lexeme

/-- The kind of the lexeme. -/
def kind : Lexeme → Kind
  | .name _ => .name
  | .invocation _ => .invocation
  | .number _ _ => .number
  | .exclamation => .exclamation
  | .openParen => .openParen
  | .closeParen => .closeParen
  | .openSquare => .openSquare
  | .closeSquare => .closeSquare
  | .comma => .comma
  | .and => .and
  | .or => .or
  | .comparison _ => .comparison

/-- The kind as messages name it. -/
def Kind.text : Kind → String
  | .name => "identifier"
  | .invocation => "macro invocation"
  | .number => "number"
  | .exclamation => "'!'"
  | .openParen => "'('"
  | .closeParen => "')'"
  | .openSquare => "'['"
  | .closeSquare => "']'"
  | .comma => "','"
  | .and => "'&&'"
  | .or => "'||'"
  | .comparison => "comparison"

/-- The text of a token; the mark after the name of an invocation is not part of it. -/
def text : Lexeme → String
  | .name s | .invocation s | .number s _ => s
  | .exclamation => "!"
  | .openParen => "("
  | .closeParen => ")"
  | .openSquare => "["
  | .closeSquare => "]"
  | .comma => ","
  | .and => "&&"
  | .or => "||"
  | .comparison c => c.text

end Lexeme

/-- A token with the byte it starts at. -/
structure Token where
  lexeme : Lexeme
  offset : Nat
deriving DecidableEq, Repr

/-- Why a text has no tokens, with the byte it was found at. -/
inductive LexError
  | unexpected (offset : Nat) (byte : Char)
  | invalidNumber (offset : Nat) (text : String)
deriving DecidableEq, Repr

namespace Token

/-! ## Character classes -/

/-- Whether a byte may start a name: an underscore or a Latin-1 letter. -/
def startsName (b : Nat) : Bool :=
  b == 0x5f || (0x41 ≤ b && b ≤ 0x5a) || (0x61 ≤ b && b ≤ 0x7a) ||
    b == 0xaa || b == 0xb5 || b == 0xba ||
    (0xc0 ≤ b && b ≤ 0xff && b != 0xd7 && b != 0xf7)

/-- Whether the byte is an ASCII digit. -/
def isDigitByte (b : Nat) : Bool := 0x30 ≤ b && b ≤ 0x39

/-- Whether a byte may continue a name or a number. -/
def continuesName (b : Nat) : Bool := startsName b || isDigitByte b

/-- The bytes of a character. -/
def bytes (c : Char) : List Nat := (String.utf8EncodeChar c).map UInt8.toNat

/-- Whether all bytes of a character may continue a name. -/
def isWordChar (c : Char) : Bool := (bytes c).all continuesName

/-- Whether the character separates tokens. -/
def isBlank (c : Char) : Bool := c == ' ' || c == '\t' || c == '\n' || c == '\r'

/-- The bytes that would continue a name at the start of a character that cannot be part of one
    as a whole. -/
def straddling (cs : List Char) : List Nat :=
  match cs with
  | [] => []
  | c :: _ => (bytes c).takeWhile continuesName

/-- The number of bytes of a text. -/
def size (cs : List Char) : Nat := cs.foldl (fun n c => n + c.utf8Size) 0

/-! ## Reading -/

/-- The error for the first byte of a character that fits no token. The bytes before it, if there
    are any, were taken for the start of a name. -/
def unexpected (c : Char) (offset : Nat) : LexError :=
  let skipped := (bytes c).takeWhile continuesName
  let byte := ((bytes c).drop skipped.length).headD 0
  .unexpected (offset + skipped.length) (Char.ofNat byte)

/-- The punctuation at the start of a text, and what follows it. -/
def punctuation? : List Char → Option (Lexeme × List Char)
  | '&' :: '&' :: rest => some (.and, rest)
  | '|' :: '|' :: rest => some (.or, rest)
  | '=' :: '=' :: rest => some (.comparison .eq, rest)
  | '!' :: '=' :: rest => some (.comparison .ne, rest)
  | '<' :: '=' :: rest => some (.comparison .le, rest)
  | '>' :: '=' :: rest => some (.comparison .ge, rest)
  | '<' :: rest => some (.comparison .lt, rest)
  | '>' :: rest => some (.comparison .gt, rest)
  | '!' :: rest => some (.exclamation, rest)
  | '(' :: rest => some (.openParen, rest)
  | ')' :: rest => some (.closeParen, rest)
  | '[' :: rest => some (.openSquare, rest)
  | ']' :: rest => some (.closeSquare, rest)
  | ',' :: rest => some (.comma, rest)
  | _ => none

/-- Whether a text starts with a number: a digit, or a minus sign and a digit. -/
def startsNumber : List Char → Bool
  | '-' :: d :: _ => isDigitByte d.toNat
  | d :: _ => isDigitByte d.toNat
  | [] => false

/-- Whether the exclamation mark of an invocation comes next; one before an equals sign starts a
    comparison. -/
def startsInvocation : List Char → Bool
  | '!' :: '=' :: _ => false
  | '!' :: _ => true
  | _ => false

/-- Reads the number at the start of a text. A number token that ends inside a character is
    reported with a replacement character for each of its stray bytes. -/
def readNumber (offset : Nat) (first : Char) (rest : List Char) :
    Except LexError (Lexeme × List Char) :=
  let word := first :: rest.takeWhile isWordChar
  let after := rest.dropWhile isWordChar
  let stray := (straddling after).map fun _ => Char.ofNat 0xfffd
  match if stray.isEmpty then Text.intLiteral? word else none with
  | some value => .ok (.number (String.ofList word) value, after)
  | none => .error (.invalidNumber offset (String.ofList (word ++ stray)))

/-- Reads the token at the start of a nonempty text. -/
def read (offset : Nat) (c : Char) (rest : List Char) : Except LexError (Lexeme × List Char) :=
  if isWordChar c && !isDigitByte c.toNat then
    let word := String.ofList (c :: rest.takeWhile isWordChar)
    let after := rest.dropWhile isWordChar
    .ok (if startsInvocation after then (.invocation word, after.drop 1) else (.name word, after))
  else if startsNumber (c :: rest) then readNumber offset c rest
  else match punctuation? (c :: rest) with
    | some (lexeme, after) => .ok (lexeme, after)
    | none => .error (unexpected c offset)

theorem length_punctuation?_lt {cs after : List Char} {lexeme : Lexeme}
    (h : punctuation? cs = some (lexeme, after)) : after.length < cs.length := by
  rw [punctuation?.eq_def] at h
  split at h <;> cases h <;> simp only [List.length_cons] <;> omega

theorem length_readNumber_le {offset : Nat} {c : Char} {rest after : List Char} {lexeme : Lexeme}
    (h : readNumber offset c rest = .ok (lexeme, after)) : after.length ≤ rest.length := by
  rw [readNumber] at h
  split at h
  · obtain ⟨-, rfl⟩ := Prod.mk.inj (Except.ok.inj h)
    exact (List.dropWhile_sublist _).length_le
  · cases h

/-- Every token takes up at least one character. -/
theorem length_read_lt {offset : Nat} {c : Char} {rest after : List Char} {lexeme : Lexeme}
    (h : read offset c rest = .ok (lexeme, after)) : after.length < (c :: rest).length := by
  rw [read] at h
  split at h
  · have hword := (List.dropWhile_sublist isWordChar (l := rest)).length_le
    dsimp only at h
    split at h
    · obtain ⟨-, rfl⟩ := Prod.mk.inj (Except.ok.inj h)
      rw [List.length_drop, List.length_cons]
      omega
    · obtain ⟨-, rfl⟩ := Prod.mk.inj (Except.ok.inj h)
      exact Nat.lt_succ_of_le hword
  · split at h
    · exact Nat.lt_succ_of_le (length_readNumber_le h)
    · split at h
      · rename_i hpunctuation
        obtain ⟨rfl, rfl⟩ := Prod.mk.inj (Except.ok.inj h)
        exact length_punctuation?_lt hpunctuation
      · cases h

/-- Reads all tokens of a text that starts at a byte. -/
def readAll : (offset : Nat) → List Char → Except LexError (List Token)
  | _, [] => return []
  | offset, c :: rest =>
    if isBlank c then readAll (offset + 1) rest
    else
      match _h : read offset c rest with
      | .error e => .error e
      | .ok (lexeme, after) => do
        let taken := size (c :: rest) - size after
        return ⟨lexeme, offset⟩ :: (← readAll (offset + taken) after)
termination_by _ cs => cs.length
decreasing_by
  · exact Nat.lt_succ_self _
  · exact length_read_lt _h

theorem readAll_blank {offset : Nat} {c : Char} {rest : List Char} (h : isBlank c = true) :
    readAll offset (c :: rest) = readAll (offset + 1) rest := by
  rw [readAll, if_pos h]

/-- After a token the rest of the text is read. -/
theorem readAll_token {offset : Nat} {c : Char} {rest after : List Char} {lexeme : Lexeme}
    (hblank : isBlank c = false) (h : read offset c rest = .ok (lexeme, after)) :
    readAll offset (c :: rest) = do
      return ⟨lexeme, offset⟩ ::
        (← readAll (offset + (size (c :: rest) - size after)) after) := by
  rw [readAll, if_neg (by simp [hblank])]
  split
  · rename_i e he
    cases h.symm.trans he
  · rename_i hread
    obtain ⟨rfl, rfl⟩ := Prod.mk.inj (Except.ok.inj (h.symm.trans hread))
    rfl

/-- The tokens of a text. -/
def ofText (text : String) : Except LexError (List Token) := readAll 0 text.toList

end Token

end RefineCheck
