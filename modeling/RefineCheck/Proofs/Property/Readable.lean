/-
  RefineCheck.Proofs.Property.Readable

  The text of a property determines it. The text is read back character by character with
  one character of lookahead behind each word, which tells variables, atomic properties and
  operators apart; unlike the parser, the reader accepts generated names.
-/

import Mathlib
import RefineCheck.Proofs.Semantics.Normal

namespace RefineCheck.Property

/-! ## Words and numerals -/

/-- A nonempty text of characters that may continue a name. -/
def IsWord (s : String) : Prop := s.toList ≠ [] ∧ ∀ c ∈ s.toList, Token.isWordChar c = true

theorem isWord_of_all {s : String}
    (h : (!s.toList.isEmpty && s.toList.all Token.isWordChar) = true) : IsWord s := by
  rw [Bool.and_eq_true, Bool.not_eq_true', List.isEmpty_eq_false_iff, List.all_eq_true] at h
  exact h

/-- The names of a property whose text can be read back. -/
abbrev WellNamed (p : Property) : Prop :=
  p.Uses (fun a => IsWord a.name) IsWord (fun x => IsWord x ∧ x ≠ "true" ∧ x ≠ "false")

/-- Whether a character may occur in a decimal number. -/
def isNumeralChar (c : Char) : Bool := c.isDigit || c == '-'

/-- Takes the longest start of characters of a class off a text. -/
theorem span_append {p : Char → Bool} {cs r : List Char} (h : ∀ c ∈ cs, p c = true)
    (hr : ∀ c ∈ r.head?, p c = false) :
    (cs ++ r).takeWhile p = cs ∧ (cs ++ r).dropWhile p = r := by
  have hstop : r.takeWhile p = [] ∧ r.dropWhile p = r := by
    cases r with
    | nil => exact ⟨rfl, rfl⟩
    | cons c r =>
      have := hr c rfl
      rw [List.takeWhile_cons, List.dropWhile_cons, this]
      exact ⟨rfl, rfl⟩
  rw [List.takeWhile_append_of_pos h, List.dropWhile_append_of_pos h, hstop.1, hstop.2,
    List.append_nil]
  exact ⟨rfl, rfl⟩

theorem isWordChar_of_isDigit {c : Char} (h : c.isDigit = true) :
    Token.isWordChar c = true ∧ Token.isDigitByte c.toNat = true := by
  have hall : ∀ n ∈ List.range' 48 10,
      Token.isWordChar (Char.ofNat n) = true ∧ Token.isDigitByte n = true := by decide
  have hc := hall c.toNat (by
    simp only [Char.isDigit, Bool.and_eq_true, decide_eq_true_eq] at h
    have h1 : 48 ≤ c.toNat := h.1
    have h2 : c.toNat ≤ 57 := h.2
    rw [List.mem_range'_1]
    omega)
  rwa [Char.ofNat_toNat] at hc

theorem isNumeralChar_of_mem_nat {n : Nat} {c : Char} (h : c ∈ (toString n).toList) :
    isNumeralChar c = true := by
  rw [Nat.toString_eq_repr, Nat.toList_repr] at h
  rw [isNumeralChar, Nat.isDigit_of_mem_toDigits (by decide) (by decide) h]
  rfl

theorem isNumeralChar_of_mem_int {n : Int} {c : Char} (h : c ∈ (toString n).toList) :
    isNumeralChar c = true := by
  rw [Int.toString_eq_repr, Int.repr_eq_if] at h
  split at h
  · exact isNumeralChar_of_mem_nat (by rwa [Nat.toString_eq_repr])
  · rw [String.toList_append, List.mem_append] at h
    rcases h with h | h
    · obtain rfl : c = '-' := by simpa using h
      rfl
    · exact isNumeralChar_of_mem_nat (by rwa [Nat.toString_eq_repr])

/-! ## Reading atomic properties -/

/-- An optional index in square brackets. -/
def readIndex (cs : List Char) : Option Nat × List Char :=
  if cs.take 1 = ['['] then
    ((String.ofList ((cs.drop 1).takeWhile isNumeralChar)).toNat?,
      ((cs.drop 1).dropWhile isNumeralChar).drop 1)
  else (none, cs)

/-- Reads a comparison between its two blanks. -/
def readComparison (cs : List Char) : Option (Comparison × List Char) :=
  ([.eq, .ne, .lt, .le, .gt, .ge].find? fun c =>
    (' ' :: c.text.toList ++ [' ']).isPrefixOf cs).map fun c =>
      (c, cs.drop (c.text.length + 2))

/-- A comparison with a constant. -/
def readRelation (cs : List Char) : Option ((Comparison × Int) × List Char) := do
  let (c, cs) ← readComparison cs
  let n ← (String.ofList (cs.takeWhile isNumeralChar)).toInt?
  return ((c, n), cs.dropWhile isNumeralChar)

theorem readComparison_append (c : Comparison) (r : List Char) :
    readComparison (' ' :: c.text.toList ++ ' ' :: r) = some (c, r) := by
  cases c <;> rfl

theorem readRelation_append (c : Comparison) (n : Int) {r : List Char}
    (hr : ∀ d ∈ r.head?, isNumeralChar d = false) :
    readRelation (' ' :: c.text.toList ++ ' ' :: (toString n).toList ++ r) = some ((c, n), r) := by
  obtain ⟨ht, hd⟩ := span_append (fun _ => isNumeralChar_of_mem_int (n := n)) hr
  have e : ' ' :: c.text.toList ++ ' ' :: (toString n).toList ++ r =
      ' ' :: c.text.toList ++ ' ' :: ((toString n).toList ++ r) := by simp
  have hn : (toString n).toInt? = some n := Int.toInt?_repr n
  simp only [readRelation, e, readComparison_append, Option.bind_eq_bind, Option.bind_some, ht, hd,
    String.ofList_toList, hn]
  rfl

/-- The text of an index. -/
def indexText (index : Option Nat) : List Char :=
  match index with
  | some i => '[' :: (toString i).toList ++ [']']
  | none => []

theorem readIndex_append (index : Option Nat) {r : List Char} (hr : r.take 1 ≠ ['[']) :
    readIndex (indexText index ++ r) = (index, r) := by
  cases index with
  | none => exact if_neg hr
  | some i =>
    have hi : ∀ c ∈ (toString i).toList, isNumeralChar c = true := fun _ => isNumeralChar_of_mem_nat
    obtain ⟨ht, hd⟩ := span_append hi (r := ']' :: r) (by simp [isNumeralChar])
    have e : indexText (some i) ++ r = '[' :: ((toString i).toList ++ ']' :: r) := by
      simp [indexText]
    have hn : (toString i).toNat? = some i := Nat.toNat?_repr i
    simp only [e, readIndex, List.take_succ_cons, List.take_zero, if_true, List.drop_succ_cons,
      List.drop_zero, ht, hd, String.ofList_toList, hn]

/-! ## Reading properties -/

mutual

/-- A property that is not a connective, or one in parentheses. -/
def readUnit : (fuel : Nat) → List Char → Option (Property × List Char)
  | 0, _ => none
  | fuel + 1, cs =>
    if cs.take 2 = ['!', '('] then do
      let (p, cs) ← readProperty fuel (cs.drop 2)
      return (.not p, cs.drop 1)
    else if cs.take 1 = ['('] then do
      let (p, cs) ← readProperty fuel (cs.drop 1)
      return (p, cs.drop 1)
    else
      readWord fuel (String.ofList (cs.takeWhile Token.isWordChar)) (cs.dropWhile Token.isWordChar)

/-- What follows a word decides what the word is. -/
def readWord : (fuel : Nat) → (word : String) → List Char → Option (Property × List Char)
  | 0, _, _ => none
  | fuel + 1, word, cs =>
    if cs.take 2 = ['!', '['] then
      match Parser.extremum? word, Parser.operator? word with
      | some kind, _ => do
        let name := String.ofList ((cs.drop 2).takeWhile Token.isWordChar)
        let (p, cs) ← readProperty fuel (((cs.drop 2).dropWhile Token.isWordChar).drop 2)
        return (.fix kind name p, cs.drop 1)
      | none, some (.unary build) => do
        let (p, cs) ← readProperty fuel (cs.drop 2)
        return (build p, cs.drop 1)
      | none, some (.binary build) => do
        let (p, cs) ← readProperty fuel (cs.drop 2)
        let (q, cs) ← readProperty fuel (cs.drop 2)
        return (build p q, cs.drop 1)
      | none, none => none
    else if cs.take 1 = ['('] then do
      let name := String.ofList ((cs.drop 1).takeWhile Token.isWordChar)
      let element := readIndex ((cs.drop 1).dropWhile Token.isWordChar)
      let ((c, n), cs) ← readRelation (element.2.drop 1)
      return (.atom ⟨name, element.1, Parser.forcedBy word, c, n⟩, cs)
    else
      match readRelation (readIndex cs).2 with
      | some ((c, n), rest) => some (.atom ⟨word, (readIndex cs).1, .signless, c, n⟩, rest)
      | none =>
        some (if word = "true" then .const true
          else if word = "false" then .const false else .var word, cs)

/-- A property up to the end of the operand it is. -/
def readProperty : (fuel : Nat) → List Char → Option (Property × List Char)
  | 0, _ => none
  | fuel + 1, cs => do
    let (p, cs) ← readUnit fuel cs
    if cs.take 4 = " && ".toList then do
      let (q, cs) ← readUnit fuel (cs.drop 4)
      return (.and p q, cs)
    else if cs.take 4 = " || ".toList then do
      let (q, cs) ← readUnit fuel (cs.drop 4)
      return (.or p q, cs)
    else return (p, cs)

end

/-- What may follow a whole operand. -/
inductive Ends : List Char → Prop
  | nil : Ends []
  | paren (r : List Char) : Ends (')' :: r)
  | square (r : List Char) : Ends (']' :: r)
  | comma (r : List Char) : Ends (',' :: r)

/-- What may follow an operand of a connective. -/
inductive EndsUnit : List Char → Prop
  | ends {r : List Char} : Ends r → EndsUnit r
  | and (r : List Char) : EndsUnit (" && ".toList ++ r)
  | or (r : List Char) : EndsUnit (" || ".toList ++ r)

/-- No word, number, index, comparison or operator goes on where an operand ends. -/
theorem EndsUnit.stops {r : List Char} (h : EndsUnit r) :
    (∀ c ∈ r.head?, Token.isWordChar c = false) ∧ (∀ c ∈ r.head?, isNumeralChar c = false) ∧
      r.take 1 ≠ ['['] ∧ r.take 1 ≠ ['('] ∧ r.take 2 ≠ ['!', '['] ∧ readRelation r = none := by
  have key {c : Char} {r : List Char} (hw : Token.isWordChar c = false)
      (hn : isNumeralChar c = false) (h1 : c ≠ '[') (h2 : c ≠ '(') (h3 : c ≠ '!')
      (h4 : readRelation (c :: r) = none) :
      (∀ d ∈ (c :: r).head?, Token.isWordChar d = false) ∧
        (∀ d ∈ (c :: r).head?, isNumeralChar d = false) ∧ (c :: r).take 1 ≠ ['['] ∧
        (c :: r).take 1 ≠ ['('] ∧ (c :: r).take 2 ≠ ['!', '['] ∧ readRelation (c :: r) = none := by
    refine ⟨?_, ?_, ?_, ?_, ?_, h4⟩
    · rintro d ⟨⟩
      exact hw
    · rintro d ⟨⟩
      exact hn
    · simpa using h1
    · simpa using h2
    · simp [h3]
  cases h with
  | ends h =>
    cases h with
    | nil => exact ⟨by simp, by simp, by simp, by simp, by simp, rfl⟩
    | paren r => exact key rfl rfl (by decide) (by decide) (by decide) rfl
    | square r => exact key rfl rfl (by decide) (by decide) (by decide) rfl
    | comma r => exact key rfl rfl (by decide) (by decide) (by decide) rfl
  | and r => exact key rfl rfl (by decide) (by decide) (by decide) rfl
  | or r => exact key rfl rfl (by decide) (by decide) (by decide) rfl

/-- A text that starts with a word is read as that word and what follows. -/
theorem readUnit_word {w : String} (hw : IsWord w) {r : List Char}
    (hr : ∀ c ∈ r.head?, Token.isWordChar c = false) (k : Nat) :
    readUnit (k + 1) (w.toList ++ r) = readWord k w r := by
  obtain ⟨ht, hd⟩ := span_append hw.2 hr
  cases hcs : w.toList with
  | nil => exact absurd hcs hw.1
  | cons c cs =>
    have hc : Token.isWordChar c = true := hw.2 c (by rw [hcs]; exact List.mem_cons_self)
    have h1 : c ≠ '!' := by
      rintro rfl
      exact absurd hc (by decide)
    have h2 : c ≠ '(' := by
      rintro rfl
      exact absurd hc (by decide)
    rw [hcs] at ht hd
    rw [readUnit, if_neg (by simp [h1]), if_neg (by simpa using h2), ht, hd, ← hcs,
      String.ofList_toList]

/-- With enough fuel the text of a property is read back, alone and as an operand of a connective,
    whatever follows its end. -/
def Reads (p : Property) : Prop :=
  ∃ n, ∀ k ≥ n,
    (∀ r, EndsUnit r → readUnit k ((bracket p.isConnective p.text).toList ++ r) = some (p, r)) ∧
      ∀ r, Ends r → readProperty k (p.text.toList ++ r) = some (p, r)

theorem reads_of_unit {p : Property} (hp : p.isConnective = false)
    (h : ∃ n, ∀ k ≥ n, ∀ r, EndsUnit r → readUnit k (p.text.toList ++ r) = some (p, r)) :
    Reads p := by
  obtain ⟨n, hn⟩ := h
  refine ⟨n + 1, fun k hk => ⟨fun r hr => ?_, fun r hr => ?_⟩⟩
  · rw [hp]
    exact hn k (by omega) r hr
  · obtain ⟨k, rfl⟩ : ∃ j, k = j + 1 := ⟨k - 1, by omega⟩
    rw [readProperty, hn k (by omega) r (.ends hr)]
    cases hr <;> rfl

theorem reads_of_connective {p : Property} (hp : p.isConnective = true)
    (h : ∃ n, ∀ k ≥ n, ∀ r, Ends r → readProperty k (p.text.toList ++ r) = some (p, r)) :
    Reads p := by
  obtain ⟨n, hn⟩ := h
  refine ⟨n + 1, fun k hk => ⟨fun r _ => ?_, fun r hr => hn k (by omega) r hr⟩⟩
  obtain ⟨k, rfl⟩ : ∃ j, k = j + 1 := ⟨k - 1, by omega⟩
  have e : (bracket p.isConnective p.text).toList ++ r = '(' :: (p.text.toList ++ ')' :: r) := by
    rw [hp]
    simp [bracket, String.toList_append]
  rw [e, readUnit, if_neg (by simp), if_pos (by simp)]
  simp only [List.drop_succ_cons, List.drop_zero, hn k (by omega) _ (.paren r),
    Option.bind_eq_bind, Option.bind_some]
  rfl

/-- A connective with the sign between its operands. -/
theorem reads_connective {p q : Property} {sign : String} {build : Property → Property → Property}
    (hp : Reads p) (hq : Reads q) (hc : (build p q).isConnective = true)
    (htext : (build p q).text =
      bracket p.isConnective p.text ++ sign ++ bracket q.isConnective q.text)
    (hsign : ∀ r, EndsUnit (sign.toList ++ r))
    (hread : ∀ k r r', readUnit k r = some (p, sign.toList ++ r') →
      readProperty (k + 1) r = (readUnit k r').bind fun x => some (build p x.1, x.2)) :
    Reads (build p q) := by
  apply reads_of_connective hc
  obtain ⟨m, hm⟩ := hp
  obtain ⟨n, hn⟩ := hq
  refine ⟨m + n + 1, fun k hk r hr => ?_⟩
  obtain ⟨k, rfl⟩ : ∃ j, k = j + 1 := ⟨k - 1, by omega⟩
  have e : (build p q).text.toList ++ r = (bracket p.isConnective p.text).toList ++
      (sign.toList ++ ((bracket q.isConnective q.text).toList ++ r)) := by
    rw [htext]
    simp [String.toList_append]
  rw [e]
  have h1 := (hm k (by omega)).1 _ (hsign ((bracket q.isConnective q.text).toList ++ r))
  have h2 := (hn k (by omega)).1 r (.ends hr)
  rw [hread k _ _ h1, h2]
  rfl

theorem reads_and {p q : Property} (hp : Reads p) (hq : Reads q) : Reads (.and p q) := by
  refine reads_connective hp hq rfl rfl .and fun k r r' h => ?_
  rw [readProperty, h]
  simp only [Option.bind_eq_bind, Option.bind_some]
  rw [if_pos (by simp)]
  rfl

theorem reads_or {p q : Property} (hp : Reads p) (hq : Reads q) : Reads (.or p q) := by
  refine reads_connective hp hq rfl rfl .or fun k r r' h => ?_
  rw [readProperty, h]
  simp only [Option.bind_eq_bind, Option.bind_some]
  rw [if_neg (by simp), if_pos (by simp)]
  rfl

/-- An operator with one operand. -/
theorem reads_unary {p c : Property} {w : String} {build : Property → Property} (hp : Reads p)
    (hw : IsWord w) (hx : Parser.extremum? w = none)
    (hop : Parser.operator? w = some (.unary build)) (hc : c.isConnective = false)
    (hbuild : build p = c) (htext : c.text = w ++ "![" ++ p.text ++ "]") : Reads c := by
  apply reads_of_unit hc
  obtain ⟨n, hn⟩ := hp
  refine ⟨n + 2, fun k hk r _ => ?_⟩
  obtain ⟨k, rfl⟩ : ∃ j, k = j + 2 := ⟨k - 2, by omega⟩
  have e : c.text.toList ++ r = w.toList ++ '!' :: '[' :: (p.text.toList ++ ']' :: r) := by
    rw [htext]
    simp [String.toList_append]
  rw [e, readUnit_word hw (by simp; decide), readWord, if_pos (by simp), hx, hop]
  simp only [List.drop_succ_cons, List.drop_zero, (hn k (by omega)).2 _ (.square r),
    Option.bind_eq_bind, Option.bind_some, hbuild]
  rfl

/-- An operator with two operands. -/
theorem reads_binary {p q c : Property} {w : String} {build : Property → Property → Property}
    (hp : Reads p) (hq : Reads q) (hw : IsWord w) (hx : Parser.extremum? w = none)
    (hop : Parser.operator? w = some (.binary build)) (hc : c.isConnective = false)
    (hbuild : build p q = c) (htext : c.text = w ++ "![" ++ p.text ++ ", " ++ q.text ++ "]") :
    Reads c := by
  apply reads_of_unit hc
  obtain ⟨m, hm⟩ := hp
  obtain ⟨n, hn⟩ := hq
  refine ⟨m + n + 2, fun k hk r _ => ?_⟩
  obtain ⟨k, rfl⟩ : ∃ j, k = j + 2 := ⟨k - 2, by omega⟩
  have e : c.text.toList ++ r =
      w.toList ++ '!' :: '[' :: (p.text.toList ++ ',' :: ' ' :: (q.text.toList ++ ']' :: r)) := by
    rw [htext]
    simp [String.toList_append]
  rw [e, readUnit_word hw (by simp; decide), readWord, if_pos (by simp), hx, hop]
  simp only [List.drop_succ_cons, List.drop_zero, (hm k (by omega)).2 _ (.comma _),
    (hn k (by omega)).2 _ (.square r), Option.bind_eq_bind, Option.bind_some, hbuild]
  rfl

theorem reads_fix {kind : Extremum} {x : String} {p : Property} (hx : IsWord x) (hp : Reads p) :
    Reads (.fix kind x p) := by
  apply reads_of_unit rfl
  obtain ⟨n, hn⟩ := hp
  refine ⟨n + 2, fun k hk r _ => ?_⟩
  obtain ⟨k, rfl⟩ : ∃ j, k = j + 2 := ⟨k - 2, by omega⟩
  have e : (Property.fix kind x p).text.toList ++ r =
      kind.text.toList ++ '!' :: '[' :: (x.toList ++ ',' :: ' ' :: (p.text.toList ++ ']' :: r)) := by
    simp [text, String.toList_append]
  obtain ⟨ht, hd⟩ := span_append (r := ',' :: ' ' :: (p.text.toList ++ ']' :: r)) hx.2
    (by simp; decide)
  have hk : IsWord kind.text := by
    cases kind
    · exact isWord_of_all rfl
    · exact isWord_of_all rfl
  have hkind : Parser.extremum? kind.text = some kind := by cases kind <;> rfl
  rw [e, readUnit_word hk (by simp; decide), readWord, if_pos (by simp), hkind]
  simp only [List.drop_succ_cons, List.drop_zero, ht, hd, (hn k (by omega)).2 _ (.square r),
    Option.bind_eq_bind, Option.bind_some, String.ofList_toList]
  rfl

theorem reads_not {p : Property} (hp : Reads p) : Reads (.not p) := by
  apply reads_of_unit rfl
  obtain ⟨n, hn⟩ := hp
  refine ⟨n + 1, fun k hk r _ => ?_⟩
  obtain ⟨k, rfl⟩ : ∃ j, k = j + 1 := ⟨k - 1, by omega⟩
  have e : (Property.not p).text.toList ++ r = '!' :: '(' :: (p.text.toList ++ ')' :: r) := by
    simp [text, String.toList_append]
  rw [e, readUnit, if_pos (by simp)]
  simp only [List.drop_succ_cons, List.drop_zero, (hn k (by omega)).2 _ (.paren r),
    Option.bind_eq_bind, Option.bind_some]
  rfl

/-- A word that no relation and no operator follows is a constant or a variable. -/
theorem readUnit_plain {w : String} (hw : IsWord w) {r : List Char} (hr : EndsUnit r) (k : Nat) :
    readUnit (k + 2) (w.toList ++ r) =
      some (if w = "true" then .const true else if w = "false" then .const false else .var w, r) := by
  obtain ⟨hword, -, hindex, hparen, hcall, hrel⟩ := hr.stops
  have hi : readIndex r = (none, r) := if_neg hindex
  rw [readUnit_word hw hword, readWord, if_neg hcall, if_neg hparen, hi, hrel]

theorem reads_const (value : Bool) : Reads (.const value) := by
  refine reads_of_unit rfl ⟨2, fun k hk r hr => ?_⟩
  obtain ⟨k, rfl⟩ : ∃ j, k = j + 2 := ⟨k - 2, by omega⟩
  cases value
  · exact readUnit_plain (w := "false") (isWord_of_all rfl) hr k
  · exact readUnit_plain (w := "true") (isWord_of_all rfl) hr k

theorem reads_var {x : String} (hx : IsWord x) (h1 : x ≠ "true") (h2 : x ≠ "false") :
    Reads (.var x) := by
  refine reads_of_unit rfl ⟨2, fun k hk r hr => ?_⟩
  obtain ⟨k, rfl⟩ : ∃ j, k = j + 2 := ⟨k - 2, by omega⟩
  have := readUnit_plain hx hr k
  rwa [if_neg h1, if_neg h2] at this

theorem Atomic.toList_text (a : Atomic) :
    a.text.toList =
      (match a.forced with
        | .signless => a.name.toList ++ indexText a.index
        | .signed => "as_signed".toList ++ '(' :: (a.name.toList ++ indexText a.index ++ [')'])
        | .unsigned => "as_unsigned".toList ++ '(' :: (a.name.toList ++ indexText a.index ++ [')'])) ++
      (' ' :: a.comparison.text.toList ++ ' ' :: (toString a.constant).toList) := by
  obtain ⟨name, index, forced, comparison, constant⟩ := a
  have h (t : String) : (toString t : String) = t := rfl
  cases forced <;> cases index <;>
    simp [Atomic.text, indexText, String.toList_append, h]

/-- A name is followed by an index or by what comes after it, never by a part of the name. -/
theorem indexText_stops (index : Option Nat) {c : Char} {r : List Char}
    (hc : Token.isWordChar c = false) :
    ∀ d ∈ (indexText index ++ c :: r).head?, Token.isWordChar d = false := by
  cases index with
  | none =>
    rintro d ⟨⟩
    exact hc
  | some i =>
    rintro d ⟨⟩
    rfl

section Comparison

variable {name : String} {index : Option Nat} {comparison : Comparison} {constant : Int}
  {r : List Char}

/-- A comparison whose signedness is forced is read through the parentheses around the name. -/
theorem readUnit_forced (ha : IsWord name) (hr : EndsUnit r) {w : String} (hw : IsWord w) (k : Nat) :
    readUnit (k + 2) (w.toList ++ '(' :: (name.toList ++ indexText index ++ [')']) ++
      (' ' :: comparison.text.toList ++ ' ' :: (toString constant).toList) ++ r) =
      some (.atom ⟨name, index, Parser.forcedBy w, comparison, constant⟩, r) := by
  obtain ⟨-, hnum, -⟩ := hr.stops
  have hrel := readRelation_append comparison constant hnum
  have e : w.toList ++ '(' :: (name.toList ++ indexText index ++ [')']) ++
      (' ' :: comparison.text.toList ++ ' ' :: (toString constant).toList) ++ r =
      w.toList ++ '(' :: (name.toList ++ (indexText index ++ ')' ::
        (' ' :: comparison.text.toList ++ ' ' :: (toString constant).toList ++ r))) := by
    simp
  obtain ⟨ht, hd⟩ := span_append ha.2 (indexText_stops index (c := ')')
    (r := ' ' :: comparison.text.toList ++ ' ' :: (toString constant).toList ++ r) rfl)
  have hi := readIndex_append index (r := ')' :: (' ' :: comparison.text.toList ++
    ' ' :: (toString constant).toList ++ r)) (by simp)
  rw [e, readUnit_word hw (by simp; decide), readWord, if_neg (by simp), if_pos (by simp)]
  simp only [List.drop_succ_cons, List.drop_zero, ht, hd]
  rw [hi]
  simp only [List.drop_succ_cons, List.drop_zero, hrel, String.ofList_toList,
    Option.bind_eq_bind, Option.bind_some]
  rfl

/-- Any other comparison starts with the name, which is neither called nor taken for an
    operator. -/
theorem readUnit_signless (ha : IsWord name) (hr : EndsUnit r) (k : Nat) :
    readUnit (k + 2) (name.toList ++ indexText index ++
      (' ' :: comparison.text.toList ++ ' ' :: (toString constant).toList) ++ r) =
      some (.atom ⟨name, index, .signless, comparison, constant⟩, r) := by
  obtain ⟨-, hnum, -⟩ := hr.stops
  have hrel := readRelation_append comparison constant hnum
  have e : name.toList ++ indexText index ++
      (' ' :: comparison.text.toList ++ ' ' :: (toString constant).toList) ++ r =
      name.toList ++ (indexText index ++
        (' ' :: comparison.text.toList ++ ' ' :: (toString constant).toList ++ r)) := by
    simp
  have hstop : ∀ c ∈ (indexText index ++ (' ' :: comparison.text.toList ++
      ' ' :: (toString constant).toList ++ r)).head?, Token.isWordChar c = false :=
    indexText_stops _ rfl
  have hi := readIndex_append index (r := ' ' :: comparison.text.toList ++
    ' ' :: (toString constant).toList ++ r) (by simp)
  have hnocall : (indexText index ++ (' ' :: comparison.text.toList ++
      ' ' :: (toString constant).toList ++ r)).take 2 ≠ ['!', '['] := by
    cases index <;> simp [indexText]
  have hnoparen : (indexText index ++ (' ' :: comparison.text.toList ++
      ' ' :: (toString constant).toList ++ r)).take 1 ≠ ['('] := by
    cases index <;> simp [indexText]
  rw [e, readUnit_word ha hstop, readWord, if_neg hnocall, if_neg hnoparen, hi]
  simp only [hrel]

end Comparison

theorem reads_atom {a : Atomic} (ha : IsWord a.name) : Reads (.atom a) := by
  refine reads_of_unit rfl ⟨2, fun k hk r hr => ?_⟩
  obtain ⟨k, rfl⟩ : ∃ j, k = j + 2 := ⟨k - 2, by omega⟩
  obtain ⟨name, index, forced, comparison, constant⟩ := a
  show readUnit (k + 2) ((Atomic.text _).toList ++ r) = _
  rw [Atomic.toList_text]
  cases forced with
  | signed => exact readUnit_forced (w := "as_signed") ha hr (isWord_of_all rfl) k
  | unsigned => exact readUnit_forced (w := "as_unsigned") ha hr (isWord_of_all rfl) k
  | signless => exact readUnit_signless ha hr k

theorem reads {p : Property} (hp : p.WellNamed) : Reads p := by
  induction p with
  | const value => exact reads_const value
  | atom a => exact reads_atom hp
  | var x => exact reads_var hp.1 hp.2.1 hp.2.2
  | not p ih => exact reads_not (ih hp)
  | and p q ihp ihq => exact reads_and (ihp hp.1) (ihq hp.2)
  | or p q ihp ihq => exact reads_or (ihp hp.1) (ihq hp.2)
  | next paths p ih =>
    cases paths with
    | all => exact reads_unary (w := "AX") (ih hp) (isWord_of_all rfl) rfl rfl rfl rfl rfl
    | some => exact reads_unary (w := "EX") (ih hp) (isWord_of_all rfl) rfl rfl rfl rfl rfl
  | eventually paths p ih =>
    cases paths with
    | all => exact reads_unary (w := "AF") (ih hp) (isWord_of_all rfl) rfl rfl rfl rfl rfl
    | some => exact reads_unary (w := "EF") (ih hp) (isWord_of_all rfl) rfl rfl rfl rfl rfl
  | always paths p ih =>
    cases paths with
    | all => exact reads_unary (w := "AG") (ih hp) (isWord_of_all rfl) rfl rfl rfl rfl rfl
    | some => exact reads_unary (w := "EG") (ih hp) (isWord_of_all rfl) rfl rfl rfl rfl rfl
  | holdUntil paths p q ihp ihq =>
    cases paths with
    | all =>
      exact reads_binary (w := "AU") (ihp hp.1) (ihq hp.2) (isWord_of_all rfl) rfl rfl rfl rfl rfl
    | some =>
      exact reads_binary (w := "EU") (ihp hp.1) (ihq hp.2) (isWord_of_all rfl) rfl rfl rfl rfl rfl
  | release paths p q ihp ihq =>
    cases paths with
    | all =>
      exact reads_binary (w := "AR") (ihp hp.1) (ihq hp.2) (isWord_of_all rfl) rfl rfl rfl rfl rfl
    | some =>
      exact reads_binary (w := "ER") (ihp hp.1) (ihq hp.2) (isWord_of_all rfl) rfl rfl rfl rfl rfl
  | fix kind x p ih => exact reads_fix hp.1 (ih hp.2)

/-- Properties with the same text are the same. -/
theorem key_injective {p q : Property} (hp : p.WellNamed) (hq : q.WellNamed)
    (h : p.key = q.key) : p = q := by
  obtain ⟨m, hm⟩ := reads hp
  obtain ⟨n, hn⟩ := reads hq
  have h1 := (hm (m + n) (by omega)).2 [] .nil
  have h2 := (hn (m + n) (by omega)).2 [] .nil
  rw [show p.text = q.text from h, h2] at h1
  simpa using h1.symm

end RefineCheck.Property
