/-
  RefineCheck.Proofs.Property.Reparsed

  The text of a property that was read from some text is read as the same property. The
  tokens of the text are found first, and the grammar derives the property from them along
  the tree.
-/

import RefineCheck.Proofs.Property.Accepted
import RefineCheck.Proofs.Property.Parsed

namespace RefineCheck.Property

open RefineCheck.Property.Parser

/-! ## Numbers -/

theorem digitValue?_of_isDigit {c : Char} (h : c.isDigit = true) :
    Text.digitValue? c = some (c.toNat - 48) ∧ c.toNat - 48 < 10 := by
  have h' : '0' ≤ c ∧ c ≤ '9' := by
    rwa [Char.isDigit, Bool.and_eq_true, decide_eq_true_iff, decide_eq_true_iff] at h
  have hle : c.toNat ≤ 57 := h'.2
  exact ⟨if_pos h', by omega⟩

theorem ofDigits?_eq {cs : List Char} (h : ∀ c ∈ cs, c.isDigit = true) :
    Text.ofDigits? 10 cs = some (Nat.ofDigitChars 10 cs 0) := by
  suffices step : ∀ init, cs.foldl (fun acc c => do
      let n ← acc
      let d ← Text.digitValue? c
      if d < 10 then some (n * 10 + d) else none) (some init) = some (Nat.ofDigitChars 10 cs init) from
    step 0
  induction cs with
  | nil =>
    intro init
    rfl
  | cons c cs ih =>
    intro init
    obtain ⟨hvalue, hlt⟩ := digitValue?_of_isDigit (h c List.mem_cons_self)
    rw [List.foldl_cons, Nat.ofDigitChars_cons, ← ih fun d hd => h d (List.mem_cons_of_mem _ hd)]
    simp only [Option.bind_eq_bind, Option.bind_some, hvalue, if_pos hlt, Nat.mul_comm init]
    rfl

/-- A positive number is not written with a zero in front. -/
theorem head?_toDigits_ne {n : Nat} (h : 0 < n) : (Nat.toDigits 10 n).head? ≠ some '0' := by
  induction n using Nat.strong_induction_on with
  | _ n ih =>
    rw [Nat.toDigits_eq_if (by decide)]
    split
    · interval_cases n <;> decide
    · have hpos : 0 < n / 10 := by omega
      have hne : Nat.toDigits 10 (n / 10) ≠ [] := Nat.toDigits_ne_nil
      rw [List.head?_append_of_ne_nil _ hne]
      exact ih (n / 10) (by omega) hpos

theorem underscoresSeparate_of_not_mem {cs : List Char} (h : '_' ∉ cs) (afterDigit : Bool) :
    Text.underscoresSeparate afterDigit cs = true := by
  induction cs generalizing afterDigit with
  | nil => rfl
  | cons c cs ih =>
    rw [List.mem_cons, not_or] at h
    rw [Text.underscoresSeparate.eq_def]
    split
    · rfl
    · rename_i heq
      exact absurd (List.cons.inj heq).1.symm h.1
    · rename_i heq
      obtain ⟨-, rfl⟩ := List.cons.inj heq
      exact ih h.2 true

theorem splitBase_of_head? {cs : List Char} (h : cs.head? ≠ some '0') :
    Text.splitBase cs = (10, cs, false) := by
  rw [Text.splitBase.eq_def]
  split
  · simp at h
  · simp at h
  · rfl

theorem natLiteral?_toString (n : Nat) : Text.natLiteral? (toString n).toList = some n := by
  rw [Nat.toString_eq_repr, Nat.toList_repr]
  rcases Nat.eq_zero_or_pos n with rfl | hpos
  · rfl
  have hunderscore : '_' ∉ Nat.toDigits 10 n := Nat.underscore_not_in_toDigits
  have hfilter : (Nat.toDigits 10 n).filter (· != '_') = Nat.toDigits 10 n := by
    refine List.filter_eq_self.2 fun c hc => ?_
    rw [bne_iff_ne]
    rintro rfl
    exact hunderscore hc
  rw [Text.natLiteral?, if_neg (by simp), splitBase_of_head? (head?_toDigits_ne hpos)]
  simp only [underscoresSeparate_of_not_mem hunderscore, if_true, hfilter]
  rw [ofDigits?_eq fun c => Nat.isDigit_of_mem_toDigits (by decide) (by decide),
    Nat.ofDigitChars_ten_toDigits]

/-- The text of a number is that of its magnitude, behind a minus sign if it is negative. -/
theorem toList_toString_int (n : Int) :
    (∃ m : Nat, n = m ∧ (toString n).toList = (toString m).toList) ∨
      ∃ m : Nat, n = -m ∧ (toString n).toList = '-' :: (toString m).toList := by
  rw [Int.toString_eq_repr, Int.repr_eq_if]
  split
  · exact .inl ⟨n.toNat, by omega, rfl⟩
  · refine .inr ⟨(-n).toNat, by omega, ?_⟩
    rw [String.toList_append]
    rfl

theorem intLiteral?_toString {n : Int} (hn : IsInt64 n) :
    Text.intLiteral? (toString n).toList = some n := by
  rcases toList_toString_int n with ⟨m, rfl, htext⟩ | ⟨m, rfl, htext⟩
  · have hm : m < Text.int64Bound := by have := hn.2; omega
    have hdigit : ∀ rest, (toString m).toList ≠ '-' :: rest := by
      intro rest h
      have hmem : '-' ∈ (toString m).toList := by rw [h]; exact List.mem_cons_self
      rw [Nat.toString_eq_repr, Nat.toList_repr] at hmem
      exact absurd (Nat.isDigit_of_mem_toDigits (by decide) (by decide) hmem) (by decide)
    rw [htext, Text.intLiteral?.eq_def]
    split
    · rename_i rest heq
      exact absurd heq (hdigit rest)
    · rw [natLiteral?_toString]
      exact if_pos hm
  · have hm : m ≤ Text.int64Bound := by have := hn.1; omega
    rw [htext, Text.intLiteral?, natLiteral?_toString]
    exact if_pos hm

/-! ## Tokens of a text -/

/-- A text is read as tokens of the given content, wherever it starts. -/
def Lexes (cs : List Char) (lexemes : List Lexeme) : Prop :=
  ∀ offset, ∃ tokens, Token.readAll offset cs = .ok tokens ∧ tokens.map Token.lexeme = lexemes

namespace Lexes

variable {cs r rest : List Char} {ls : List Lexeme}

theorem nil : Lexes [] [] := by
  intro offset
  exact ⟨[], by rw [Token.readAll]; rfl, rfl⟩

theorem space (h : Lexes cs ls) : Lexes (' ' :: cs) ls := by
  intro offset
  rw [Token.readAll_blank rfl]
  exact h (offset + 1)

/-- A token in front of a text. -/
theorem cons {c : Char} {lexeme : Lexeme} (hblank : Token.isBlank c = false)
    (hread : ∀ offset, Token.read offset c rest = .ok (lexeme, r)) (h : Lexes r ls) :
    Lexes (c :: rest) (lexeme :: ls) := by
  intro offset
  obtain ⟨tokens, hall, hls⟩ := h (offset + (Token.size (c :: rest) - Token.size r))
  refine ⟨⟨lexeme, offset⟩ :: tokens, ?_, by rw [List.map_cons, hls]⟩
  rw [Token.readAll_token hblank (hread offset), hall]
  rfl

end Lexes

theorem isBlank_of_isWordChar {c : Char} (h : Token.isWordChar c = true) :
    Token.isBlank c = false := by
  rw [Bool.eq_false_iff]
  intro hblank
  simp only [Token.isBlank, Bool.or_eq_true, beq_iff_eq] at hblank
  rcases hblank with ((rfl | rfl) | rfl) | rfl <;> exact absurd h (by decide)

/-- A name is read up to where it ends, together with the mark of an invocation. -/
theorem IsName.read {w : String} {r : List Char} (hw : IsName w)
    (hr : ∀ c ∈ r.head?, Token.isWordChar c = false) :
    ∃ c cs, w.toList ++ r = c :: cs ∧ Token.isBlank c = false ∧
      ∀ offset, Token.read offset c cs =
        .ok (if Token.startsInvocation r then (.invocation w, r.drop 1) else (.name w, r)) := by
  obtain ⟨⟨hne, hword⟩, hdigit⟩ := hw
  cases hcs : w.toList with
  | nil => exact absurd hcs hne
  | cons c cs =>
    rw [hcs] at hword hdigit
    have hc : Token.isWordChar c = true := hword c List.mem_cons_self
    obtain ⟨htake, hdrop⟩ := span_append (fun d hd => hword d (List.mem_cons_of_mem _ hd)) hr
    refine ⟨c, cs ++ r, rfl, isBlank_of_isWordChar hc, fun offset => ?_⟩
    rw [Token.read, if_pos (by simp [hc, hdigit c rfl])]
    simp only [htake, hdrop, ← hcs, String.ofList_toList]

namespace Lexes

variable {r : List Char} {ls : List Lexeme}

theorem name {w : String} (hw : IsName w) (hr : ∀ c ∈ r.head?, Token.isWordChar c = false)
    (hmark : Token.startsInvocation r = false) (h : Lexes r ls) :
    Lexes (w.toList ++ r) (.name w :: ls) := by
  obtain ⟨c, cs, hcs, hblank, hread⟩ := hw.read hr
  rw [hcs]
  refine cons hblank (fun offset => ?_) h
  rw [hread, hmark]
  rfl

theorem invocation {w : String} (hw : IsName w) (h : Lexes ('[' :: r) ls) :
    Lexes (w.toList ++ '!' :: '[' :: r) (.invocation w :: ls) := by
  obtain ⟨c, cs, hcs, hblank, hread⟩ := hw.read (r := '!' :: '[' :: r) (by simp; decide)
  rw [hcs]
  exact cons hblank hread h

/-- A number that no part of a word follows, not even the first bytes of a character. -/
theorem number {n : Int} (hn : IsInt64 n) (hr : ∀ c ∈ r.head?, Token.isWordChar c = false)
    (hstray : Token.straddling r = []) (h : Lexes r ls) :
    Lexes ((toString n).toList ++ r) (.number (toString n) n :: ls) := by
  have hdigits (m : Nat) : ∀ c ∈ (toString m).toList, c.isDigit = true := by
    intro c hc
    rw [Nat.toString_eq_repr, Nat.toList_repr] at hc
    exact Nat.isDigit_of_mem_toDigits (by decide) (by decide) hc
  -- the characters behind the first one are digits, which go on a word
  have hnumber {c : Char} {cs : List Char} (htext : (toString n).toList = c :: cs)
      (hcs : ∀ d ∈ cs, d.isDigit = true) (offset : Nat) :
      Token.readNumber offset c (cs ++ r) = .ok (.number (toString n) n, r) := by
    obtain ⟨htake, hdrop⟩ :=
      span_append (fun d hd => (isWordChar_of_isDigit (hcs d hd)).1) hr
    simp only [Token.readNumber, htake, hdrop, hstray, List.map_nil, List.isEmpty_nil, if_true,
      ← htext, intLiteral?_toString hn, String.ofList_toList]
  rcases toList_toString_int n with ⟨m, -, htext⟩ | ⟨m, -, htext⟩
  all_goals
    have hall := hdigits m
    obtain ⟨d, ds, hm⟩ : ∃ d ds, (toString m).toList = d :: ds := by
      cases hm : (toString m).toList with
      | nil => simp at hm
      | cons d ds => exact ⟨d, ds, rfl⟩
    rw [hm] at htext hall
    obtain ⟨hword, hdigit⟩ := isWordChar_of_isDigit (hall d List.mem_cons_self)
    rw [htext]
  · refine cons (isBlank_of_isWordChar hword) (fun offset => ?_) h
    have hstart : Token.startsNumber (d :: (ds ++ r)) = true := by
      rw [Token.startsNumber.eq_def]
      split
      · rename_i heq
        obtain ⟨rfl, -⟩ := List.cons.inj heq
        exact absurd hdigit (by decide)
      · rename_i heq
        obtain ⟨rfl, -⟩ := List.cons.inj heq
        exact hdigit
      · rename_i heq
        cases heq
    rw [Token.read, if_neg (by simp [hdigit])]
    exact (if_pos hstart).trans
      (hnumber htext (fun c hc => hall c (List.mem_cons_of_mem _ hc)) offset)
  · refine cons rfl (fun offset => ?_) h
    rw [Token.read, if_neg (by decide)]
    exact (if_pos hdigit).trans (hnumber htext hall offset)

end Lexes

/-! ## Tokens of a property -/

/-- The lexemes of an index, if there is one. -/
def indexLexemes : Option Nat → List Lexeme
  | some i => [.openSquare, .number (toString i) i, .closeSquare]
  | none => []

/-- The tokens of an atomic property behind the word it starts with. -/
def relationLexemes (a : Atomic) : List Lexeme :=
  (match a.forced with
    | .signless => indexLexemes a.index
    | _ => .openParen :: .name a.name :: indexLexemes a.index ++ [.closeParen]) ++
  [.comparison a.comparison, .number (toString a.constant) a.constant]

/-- Tokens in parentheses, if they need them. -/
def enclose (needed : Bool) (ls : List Lexeme) : List Lexeme :=
  if needed then .openParen :: ls ++ [.closeParen] else ls

/-- The tokens of the text of a property. -/
def lexemes : Property → List Lexeme
  | .const value => [.name (if value then "true" else "false")]
  | .atom a => .name (lead a) :: relationLexemes a
  | .not p => .exclamation :: .openParen :: (p.lexemes ++ [.closeParen])
  | .and p q => enclose p.isConnective p.lexemes ++ .and :: enclose q.isConnective q.lexemes
  | .or p q => enclose p.isConnective p.lexemes ++ .or :: enclose q.isConnective q.lexemes
  | .next paths p =>
    .invocation (paths.text ++ "X") :: .openSquare :: (p.lexemes ++ [.closeSquare])
  | .eventually paths p =>
    .invocation (paths.text ++ "F") :: .openSquare :: (p.lexemes ++ [.closeSquare])
  | .always paths p =>
    .invocation (paths.text ++ "G") :: .openSquare :: (p.lexemes ++ [.closeSquare])
  | .holdUntil paths p q =>
    .invocation (paths.text ++ "U") :: .openSquare ::
      (p.lexemes ++ .comma :: (q.lexemes ++ [.closeSquare]))
  | .release paths p q =>
    .invocation (paths.text ++ "R") :: .openSquare ::
      (p.lexemes ++ .comma :: (q.lexemes ++ [.closeSquare]))
  | .fix kind x p =>
    .invocation kind.text :: .openSquare :: .name x :: .comma :: (p.lexemes ++ [.closeSquare])
  | .var x => [.name x]

/-- Neither an invocation nor a number goes on where an operand ends. -/
theorem EndsUnit.plain {r : List Char} (h : EndsUnit r) :
    Token.startsInvocation r = false ∧ Token.straddling r = [] := by
  cases h with
  | ends h =>
    cases h with
    | nil => exact ⟨rfl, rfl⟩
    | paren r => exact ⟨rfl, rfl⟩
    | square r => exact ⟨rfl, rfl⟩
    | comma r => exact ⟨rfl, rfl⟩
  | and r => exact ⟨rfl, rfl⟩
  | or r => exact ⟨rfl, rfl⟩

theorem isName_of_all {s : String} (h : (!s.toList.isEmpty && s.toList.all Token.isWordChar) = true)
    (hdigit : (s.toList.head?.all fun c => !Token.isDigitByte c.toNat) = true) : IsName s := by
  refine ⟨isWord_of_all h, fun c hc => ?_⟩
  rw [Option.mem_def] at hc
  simpa [hc] using hdigit

namespace Lexes

variable {r : List Char} {ls : List Lexeme}

theorem openParen (h : Lexes r ls) : Lexes ('(' :: r) (.openParen :: ls) :=
  cons rfl (fun _ => rfl) h

theorem closeParen (h : Lexes r ls) : Lexes (')' :: r) (.closeParen :: ls) :=
  cons rfl (fun _ => rfl) h

theorem openSquare (h : Lexes r ls) : Lexes ('[' :: r) (.openSquare :: ls) :=
  cons rfl (fun _ => rfl) h

theorem closeSquare (h : Lexes r ls) : Lexes (']' :: r) (.closeSquare :: ls) :=
  cons rfl (fun _ => rfl) h

theorem negation (h : Lexes r ls) :
    Lexes ('!' :: '(' :: r) (.exclamation :: .openParen :: ls) :=
  cons rfl (fun _ => rfl) h.openParen

theorem comma (h : Lexes r ls) : Lexes (',' :: ' ' :: r) (.comma :: ls) :=
  cons rfl (fun _ => rfl) h.space

theorem and (h : Lexes r ls) : Lexes (" && ".toList ++ r) (.and :: ls) :=
  (cons rfl (fun _ => rfl) h.space).space

theorem or (h : Lexes r ls) : Lexes (" || ".toList ++ r) (.or :: ls) :=
  (cons rfl (fun _ => rfl) h.space).space

theorem comparison (c : Comparison) (h : Lexes r ls) :
    Lexes (' ' :: c.text.toList ++ ' ' :: r) (.comparison c :: ls) := by
  cases c <;> exact (cons rfl (fun _ => rfl) h.space).space

theorem relation (c : Comparison) {n : Int} (hn : IsInt64 n) (hr : EndsUnit r) (h : Lexes r ls) :
    Lexes (' ' :: c.text.toList ++ ' ' :: (toString n).toList ++ r)
      (.comparison c :: .number (toString n) n :: ls) := by
  have := comparison c (number hn hr.stops.1 hr.plain.2 h)
  simpa using this

theorem index {index : Option Nat} (hi : ∀ i ∈ index, IsInt64 i) (h : Lexes r ls) :
    Lexes (indexText index ++ r) (indexLexemes index ++ ls) := by
  cases index with
  | none => exact h
  | some i =>
    have hnumber := number (hi i rfl) (r := ']' :: r) (by simp; decide) rfl h.closeSquare
    have htext : toString (i : Int) = toString i := rfl
    rw [htext] at hnumber
    simpa [indexText, indexLexemes] using hnumber.openSquare

end Lexes

theorem lexes_atom {scope : List String} {a : Atomic} (ha : LegibleAtom scope a) {r : List Char}
    {ls : List Lexeme} (hr : EndsUnit r) (h : Lexes r ls) :
    Lexes (a.text.toList ++ r) (.name (lead a) :: relationLexemes a ++ ls) := by
  obtain ⟨name, index, forced, comparison, constant⟩ := a
  have hrelation := Lexes.relation comparison ha.constant hr h
  -- with a forced signedness the name is between parentheses
  have forcedCase (w : String) (hw : IsName w) :
      Lexes (w.toList ++ '(' :: (name.toList ++ indexText index ++ [')']) ++
          (' ' :: comparison.text.toList ++ ' ' :: (toString constant).toList) ++ r)
        (.name w :: (.openParen :: .name name :: indexLexemes index ++ [.closeParen]) ++
          [.comparison comparison, .number (toString constant) constant] ++ ls) := by
    have hclose := Lexes.index ha.index hrelation.closeParen
    have hname := hclose.name ha.name (indexText_stops index rfl) (by cases index <;> rfl)
    have := hname.openParen.name hw (by simp; decide) rfl
    simpa using this
  rw [Atomic.toList_text]
  cases forced with
  | signed => exact forcedCase "as_signed" (isName_of_all rfl rfl)
  | unsigned => exact forcedCase "as_unsigned" (isName_of_all rfl rfl)
  | signless =>
    have hindex := Lexes.index ha.index hrelation
    have := hindex.name ha.name (indexText_stops index rfl) (by cases index <;> rfl)
    simpa [lead, relationLexemes] using this

/-- The tokens of an operand, whatever follows its end. -/
def LexesTo (cs : List Char) (lexemes : List Lexeme) : Prop :=
  ∀ r ls, EndsUnit r → Lexes r ls → Lexes (cs ++ r) (lexemes ++ ls)

theorem LexesTo.bracket {s : String} {lexemes : List Lexeme} (h : LexesTo s.toList lexemes)
    (needed : Bool) : LexesTo (bracket needed s).toList (enclose needed lexemes) := by
  intro r ls hr hls
  cases needed with
  | false => exact h r ls hr hls
  | true =>
    have := (h _ _ (.ends (.paren r)) hls.closeParen).openParen
    simpa [Property.bracket, enclose, String.toList_append] using this

/-- An operator with one operand. -/
theorem LexesTo.unary {w : String} {cs : List Char} {lexemes : List Lexeme}
    (h : LexesTo cs lexemes) (hw : IsName w) :
    LexesTo (w.toList ++ '!' :: '[' :: (cs ++ [']']))
      (.invocation w :: .openSquare :: (lexemes ++ [.closeSquare])) := by
  intro r ls _ hls
  have := (h _ _ (.ends (.square r)) hls.closeSquare).openSquare.invocation hw
  simpa using this

/-- An operator with two operands. -/
theorem LexesTo.binary {w : String} {cs cs' : List Char} {lexemes lexemes' : List Lexeme}
    (h : LexesTo cs lexemes) (h' : LexesTo cs' lexemes') (hw : IsName w) :
    LexesTo (w.toList ++ '!' :: '[' :: (cs ++ ',' :: ' ' :: (cs' ++ [']'])))
      (.invocation w :: .openSquare :: (lexemes ++ .comma :: (lexemes' ++ [.closeSquare]))) := by
  intro r ls _ hls
  have hright := h' _ _ (.ends (.square r)) hls.closeSquare
  have := (h _ _ (.ends (.comma _)) hright.comma).openSquare.invocation hw
  simpa using this

theorem lexesTo_name {w : String} (hw : IsName w) : LexesTo w.toList [.name w] := by
  intro r ls hr hls
  exact hls.name hw hr.stops.1 hr.plain.1

/-- The names of the operators. -/
theorem isName_operator (paths : Paths) (letter : String)
    (h : letter ∈ ["X", "F", "G", "U", "R"]) : IsName (paths.text ++ letter) := by
  fin_cases h <;> cases paths <;> exact isName_of_all rfl rfl

theorem isName_extremum (kind : Extremum) : IsName kind.text := by
  cases kind <;> exact isName_of_all rfl rfl

theorem lexesTo_text {scope : List String} {p : Property} (hp : Legible scope p) :
    LexesTo p.text.toList p.lexemes := by
  -- every operator is written with spaces or brackets after its words, so that the lexemes of the
  -- parts stay apart
  induction p generalizing scope with
  | const value => cases value <;> exact lexesTo_name (isName_of_all rfl rfl)
  | atom a => exact fun r ls hr hls => lexes_atom hp hr hls
  | var x => exact lexesTo_name hp.2.1
  | not p ih =>
    intro r ls _ hls
    have := (ih hp _ _ (.ends (.paren r)) hls.closeParen).negation
    simpa [text, lexemes, String.toList_append] using this
  | and p q ihp ihq =>
    intro r ls hr hls
    have hq := (ihq hp.2).bracket q.isConnective r ls hr hls
    have := (ihp hp.1).bracket p.isConnective _ _ (.and _) hq.and
    simpa [text, lexemes, String.toList_append] using this
  | or p q ihp ihq =>
    intro r ls hr hls
    have hq := (ihq hp.2).bracket q.isConnective r ls hr hls
    have := (ihp hp.1).bracket p.isConnective _ _ (.or _) hq.or
    simpa [text, lexemes, String.toList_append] using this
  | next paths p ih =>
    have := (ih hp).unary (isName_operator paths "X" (by decide))
    simpa [text, lexemes, String.toList_append] using this
  | eventually paths p ih =>
    have := (ih hp).unary (isName_operator paths "F" (by decide))
    simpa [text, lexemes, String.toList_append] using this
  | always paths p ih =>
    have := (ih hp).unary (isName_operator paths "G" (by decide))
    simpa [text, lexemes, String.toList_append] using this
  | holdUntil paths p q ihp ihq =>
    have := (ihp hp.1).binary (ihq hp.2) (isName_operator paths "U" (by decide))
    simpa [text, lexemes, String.toList_append] using this
  | release paths p q ihp ihq =>
    have := (ihp hp.1).binary (ihq hp.2) (isName_operator paths "R" (by decide))
    simpa [text, lexemes, String.toList_append] using this
  | fix kind x p ih =>
    have := (lexesTo_name hp.1).binary (ih hp.2.2) (isName_extremum kind)
    simpa [text, lexemes, String.toList_append] using this

/-! ## Deriving the property -/

/-- The tokens of a property derive it, alone and as an operand of a connective. -/
def Spells (scope : List String) (p : Property) : Prop :=
  Derives Role.Taken .expression scope (enclose p.isConnective p.lexemes) p ∧
    Derives Role.Taken .property scope p.lexemes p

section Spells

variable {scope : List String} {p q : Property}

theorem spells_of_expression (hc : p.isConnective = false)
    (h : Derives Role.Taken .expression scope p.lexemes p) : Spells scope p :=
  ⟨by rwa [hc], .alone h⟩

/-- A chain of two operands. -/
theorem spells_connective (c : Connective) (hp : Spells scope p) (hq : Spells scope q) :
    Spells scope (c.build p q) := by
  have hchain := Derives.chained c (.pair c hp.1 hq.1)
  cases c with
  | and => exact ⟨.paren hchain, hchain⟩
  | or => exact ⟨.paren hchain, hchain⟩

theorem indexLexemes_index (index : Option Nat) : Index index (indexLexemes index) := by
  cases index with
  | none => exact .none
  | some i => exact .some (toString i) i

/-- The word that an atomic property starts with has the role for it. -/
theorem LegibleAtom.role {a : Atomic} (ha : LegibleAtom scope a) :
    Role.ofWord scope (lead a) = if a.forced = .signless then .field else .forcing a.forced := by
  rw [ofWord_of_free ha.lead_free ha.lead_ne_true ha.lead_ne_false, ha.forced]

theorem spells_atom {a : Atomic} (ha : LegibleAtom scope a) : Spells scope (.atom a) := by
  have hrole := ha.role
  obtain ⟨name, index, forced, c, n⟩ := a
  have hindex := indexLexemes_index index
  apply spells_of_expression rfl
  by_cases hs : forced = .signless
  · subst hs
    exact .field c (toString n) n hrole hindex
  · have hforced := Derives.forced (R := Role.Taken) name c (toString n) n
      (hrole.trans (if_neg hs)) hindex
    cases forced with
    | signless => exact absurd rfl hs
    | signed => simpa [lexemes, relationLexemes] using hforced
    | unsigned => simpa [lexemes, relationLexemes] using hforced

theorem spells (hp : Legible scope p) : Spells scope p := by
  induction p generalizing scope with
  | const value => exact spells_of_expression rfl (.const (by cases value <;> rfl))
  | atom a => exact spells_atom hp
  | var x =>
    obtain ⟨hmem, -, htrue, hfalse⟩ := hp
    refine spells_of_expression rfl (.var ?_)
    rw [Role.Taken, Role.ofWord, if_neg htrue, if_neg hfalse, if_pos hmem]
  | not p ih => exact spells_of_expression rfl (.not (ih hp).2)
  | and p q ihp ihq => exact spells_connective .and (ihp hp.1) (ihq hp.2)
  | or p q ihp ihq => exact spells_connective .or (ihp hp.1) (ihq hp.2)
  | next paths p ih => exact spells_of_expression rfl (.unary (.next paths) (ih hp).2)
  | eventually paths p ih => exact spells_of_expression rfl (.unary (.eventually paths) (ih hp).2)
  | always paths p ih => exact spells_of_expression rfl (.unary (.always paths) (ih hp).2)
  | holdUntil paths p q ihp ihq =>
    exact spells_of_expression rfl (.binary (.holdUntil paths) (ihp hp.1).2 (ihq hp.2).2)
  | release paths p q ihp ihq =>
    exact spells_of_expression rfl (.binary (.release paths) (ihp hp.1).2 (ihq hp.2).2)
  | fix kind x p ih =>
    obtain ⟨-, hreserved, hp⟩ := hp
    refine spells_of_expression rfl (.fix kind ?_ (ih hp).2)
    rw [← isReserved_iff, hreserved]
    decide

end Spells

/-! ## The round trip -/

/-- What a parser read is read again from its own text. -/
theorem parse_text_of_legible {p : Property} (hp : Legible [] p) (hpolarity : negatedVariable? false [] p = none) :
    Property.parse p.text = .ok p := by
  obtain ⟨tokens, htokens, hlexemes⟩ :=
    lexesTo_text hp [] [] (.ends .nil) .nil 0
  rw [List.append_nil] at htokens hlexemes
  have hparse : ofTokens tokens = .ok p := by
    rw [ofTokens_iff, hlexemes]
    exact (spells hp).2
  exact parse_eq_ok_iff.2 ⟨tokens, htokens, hparse, hpolarity⟩

/-- Printing and parsing agree: the text of a property that was read is read as the same property,
    and two such properties have one key only if they are the same. -/
theorem parse_text {text : String} {p : Property} (h : Property.parse text = .ok p) :
    Property.parse p.text = .ok p ∧
      ∀ (text' : String) (q : Property), Property.parse text' = .ok q → (p.key = q.key ↔ p = q) := by
  obtain ⟨hlegible, hpolarity⟩ := legible_of_parse h
  have hp := parse_text_of_legible hlegible hpolarity
  refine ⟨hp, fun text' q h' => ⟨fun hkey => ?_, fun heq => by rw [heq]⟩⟩
  obtain ⟨hlegible', hpolarity'⟩ := legible_of_parse h'
  have hq := parse_text_of_legible hlegible' hpolarity'
  have htext : p.text = q.text := hkey
  rw [htext, hq] at hp
  exact (Except.ok.inj hp).symm

theorem parse_text_respelled :
    ∃ p, Property.parse "lfp![Z, (x==0x1_0)||EX![Z]]" = .ok p ∧
      p.text = "lfp![Z, x == 16 || EX![Z]]" ∧ Property.parse p.text = .ok p ∧
      (p.key = inherent.key ↔ p = inherent) := by
  have h : Property.parse "lfp![Z, (x==0x1_0)||EX![Z]]" = .ok
      (.fix .least "Z" (.or (.atom ⟨"x", none, .signless, .eq, 16⟩) (.next .some (.var "Z")))) := by
    cbv
  exact ⟨_, h, by decide, (parse_text h).1, (parse_text h).2 "AG![__panic == 0]" _ (by cbv)⟩

end RefineCheck.Property
