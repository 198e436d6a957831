/-
  RefineCheck.Proofs.Property.Literal

  What the written constants of a property mean. The notation of a number is stated apart from
  the reader, digit by digit, and a comparison with a number below `2 ^ 63` in either base is
  evaluated as a comparison with that number. From `2 ^ 63` on the reader passes on the
  negative number with the same bits, and only equality can undo this.
-/

import Mathlib
import RefineCheck.Proofs.Concrete
import RefineCheck.Proofs.Property.Reparsed

namespace RefineCheck

/-! ## Notation -/

namespace Text

/-- A character that writes a digit of a base; letters may be upper or lower case. -/
def WritesDigit (base : Nat) (c : Char) (d : Nat) : Prop :=
  d < base ∧ (c = Nat.digitChar d ∨ c = (Nat.digitChar d).toUpper)

/-- Digits behind those of a number `m`, and the number that all of them write. An underscore
    may stand in front of every digit. -/
inductive Continues (base : Nat) : (m : Nat) → List Char → (n : Nat) → Prop
  | nil (m : Nat) : Continues base m [] m
  | digit {m n d : Nat} {c : Char} {cs : List Char} : WritesDigit base c d →
    Continues base (m * base + d) cs n → Continues base m (c :: cs) n
  | separated {m n d : Nat} {c : Char} {cs : List Char} : WritesDigit base c d →
    Continues base (m * base + d) cs n → Continues base m ('_' :: c :: cs) n

/-- The decimal and the hexadecimal notation of numbers. A decimal number of several digits
    does not start with a zero. -/
inductive Writes : List Char → Nat → Prop
  | zero : Writes ['0'] 0
  | decimal {c : Char} {d n : Nat} {cs : List Char} : WritesDigit 10 c d → d ≠ 0 →
    Continues 10 d cs n → Writes (c :: cs) n
  | hexadecimal {x : Char} {n : Nat} {cs : List Char} : x = 'x' ∨ x = 'X' → cs ≠ [] →
    Continues 16 0 cs n → Writes ('0' :: x :: cs) n

/-! ## Usual notation -/

theorem Continues.concat {base m n d : Nat} {c : Char} {cs : List Char}
    (h : Continues base m cs n) (hc : WritesDigit base c d) :
    Continues base m (cs ++ [c]) (n * base + d) := by
  induction h with
  | nil m => exact .digit hc (.nil _)
  | digit hd _ ih => exact .digit hd ih
  | separated hd _ ih => exact .separated hd ih

theorem continues_toDigits {base : Nat} (hb : 1 < base) (n : Nat) :
    Continues base 0 (Nat.toDigits base n) n := by
  have hdigit {d : Nat} (hd : d < base) : WritesDigit base (Nat.digitChar d) d := ⟨hd, .inl rfl⟩
  induction n using Nat.strong_induction_on with
  | _ n ih =>
    rw [Nat.toDigits_eq_if hb]
    split
    · rename_i hlt
      refine .digit (hdigit hlt) ?_
      rw [Nat.zero_mul, Nat.zero_add]
      exact .nil n
    · -- the last digit is written behind those of the quotient
      rename_i hge
      have h := (ih (n / base) (Nat.div_lt_self (by omega) hb)).concat
        (hdigit (Nat.mod_lt n (by omega)))
      rwa [Nat.div_add_mod'] at h

/-- Every number can be written in decimal. -/
theorem writes_decimal (n : Nat) : Writes (Nat.toDigits 10 n) n := by
  rcases Nat.eq_zero_or_pos n with rfl | hpos
  · exact .zero
  have h : Continues 10 0 (Nat.toDigits 10 n) n := continues_toDigits (by decide) n
  have hhead := Property.head?_toDigits_ne hpos
  have hplain : '_' ∉ Nat.toDigits 10 n := Nat.underscore_not_in_toDigits
  -- so the first character is a digit, and not a zero
  generalize Nat.toDigits 10 n = cs at h hhead hplain
  cases h with
  | nil => exact absurd hpos (by decide)
  | @digit _ _ d c cs hc h =>
    rw [Nat.zero_mul, Nat.zero_add] at h
    refine .decimal hc ?_ h
    rintro rfl
    have hzero : c = '0' := by rcases hc.2 with rfl | rfl <;> rfl
    exact hhead (congrArg some hzero)
  | separated _ _ => exact absurd List.mem_cons_self hplain

/-! ## Reading digits -/

theorem WritesDigit.mono {base base' : Nat} {c : Char} {d : Nat} (h : WritesDigit base c d)
    (hb : base ≤ base') : WritesDigit base' c d :=
  ⟨lt_of_lt_of_le h.1 hb, h.2⟩

/-- Both spellings of the sixteen digits have their values. -/
theorem WritesDigit.value {c : Char} {d : Nat} (h : WritesDigit 16 c d) :
    digitValue? c = some d := by
  have htable : ∀ d < 16, digitValue? (Nat.digitChar d) = some d ∧
      digitValue? (Nat.digitChar d).toUpper = some d := by decide
  obtain ⟨hlt, rfl | rfl⟩ := h
  · exact (htable d hlt).1
  · exact (htable d hlt).2

theorem WritesDigit.isWordChar {c : Char} {d : Nat} (h : WritesDigit 16 c d) :
    Token.isWordChar c = true := by
  have htable : ∀ d < 16, Token.isWordChar (Nat.digitChar d) = true ∧
      Token.isWordChar (Nat.digitChar d).toUpper = true := by decide
  obtain ⟨hlt, rfl | rfl⟩ := h
  · exact (htable d hlt).1
  · exact (htable d hlt).2

/-- An underscore is not a digit. -/
theorem WritesDigit.ne_underscore {c : Char} {d : Nat} (h : WritesDigit 16 c d) : c ≠ '_' := by
  rintro rfl
  have hnone : digitValue? '_' = none := by decide
  cases hnone.symm.trans h.value

/-- A decimal digit is written in one way. -/
theorem WritesDigit.eq_digitChar {c : Char} {d : Nat} (h : WritesDigit 10 c d) :
    c = Nat.digitChar d := by
  have htable : ∀ d < 10, (Nat.digitChar d).toUpper = Nat.digitChar d := by decide
  obtain ⟨hlt, rfl | rfl⟩ := h
  · rfl
  · exact htable d hlt

/-- Continues a number that was read with one more digit of the base. -/
def appendDigit (base : Nat) (acc : Option Nat) (c : Char) : Option Nat := do
  let n ← acc
  let d ← digitValue? c
  if d < base then some (n * base + d) else none

theorem ofDigits?_eq_foldl (base : Nat) (cs : List Char) :
    ofDigits? base cs = cs.foldl (appendDigit base) (some 0) := rfl

theorem WritesDigit.append {base m d : Nat} {c : Char} (h : WritesDigit base c d) (hb : base ≤ 16) :
    appendDigit base (some m) c = some (m * base + d) := by
  simp only [appendDigit, Option.bind_eq_bind, Option.bind_some, (h.mono hb).value, if_pos h.1]

theorem underscoresSeparate_cons {c : Char} (hc : c ≠ '_') (afterDigit : Bool) (cs : List Char) :
    underscoresSeparate afterDigit (c :: cs) = underscoresSeparate true cs := by
  rw [underscoresSeparate.eq_def]
  split
  · rename_i heq
    cases heq
  · rename_i heq
    exact absurd (List.cons.inj heq).1 hc
  · rename_i heq
    rw [(List.cons.inj heq).2]

namespace Continues

variable {base m n : Nat} {cs : List Char}

/-- Without its underscores the rest of a number is read as what it writes. -/
theorem foldl_eq (h : Continues base m cs n) (hb : base ≤ 16) :
    (cs.filter (· != '_')).foldl (appendDigit base) (some m) = some n := by
  -- an underscore in front of a digit makes no difference
  have hdigit {m d : Nat} {c : Char} {cs : List Char} (hc : WritesDigit base c d) :
      ((c :: cs).filter (· != '_')).foldl (appendDigit base) (some m) =
        (cs.filter (· != '_')).foldl (appendDigit base) (some (m * base + d)) := by
    rw [List.filter_cons_of_pos (by simpa using (hc.mono hb).ne_underscore), List.foldl_cons,
      hc.append hb]
  induction h with
  | nil m => rfl
  | digit hc _ ih => rw [hdigit hc, ih]
  | separated hc _ ih => rw [List.filter_cons_of_neg (by decide), hdigit hc, ih]

theorem separate (h : Continues base m cs n) (hb : base ≤ 16) :
    underscoresSeparate true cs = true := by
  induction h with
  | nil m => rfl
  | digit hc _ ih => rw [underscoresSeparate_cons (hc.mono hb).ne_underscore, ih]
  | separated hc _ ih =>
    have hne := (hc.mono hb).ne_underscore
    rw [underscoresSeparate]
    simp only [underscoresSeparate_cons hne, ih, bne_iff_ne.2 hne, Bool.and_self]

theorem isWordChar (h : Continues base m cs n) (hb : base ≤ 16) :
    ∀ c ∈ cs, Token.isWordChar c = true := by
  induction h with
  | nil m => exact List.forall_mem_nil _
  | digit hc _ ih => exact List.forall_mem_cons.2 ⟨(hc.mono hb).isWordChar, ih⟩
  | separated hc _ ih =>
    exact List.forall_mem_cons.2 ⟨by decide, List.forall_mem_cons.2 ⟨(hc.mono hb).isWordChar, ih⟩⟩

end Continues

/-! ## Reading literals -/

/-- The number with a sign that a literal for a number stands for in a property. -/
def wrapped (n : Nat) : Int := if n < int64Bound then n else n - uint64Bound

namespace Writes

variable {cs : List Char} {n : Nat}

/-- A literal is read as the number it writes. -/
theorem natLiteral? (h : Writes cs n) : natLiteral? cs = some n := by
  cases h with
  | zero => decide
  | @decimal c d n cs hc hd h =>
    -- without a zero in front there is no letter for a base to look for
    have hne : (c :: cs).head? ≠ some '0' := by
      have htable : ∀ d < 10, d ≠ 0 → Nat.digitChar d ≠ '0' := by decide
      simpa [hc.eq_digitChar] using htable d hc.1 hd
    have hsingle : Continues 10 0 (c :: cs) n := by
      refine .digit hc ?_
      rwa [Nat.zero_mul, Nat.zero_add]
    have hseparate : underscoresSeparate false (c :: cs) = true := by
      rw [underscoresSeparate_cons (hc.mono (by decide)).ne_underscore, h.separate (by decide)]
    rw [Text.natLiteral?, if_neg (by simp), Property.splitBase_of_head? hne]
    simp only [hseparate, if_true, ofDigits?_eq_foldl]
    exact hsingle.foldl_eq (by decide)
  | @hexadecimal x n cs hx hne h =>
    obtain ⟨c, cs, rfl⟩ := List.exists_cons_of_ne_nil hne
    -- the letter of the base counts as a digit for an underscore behind it
    have hsplit : splitBase ('0' :: x :: c :: cs) = (16, c :: cs, true) := by
      rcases hx with rfl | rfl <;> rfl
    rw [Text.natLiteral?, if_neg (by simp), hsplit]
    simp only [h.separate (by decide), if_true, ofDigits?_eq_foldl]
    exact h.foldl_eq (by decide)

/-- A literal is a word that starts with a digit. -/
theorem word (h : Writes cs n) : ∃ c rest, cs = c :: rest ∧ Token.isDigitByte c.toNat = true ∧
    ∀ d ∈ c :: rest, Token.isWordChar d = true := by
  cases h with
  | zero => exact ⟨'0', [], rfl, by decide, List.forall_mem_singleton.2 (by decide)⟩
  | @decimal c d n cs hc hd h =>
    have htable : ∀ d < 10, Token.isDigitByte (Nat.digitChar d).toNat = true := by decide
    refine ⟨c, cs, rfl, ?_, ?_⟩
    · rw [hc.eq_digitChar]
      exact htable d hc.1
    · exact List.forall_mem_cons.2 ⟨(hc.mono (by decide)).isWordChar, h.isWordChar (by decide)⟩
  | @hexadecimal x n cs hx hne h =>
    refine ⟨'0', x :: cs, rfl, by decide, ?_⟩
    refine List.forall_mem_cons.2 ⟨by decide, List.forall_mem_cons.2 ⟨?_, h.isWordChar (by decide)⟩⟩
    rcases hx with rfl | rfl <;> decide

theorem intLiteral? (h : Writes cs n) (hn : n < uint64Bound) :
    intLiteral? cs = some (wrapped n) := by
  obtain ⟨c, rest, rfl, hdigit, -⟩ := h.word
  have hsign : c ≠ '-' := by
    rintro rfl
    exact absurd hdigit (by decide)
  rw [Text.intLiteral?.eq_2 (c :: rest) (by rintro r ⟨⟩; exact hsign rfl), h.natLiteral?]
  simp only [Option.bind_eq_bind, Option.bind_some, wrapped]
  split <;> rfl

end Writes

end Text

/-! ## Comparisons with literals -/

namespace Property

open RefineCheck.Property.Parser

/-- The text that compares a field, or an element of an array field, with a literal. -/
def comparisonText (name : String) (index : Option Nat) (forced : Signedness)
    (comparison : Comparison) (literal : List Char) : String :=
  let element := name ++ String.ofList (indexText index)
  let left := match forced with
    | .signless => element
    | .signed => "as_signed(" ++ element ++ ")"
    | .unsigned => "as_unsigned(" ++ element ++ ")"
  left ++ " " ++ comparison.text ++ " " ++ String.ofList literal

/-- A literal at the end of a text is one token. -/
theorem Lexes.literal {cs : List Char} {n : Nat} {k : Int} (h : Text.Writes cs n)
    (hk : Text.intLiteral? cs = some k) : Lexes cs [.number (String.ofList cs) k] := by
  obtain ⟨c, rest, rfl, hdigit, hword⟩ := h.word
  have htail : ∀ d ∈ rest, Token.isWordChar d = true := fun d hd => hword d (List.mem_cons_of_mem _ hd)
  obtain ⟨htake, hdrop⟩ := span_append (r := []) htail (by simp)
  rw [List.append_nil] at htake hdrop
  have hsign : c ≠ '-' := by
    rintro rfl
    exact absurd hdigit (by decide)
  have hstart : Token.startsNumber (c :: rest) = true := by
    rw [Token.startsNumber.eq_2 c rest (by rintro d r rfl; exact absurd rfl hsign), hdigit]
  refine Lexes.cons (isBlank_of_isWordChar (hword c List.mem_cons_self)) (fun offset => ?_) .nil
  rw [Token.read, if_neg (by simp [hdigit]), if_pos hstart, Token.readNumber]
  simp only [htake, hdrop, Token.straddling, List.map_nil, List.isEmpty_nil, if_true, hk]

theorem toList_comparisonText (name : String) (index : Option Nat) (forced : Signedness)
    (comparison : Comparison) (literal : List Char) :
    (comparisonText name index forced comparison literal).toList =
      (match forced with
        | .signless => name.toList ++ indexText index
        | .signed => "as_signed".toList ++ '(' :: (name.toList ++ indexText index ++ [')'])
        | .unsigned => "as_unsigned".toList ++ '(' :: (name.toList ++ indexText index ++ [')'])) ++
      (' ' :: comparison.text.toList ++ ' ' :: literal) := by
  rw [comparisonText.eq_def]
  cases forced <;> simp [String.toList_append]

/-- The tokens of such a text. -/
def comparisonLexemes (name : String) (index : Option Nat) (forced : Signedness)
    (comparison : Comparison) (literal : Lexeme) : List Lexeme :=
  let enclosed := .openParen :: .name name ::
    (indexLexemes index ++ [.closeParen, .comparison comparison, literal])
  match forced with
  | .signless => .name name :: (indexLexemes index ++ [.comparison comparison, literal])
  | .signed => .name "as_signed" :: enclosed
  | .unsigned => .name "as_unsigned" :: enclosed

/-- A field name that is taken for nothing else where the signedness is not forced. -/
structure NamesField (name : String) (index : Option Nat) (forced : Signedness) : Prop where
  isName : IsName name
  index : ∀ i ∈ index, IsInt64 i
  free : forced = .signless → name ∉ ["true", "false", "as_signed", "as_unsigned"]

section ComparisonText

variable {name : String} {index : Option Nat} {forced : Signedness} {comparison : Comparison}
  {literal : List Char} {n : Nat} {k : Int}

theorem lexes_comparisonText (comparison : Comparison) (hname : NamesField name index forced) (hn : Text.Writes literal n)
    (hk : Text.intLiteral? literal = some k) :
    Lexes (comparisonText name index forced comparison literal).toList
      (comparisonLexemes name index forced comparison (.number (String.ofList literal) k)) := by
  have hrelation := Lexes.comparison comparison (Lexes.literal hn hk)
  -- with a forced signedness the name is between parentheses
  have forcedCase (w : String) (hw : IsName w) :
      Lexes (w.toList ++ '(' :: (name.toList ++ indexText index ++ [')']) ++
          (' ' :: comparison.text.toList ++ ' ' :: literal))
        (.name w :: .openParen :: .name name :: (indexLexemes index ++
          [.closeParen, .comparison comparison, .number (String.ofList literal) k])) := by
    have hclose := Lexes.index hname.index hrelation.closeParen
    have hfield := hclose.name hname.isName (indexText_stops index rfl) (by cases index <;> rfl)
    have := hfield.openParen.name hw (by simp; decide) rfl
    simpa using this
  rw [toList_comparisonText]
  cases forced with
  | signed => exact forcedCase "as_signed" (isName_of_all rfl rfl)
  | unsigned => exact forcedCase "as_unsigned" (isName_of_all rfl rfl)
  | signless =>
    have hindex := Lexes.index hname.index hrelation
    have := hindex.name hname.isName (indexText_stops index rfl) (by cases index <;> rfl)
    simpa [comparisonLexemes] using this

/-- The text of a comparison is read as the comparison with the number that the literal is
    read as. -/
theorem parse_comparisonText (hname : NamesField name index forced) (hn : Text.Writes literal n)
    (hk : Text.intLiteral? literal = some k) :
    Property.parse (comparisonText name index forced comparison literal) =
      .ok (.atom ⟨name, index, forced, comparison, k⟩) := by
  obtain ⟨tokens, htokens, hlexemes⟩ := lexes_comparisonText comparison hname hn hk 0
  have hindex := indexLexemes_index index
  have hparse : ofTokens tokens = .ok (.atom ⟨name, index, forced, comparison, k⟩) := by
    rw [ofTokens_iff, hlexemes]
    refine .alone ?_
    -- a first word that is no operator and no constant is taken for a field
    cases forced with
    | signless =>
      have hfree := hname.free rfl
      simp only [List.mem_cons, List.not_mem_nil, or_false, not_or] at hfree
      have hrole : Role.Taken [] name .field := by
        simp [Role.Taken, Role.ofWord, hfree]
      exact .field comparison (String.ofList literal) k hrole hindex
    | signed =>
      have hrole : Role.Taken [] "as_signed" (.forcing .signed) := by
        rw [Role.Taken]
        decide
      exact .forced name comparison (String.ofList literal) k hrole hindex
    | unsigned =>
      have hrole : Role.Taken [] "as_unsigned" (.forcing .unsigned) := by
        rw [Role.Taken]
        decide
      exact .forced name comparison (String.ofList literal) k hrole hindex
  exact parse_eq_ok_iff.2 ⟨tokens, htokens, hparse, rfl⟩

end ComparisonText

end Property

/-! ## Outcomes -/

namespace Atomic

open RefineCheck.Property

/-- Whether a comparison of words of a width keeps its meaning when the number is passed on as the
    reader does. This is so below `2 ^ 63`; above, equality at full width looks at the bits only,
    and at smaller widths no word is equal to a negative number far enough from zero. -/
def KeepsMeaning (comparison : Comparison) (n w : Nat) : Prop :=
  n < Text.int64Bound ∨
    ((comparison = .eq ∨ comparison = .ne) ∧ (w = 64 ∨ n + 2 ^ (w - 1) < Text.uint64Bound))

/-- A word that is read for equality with the number behind a large literal. -/
theorem readAs_eq_sub_iff {n w : Nat} (hw : w ≤ Word.maxWidth) (hlarge : Text.int64Bound ≤ n)
    (hn : n < Text.uint64Bound) (hp : w = 64 ∨ n + 2 ^ (w - 1) < Text.uint64Bound) (x : BitVec w) :
    readAs ((n : Int) - Text.uint64Bound) x = (n : Int) - Text.uint64Bound ↔ (x.toNat : Int) = n := by
  have hneg : ¬ 0 ≤ (n : Int) - Text.uint64Bound := by omega
  rw [readAs, if_neg hneg]
  rcases hp with rfl | hsmall
  · -- at full width the literal and the number it is read as have the same bits
    have hlt := x.isLt
    rw [BitVec.toInt_eq_toNat_cond]
    simp only [Text.int64Bound, Text.uint64Bound] at *
    split <;> omega
  · -- at other widths there is no such word, whether it is read with a sign or without
    have hsigned : -((2 ^ (w - 1) : Nat) : Int) ≤ x.toInt := by
      rw [Nat.cast_pow]
      exact BitVec.le_toInt x
    have hwidth : w ≠ 64 := by
      rintro rfl
      simp only [Text.int64Bound, Text.uint64Bound] at *
      omega
    have hunsigned : x.toNat < 2 ^ 63 :=
      lt_of_lt_of_le x.isLt (Nat.pow_le_pow_right (by decide) (by rw [Word.maxWidth] at hw; omega))
    simp only [Text.int64Bound, Text.uint64Bound] at *
    omega

/-- The number that a literal stands for is equal to a word just if the written number is. -/
theorem readAs_wrapped_iff {comparison : Comparison} {n w : Nat} (hw : w ≤ Word.maxWidth)
    (hn : n < Text.uint64Bound) (hk : KeepsMeaning comparison n w) (x : BitVec w) :
    readAs (Text.wrapped n) x = Text.wrapped n ↔ (x.toNat : Int) = n := by
  rcases Nat.lt_or_ge n Text.int64Bound with hsmall | hlarge
  · rw [Text.wrapped, if_pos hsmall, readAs, if_pos (Int.natCast_nonneg n)]
  · obtain hsmall | ⟨-, hp⟩ := hk
    · omega
    · rw [Text.wrapped, if_neg (Nat.not_lt.2 hlarge)]
      exact readAs_eq_sub_iff hw hlarge hn hp x

/-- A definite outcome of the comparison of an unsigned value with a literal is right for the number
    that the literal writes. -/
theorem outcome_literal {a : Atomic} {value : Value} {n : Nat} (hw : value.width ≤ Word.maxWidth)
    (hn : n < Text.uint64Bound) (hk : KeepsMeaning a.comparison n value.width)
    (hconstant : a.constant = Text.wrapped n) :
    ∃ v, a.outcome .unsigned value = .ok v ∧
      ∀ x ∈ value.val, v.Agrees (a.comparison.Holds x.toNat n) := by
  have hequals {x : BitVec value.width} (hx : x ∈ value.val) :
      (equals a.constant value).Agrees ((x.toNat : Int) = n) := by
    have h := equals_agrees a.constant hw hx
    rwa [hconstant, readAs_wrapped_iff hw hn hk, ← hconstant] at h
  -- an ordering with a number that keeps its meaning is one with the number itself
  have horder (ho : a.comparison ≠ .eq ∧ a.comparison ≠ .ne) {x : BitVec value.width}
      (hx : x ∈ value.val) :
      (order a.comparison value.lower value.upper a.constant).Agrees
        (a.comparison.Holds x.toNat n) := by
    obtain hsmall | ⟨heq | hne, -⟩ := hk
    · rw [hconstant, Text.wrapped, if_pos hsmall]
      exact order_agrees a.comparison ho n (Int.ofNat_le.2 (Reduced.umin_le hx))
        (Int.ofNat_le.2 (Reduced.le_umax hx))
    · exact absurd heq ho.1
    · exact absurd hne ho.2
  rw [outcome.eq_def]
  cases hc : a.comparison with
  | eq => exact ⟨_, rfl, fun x hx => hequals hx⟩
  | ne => exact ⟨_, rfl, fun x hx => Kleene.agrees_not (hequals hx)⟩
  | lt | le | gt | ge =>
    rw [hc] at horder
    exact ⟨_, rfl, fun x hx => horder ⟨by decide, by decide⟩ hx⟩

/-- A comparison whose constant is written in decimal or in hexadecimal is read from its text, and a
    definite outcome for a field that is read as unsigned is right for the written number, as
    long as the comparison keeps its meaning at the width of the field. -/
theorem evaluate_literal {name : String} {index : Option Nat} {forced : Signedness}
    {comparison : Comparison} {literal : List Char} {n : Nat}
    (hname : NamesField name index forced) (hwrites : Text.Writes literal n)
    (hn : n < Text.uint64Bound) :
    ∃ a : Atomic,
      Property.parse (comparisonText name index forced comparison literal) = .ok (.atom a) ∧
      a.name = name ∧ a.index = index ∧ a.forced = forced ∧ a.comparison = comparison ∧
      ∀ s value declared, State.lookup s name index = .ok (value, declared) →
        value.width ≤ Word.maxWidth → a.reading declared = .unsigned →
        KeepsMeaning comparison n value.width →
        ∃ v, a.evaluate s = .ok v ∧ ∀ x ∈ value.val, v.Agrees (comparison.Holds x.toNat n) := by
  refine ⟨⟨name, index, forced, comparison, Text.wrapped n⟩,
    parse_comparisonText hname hwrites (hwrites.intLiteral? hn), rfl, rfl, rfl, rfl, ?_⟩
  intro s value declared hlookup hwidth hreading hk
  obtain ⟨v, hv, hagrees⟩ := outcome_literal
    (a := ⟨name, index, forced, comparison, Text.wrapped n⟩) hwidth hn hk rfl
  refine ⟨v, ?_, hagrees⟩
  rw [evaluate_eq, hlookup, ok_bind, hreading, hv]

/-- All words of four bits are at most fifteen, and so says `as_unsigned(x) <= 0xF`. -/
theorem evaluate_literal_hexadecimal :
    NamesField "x" none .unsigned ∧ Text.Writes ['0', 'x', 'F'] 15 ∧ 15 < Text.uint64Bound ∧
      KeepsMeaning .le 15 4 ∧ ∃ (a : Atomic) (s : State),
        Property.parse (comparisonText "x" none .unsigned .le ['0', 'x', 'F']) = .ok (.atom a) ∧
        s.lookup "x" none = .ok (⟨4, .full 4⟩, .signed) ∧ a.evaluate s = .ok .tt ∧
        ∀ x ∈ Reduced.full 4, (x.toNat : Int) ≤ 15 := by
  have hname : NamesField "x" none .unsigned := ⟨isName_of_all rfl rfl, nofun, nofun⟩
  have hwrites : Text.Writes ['0', 'x', 'F'] 15 :=
    .hexadecimal (.inl rfl) (by decide) (.digit (d := 15) ⟨by decide, .inr rfl⟩ (.nil 15))
  have hk : KeepsMeaning .le 15 4 := .inl (by decide)
  have htext : comparisonText "x" none .unsigned .le ['0', 'x', 'F'] = "as_unsigned(x) <= 0xF" := rfl
  have hread : Property.parse (comparisonText "x" none .unsigned .le ['0', 'x', 'F']) =
      .ok (.atom ⟨"x", none, .unsigned, .le, 15⟩) := by
    rw [htext]
    cbv
  obtain ⟨a, hparse, -, -, -, -, h⟩ :=
    @evaluate_literal "x" none .unsigned .le ['0', 'x', 'F'] 15 hname hwrites (by decide)
  obtain rfl : _ = a := Property.atom.inj (Except.ok.inj (hread.symm.trans hparse))
  have hlookup : State.lookup (.quiet ⟨[.ofValue "x" .signed ⟨4, .full 4⟩]⟩) "x" none =
      .ok (⟨4, .full 4⟩, .signed) := by decide
  obtain ⟨v, hv, hagrees⟩ := h _ _ _ hlookup (by decide) rfl hk
  have htrue : evaluate ⟨"x", none, .unsigned, .le, 15⟩
      (.quiet ⟨[.ofValue "x" .signed ⟨4, .full 4⟩]⟩) = .ok .tt := by decide
  obtain rfl : v = .tt := Except.ok.inj (hv.symm.trans htrue)
  exact ⟨hname, hwrites, by decide, hk, _, _, hparse, hlookup, htrue, fun x hx => (hagrees x hx).1 rfl⟩

/-- The only member of a 64-bit field is zero, which is less than `2 ^ 63`, but the comparison with
    this number is false. -/
theorem evaluate_literal_large :
    Text.Writes "9223372036854775808".toList (2 ^ 63) ∧ ∃ (a : Atomic) (s : State),
      Property.parse "x < 9223372036854775808" = .ok (.atom a) ∧
      s.lookup "x" none = .ok (⟨64, .ofWord 0⟩, .unsigned) ∧ a.evaluate s = .ok .ff ∧
      ∀ x ∈ Reduced.ofWord (0 : BitVec 64), x.toNat < 2 ^ 63 := by
  have hwrites : Text.Writes "9223372036854775808".toList (2 ^ 63) := by
    have h := Text.writes_decimal (2 ^ 63)
    have htext : Nat.toDigits 10 (2 ^ 63) = "9223372036854775808".toList := by cbv
    rwa [htext] at h
  refine ⟨hwrites, ⟨"x", none, .signless, .lt, -9223372036854775808⟩,
    .quiet ⟨[.ofValue "x" .unsigned ⟨64, .ofWord 0⟩]⟩, by cbv, by decide, by decide, ?_⟩
  intro x hx
  have hword : (Reduced.ofWord (0 : BitVec 64)).word? = some 0 := by decide
  rw [Reduced.eq_of_word? hword hx]
  decide

end Atomic

end RefineCheck
