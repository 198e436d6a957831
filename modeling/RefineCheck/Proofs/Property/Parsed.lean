/-
  RefineCheck.Proofs.Property.Parsed

  What every property read from a text satisfies: it is closed, its variables occur with the
  polarity of their fixed points, it binds no reserved name, and its own text can be read back.
-/

import RefineCheck.Proofs.Property.Grammar
import RefineCheck.Proofs.Property.Readable

namespace RefineCheck.Property

/-! ## Tokens -/

/-- A word that does not start with a digit. -/
def IsName (s : String) : Prop :=
  IsWord s ∧ ∀ c ∈ s.toList.head?, Token.isDigitByte c.toNat = false

/-- A number that fits 64 bits with a sign. -/
def IsInt64 (n : Int) : Prop := -(Text.int64Bound : Int) ≤ n ∧ n < Text.int64Bound

/-- What the names and numbers that stand in a text are. -/
def Legitimate : Lexeme → Prop
  | .name s => IsName s
  | .number _ n => IsInt64 n
  | _ => True

/-- All tokens are ones a text can have. -/
def AllLegitimate (tokens : List Token) : Prop := ∀ t ∈ tokens, Legitimate t.lexeme

theorem isWord_takeWhile {c : Char} (hc : Token.isWordChar c = true) (rest : List Char) :
    IsWord (String.ofList (c :: rest.takeWhile Token.isWordChar)) := by
  refine ⟨by simp, fun d hd => ?_⟩
  rw [String.toList_ofList] at hd
  rcases List.mem_cons.1 hd with rfl | hd
  · exact hc
  · exact List.all_eq_true.1 List.all_takeWhile d hd

theorem isInt64_of_intLiteral? {cs : List Char} {n : Int} (h : Text.intLiteral? cs = some n) :
    IsInt64 n := by
  rw [Text.intLiteral?.eq_def] at h
  split at h
  · simp only [Option.bind_eq_bind, Option.bind_eq_some_iff] at h
    obtain ⟨m, -, h⟩ := h
    split at h
    · obtain rfl := Option.some.inj h
      exact ⟨by omega, by rw [Text.int64Bound] at *; omega⟩
    · cases h
  · simp only [Option.bind_eq_bind, Option.bind_eq_some_iff] at h
    obtain ⟨m, -, h⟩ := h
    split at h
    · obtain rfl := Option.some.inj h
      exact ⟨by rw [Text.int64Bound]; omega, by omega⟩
    · split at h
      · obtain rfl := Option.some.inj h
        constructor
        · rw [Text.int64Bound, Text.uint64Bound] at *
          omega
        · rw [Text.int64Bound, Text.uint64Bound] at *
          omega
      · cases h

theorem legitimate_read {offset : Nat} {c : Char} {rest after : List Char} {lexeme : Lexeme}
    (h : Token.read offset c rest = .ok (lexeme, after)) : Legitimate lexeme := by
  rw [Token.read] at h
  split at h
  · rename_i hc
    rw [Bool.and_eq_true, Bool.not_eq_true'] at hc
    simp only at h
    split at h
    · obtain ⟨rfl, -⟩ := Prod.mk.inj (Except.ok.inj h)
      trivial
    · obtain ⟨rfl, -⟩ := Prod.mk.inj (Except.ok.inj h)
      refine ⟨isWord_takeWhile hc.1 rest, fun d hd => ?_⟩
      obtain rfl : c = d := by simpa using hd
      exact hc.2
  · split at h
    · rw [Token.readNumber] at h
      split at h
      · rename_i hvalue
        obtain ⟨rfl, -⟩ := Prod.mk.inj (Except.ok.inj h)
        split at hvalue
        · exact isInt64_of_intLiteral? hvalue
        · cases hvalue
      · cases h
    · split at h
      · rename_i hp
        obtain ⟨rfl, rfl⟩ := Prod.mk.inj (Except.ok.inj h)
        rw [Token.punctuation?.eq_def] at hp
        split at hp <;> simp at hp <;> (obtain ⟨rfl, -⟩ := hp; trivial)
      · cases h

theorem legitimate_readAll {offset : Nat} {cs : List Char} {tokens : List Token}
    (h : Token.readAll offset cs = .ok tokens) : AllLegitimate tokens := by
  induction offset, cs using Token.readAll.induct generalizing tokens with
  | case1 offset =>
    rw [Token.readAll] at h
    obtain rfl := Except.ok.inj h
    exact fun _ ht => by cases ht
  | case2 offset c rest hblank ih =>
    rw [Token.readAll_blank hblank] at h
    exact ih h
  | case3 offset c rest hblank e hread =>
    rw [Token.readAll, if_neg hblank] at h
    split at h
    · cases h
    · rename_i hok
      cases hread.symm.trans hok
  | case4 offset c rest hblank lexeme after hread taken =>
    rename_i ih
    rw [Token.readAll_token (Bool.eq_false_iff.2 hblank) hread, bind_eq_ok] at h
    obtain ⟨tail, htail, h⟩ := h
    obtain rfl := pure_eq_ok.1 h
    exact List.forall_mem_cons.2 ⟨legitimate_read hread, ih htail⟩

/-! ## What a parser reads -/

open RefineCheck.Property.Parser

/-- The word that an atomic property starts with. -/
def lead (a : Atomic) : String :=
  match a.forced with
  | .signless => a.name
  | .signed => "as_signed"
  | .unsigned => "as_unsigned"

/-- An atomic property that is read in a scope: the word it starts with is not taken for anything
    else there. -/
structure LegibleAtom (scope : List String) (a : Atomic) : Prop where
  name : IsName a.name
  lead_free : lead a ∉ scope
  lead_ne_true : lead a ≠ "true"
  lead_ne_false : lead a ≠ "false"
  forced : forcedBy (lead a) = a.forced
  constant : IsInt64 a.constant
  index : ∀ i ∈ a.index, IsInt64 i

/-- A property that is read in a scope. -/
def Legible : (scope : List String) → Property → Prop
  | _, .const _ => True
  | scope, .atom a => LegibleAtom scope a
  | scope, .var x => x ∈ scope ∧ IsName x ∧ x ≠ "true" ∧ x ≠ "false"
  | scope, .not p | scope, .next _ p | scope, .eventually _ p | scope, .always _ p =>
    Legible scope p
  | scope, .and p q | scope, .or p q | scope, .holdUntil _ p q | scope, .release _ p q =>
    Legible scope p ∧ Legible scope q
  | scope, .fix _ x p => IsName x ∧ isReserved x = false ∧ Legible (x :: scope) p

theorem Legible.closedUnder {scope : List String} {p : Property} (h : Legible scope p) :
    p.closedUnder scope = true := by
  induction p generalizing scope with
  | const _ | atom _ => rfl
  | var x => simpa [Property.closedUnder] using h.1
  | not p ih | next _ p ih | eventually _ p ih | always _ p ih => exact ih h
  | and p q ihp ihq | or p q ihp ihq | holdUntil _ p q ihp ihq | release _ p q ihp ihq =>
    rw [Property.closedUnder, ihp h.1, ihq h.2]
    rfl
  | fix _ x p ih => exact ih h.2.2

theorem Legible.uses {scope : List String} {p : Property} (h : Legible scope p) :
    p.Uses (fun a => IsWord a.name) (fun x => IsWord x ∧ isReserved x = false)
      (fun x => IsWord x ∧ x ≠ "true" ∧ x ≠ "false") := by
  induction p generalizing scope with
  | const _ => trivial
  | atom a => exact h.name.1
  | var x => exact ⟨h.2.1.1, h.2.2⟩
  | not p ih | next _ p ih | eventually _ p ih | always _ p ih => exact ih h
  | and p q ihp ihq | or p q ihp ihq | holdUntil _ p q ihp ihq | release _ p q ihp ihq =>
    exact ⟨ihp h.1, ihq h.2⟩
  | fix _ x p ih => exact ⟨⟨h.1.1, h.2.1⟩, ih h.2.2⟩

/-! ## What the grammar derives -/

section Derived

variable {scope : List String} {w : String} {index : Option Nat} {ls : List Lexeme}

theorem lead_of_ofWord {a : Atomic} (h : Role.ofWord scope w = .forcing a.forced) : lead a = w := by
  obtain ⟨name, index, forced, c, n⟩ := a
  simp only [Role.ofWord] at h
  cases forced with
  | signless => grind
  | signed =>
    show "as_signed" = w
    grind
  | unsigned =>
    show "as_unsigned" = w
    grind

theorem Index.isInt64 (h : Index index ls) (hls : ∀ l ∈ ls, Legitimate l) :
    ∀ i ∈ index, IsInt64 i := by
  cases h with
  | none =>
    intro i hi
    cases hi
  | some text i =>
    rintro _ ⟨⟩
    exact hls (.number text i) (by simp)

theorem Unary.legible {build : Property → Property} {p : Property} (h : Unary w build)
    (hp : Legible scope p) : Legible scope (build p) := by
  cases h <;> exact hp

theorem Binary.legible {build : Property → Property → Property} {p q : Property} (h : Binary w build)
    (hp : Legible scope p) (hq : Legible scope q) : Legible scope (build p q) := by
  cases h <;> exact ⟨hp, hq⟩

theorem Connective.legible (c : Connective) {p q : Property} (hp : Legible scope p)
    (hq : Legible scope q) : Legible scope (c.build p q) := by
  cases c <;> exact ⟨hp, hq⟩

/-- What is derived from tokens that a text can have is legible. -/
theorem Derives.legible {category : Category} {p : Property}
    (h : Derives Role.Taken category scope ls p) (hls : ∀ l ∈ ls, Legitimate l) :
    Legible scope p := by
  induction h with
  | alone _ ih | chained _ _ ih => exact ih hls
  | pair c _ _ ihp ihq | longer c _ _ ihp ihq =>
    simp only [List.forall_mem_append, List.forall_mem_cons] at hls
    exact c.legible (ihp hls.1) (ihq hls.2.2)
  | const _ => trivial
  | @var scope w hw =>
    have hrole : Role.ofWord scope w = .bound := hw
    -- a word that is bound is none of the constants
    have hmem : w ∈ scope ∧ w ≠ "true" ∧ w ≠ "false" := by
      simp only [Role.ofWord] at hrole
      grind
    exact ⟨hmem.1, hls (.name w) List.mem_cons_self, hmem.2⟩
  | field c text n hw hindex =>
    simp only [List.forall_mem_append, List.forall_mem_cons] at hls
    obtain ⟨hfree, htrue, hfalse⟩ := free_of_ofWord hw (.inl rfl)
    exact ⟨hls.1, hfree, htrue, hfalse, forcedBy_of_field hw, hls.2.2.2.1, hindex.isInt64 hls.2.1⟩
  | @forced scope w s index _ name c text n hw hindex =>
    simp only [List.forall_mem_append, List.forall_mem_cons] at hls
    obtain ⟨-, -, hname, helement, -, -, hn, -⟩ := hls
    obtain ⟨hfree, htrue, hfalse⟩ := free_of_ofWord hw (.inr ⟨_, rfl⟩)
    -- the word that the text of the comparison starts with is the forcing one
    have hlead : lead ⟨name, index, s, c, n⟩ = w := lead_of_ofWord hw
    refine ⟨hname, ?_, ?_, ?_, ?_, hn, hindex.isInt64 helement⟩
    · rwa [hlead]
    · rwa [hlead]
    · rwa [hlead]
    · rw [hlead]
      exact (forcedBy_of_forcing hw).1
  | unary hw _ ih =>
    simp only [List.forall_mem_append, List.forall_mem_cons] at hls
    exact hw.legible (ih hls.2.2.1)
  | binary hw _ _ ihp ihq =>
    simp only [List.forall_mem_append, List.forall_mem_cons] at hls
    obtain ⟨-, -, hp, -, hq, -⟩ := hls
    exact hw.legible (ihp hp) (ihq hq)
  | fix kind hx _ ih =>
    simp only [List.forall_mem_append, List.forall_mem_cons] at hls
    obtain ⟨-, -, hname, -, hp, -⟩ := hls
    exact ⟨hname, Bool.eq_false_iff.2 (mt isReserved_iff.1 hx), ih hp⟩
  | not _ ih =>
    simp only [List.forall_mem_append, List.forall_mem_cons] at hls
    exact ih hls.2.2.1
  | paren _ ih =>
    simp only [List.forall_mem_append, List.forall_mem_cons] at hls
    exact ih hls.2.1

end Derived

/-- What the grammar derives from the tokens of a text is legible. -/
theorem legible_of_derives {text : String} {tokens : List Token} {p : Property}
    (htokens : Token.ofText text = .ok tokens)
    (h : Derives Role.Taken .property [] (tokens.map Token.lexeme) p) : Legible [] p := by
  apply h.legible
  rw [List.forall_mem_map]
  exact legitimate_readAll htokens

/-- A text that is a property is legible, and its variables have the polarity of their fixed
    points. -/
theorem legible_of_parse {text : String} {p : Property} (h : Property.parse text = .ok p) :
    Legible [] p ∧ negatedVariable? false [] p = none := by
  obtain ⟨tokens, htokens, hp, hpolarity⟩ := parse_eq_ok_iff.1 h
  exact ⟨legible_of_derives htokens (derives_of_ofTokens hp), hpolarity⟩

/-- What holds of every property that is read from a text. -/
structure Parsed (p : Property) : Prop where
  closed : p.isClosed = true
  polarity : negatedVariable? false [] p = none
  unreserved : p.Unreserved
  wellNamed : p.WellNamed

theorem parsed_of_parse {text : String} {p : Property} (h : Property.parse text = .ok p) :
    Parsed p := by
  obtain ⟨hlegible, hpolarity⟩ := legible_of_parse h
  exact ⟨hlegible.closedUnder, hpolarity,
    hlegible.uses.imp (fun _ _ => trivial) (fun _ h => h.2) (fun _ _ => trivial),
    hlegible.uses.imp (fun _ h => h) (fun _ h => h.1) (fun _ h => h)⟩

end RefineCheck.Property
