/-
  RefineCheck.Proofs.Property.Grammar

  The grammar of properties over the tokens of a text, and the first half of the parser's
  agreement with it: what the parser reads is derived from the tokens it takes.

  The words of a text overlap, for a fixed point may call its variable `true` or `as_signed`.
  How an identifier is understood is therefore a parameter of the grammar.
-/

import RefineCheck.Property.Parser
import RefineCheck.Proofs.Result

namespace RefineCheck.Property

open RefineCheck.Property.Parser

/-! ## Words -/

/-- What an identifier stands for where an expression starts. -/
inductive Role
  | constant (value : Bool)
  /-- The variable of an enclosing fixed point. -/
  | bound
  /-- Forces the signedness of the field in the parentheses behind it. -/
  | forcing (signedness : Signedness)
  | field
deriving DecidableEq, Repr

namespace Role

/-- Every role that the spelling of a word or its scope gives it. -/
def Possible (scope : List String) (word : String) : Role → Prop
  | .constant value => word = if value then "true" else "false"
  | .bound => word ∈ scope
  | .forcing .signed => word = "as_signed"
  | .forcing .unsigned => word = "as_unsigned"
  | .forcing .signless => False
  | .field =>
    word ≠ "true" ∧ word ≠ "false" ∧ word ∉ scope ∧ word ≠ "as_signed" ∧ word ≠ "as_unsigned"

/-- The one role in which a word is taken: the constants come first, then the variables of the
    scope, and then the words that force a signedness. -/
def ofWord (scope : List String) (word : String) : Role :=
  if word = "true" then .constant true
  else if word = "false" then .constant false
  else if word ∈ scope then .bound
  else if word = "as_signed" then .forcing .signed
  else if word = "as_unsigned" then .forcing .unsigned
  else .field

/-- A word is taken in its first role only. -/
def Taken (scope : List String) (word : String) (role : Role) : Prop := ofWord scope word = role

end Role

/-! ## The grammar -/

/-- The connectives that make chains. -/
inductive Connective
  | and | or
deriving DecidableEq, Repr

namespace Connective

/-- The lexeme of the connective. -/
def lexeme : Connective → Lexeme
  | .and => .and
  | .or => .or

/-- The property that the connective joins two into. -/
def build : Connective → Property → Property → Property
  | .and => .and
  | .or => .or

end Connective

/-- An optional index, which is not negative, in square brackets. -/
inductive Index : Option Nat → List Lexeme → Prop
  | none : Index none []
  | some (text : String) (i : Nat) :
    Index (some i) [.openSquare, .number text i, .closeSquare]

/-- The invocations with one operand. -/
inductive Unary : String → (Property → Property) → Prop
  | next (paths : Paths) : Unary (paths.text ++ "X") (.next paths)
  | eventually (paths : Paths) : Unary (paths.text ++ "F") (.eventually paths)
  | always (paths : Paths) : Unary (paths.text ++ "G") (.always paths)

/-- The invocations with two operands. -/
inductive Binary : String → (Property → Property → Property) → Prop
  | holdUntil (paths : Paths) : Binary (paths.text ++ "U") (.holdUntil paths)
  | release (paths : Paths) : Binary (paths.text ++ "R") (.release paths)

/-- What a derivation reads. -/
inductive Category
  | expression
  /-- Two expressions or more, joined by one connective. -/
  | chain (c : Connective)
  | property

/-- The properties that are written by lists of tokens. The scope has the variables of the
    enclosing fixed points, and `R` tells how words are understood. -/
inductive Derives (R : List String → String → Role → Prop) :
    Category → (scope : List String) → List Lexeme → Property → Prop
  -- a property is one expression, or a chain that leans to the left
  | alone {scope ls p} : Derives R .expression scope ls p → Derives R .property scope ls p
  | chained {scope ls p} (c : Connective) :
    Derives R (.chain c) scope ls p → Derives R .property scope ls p
  | pair {scope ls ms p q} (c : Connective) :
    Derives R .expression scope ls p → Derives R .expression scope ms q →
    Derives R (.chain c) scope (ls ++ c.lexeme :: ms) (c.build p q)
  | longer {scope ls ms p q} (c : Connective) :
    Derives R (.chain c) scope ls p → Derives R .expression scope ms q →
    Derives R (.chain c) scope (ls ++ c.lexeme :: ms) (c.build p q)
  -- expressions that a word starts
  | const {scope w value} : R scope w (.constant value) →
    Derives R .expression scope [.name w] (.const value)
  | var {scope w} : R scope w .bound → Derives R .expression scope [.name w] (.var w)
  | field {scope w index ls} (c : Comparison) (text : String) (n : Int) :
    R scope w .field → Index index ls →
    Derives R .expression scope (.name w :: (ls ++ [.comparison c, .number text n]))
      (.atom ⟨w, index, .signless, c, n⟩)
  | forced {scope w s index ls} (name : String) (c : Comparison) (text : String) (n : Int) :
    R scope w (.forcing s) → Index index ls →
    Derives R .expression scope
      (.name w :: .openParen :: .name name :: (ls ++ [.closeParen, .comparison c, .number text n]))
      (.atom ⟨name, index, s, c, n⟩)
  -- expressions with properties inside, which brackets keep apart from what follows
  | unary {scope w build ls p} : Unary w build → Derives R .property scope ls p →
    Derives R .expression scope (.invocation w :: .openSquare :: (ls ++ [.closeSquare])) (build p)
  | binary {scope w build ls ms p q} : Binary w build → Derives R .property scope ls p →
    Derives R .property scope ms q →
    Derives R .expression scope
      (.invocation w :: .openSquare :: (ls ++ .comma :: (ms ++ [.closeSquare]))) (build p q)
  | fix {scope x ls p} (kind : Extremum) : ¬ ['_', '_'] <+: x.toList →
    Derives R .property (x :: scope) ls p →
    Derives R .expression scope
      (.invocation kind.text :: .openSquare :: .name x :: .comma :: (ls ++ [.closeSquare]))
      (.fix kind x p)
  | not {scope ls p} : Derives R .property scope ls p →
    Derives R .expression scope (.exclamation :: .openParen :: (ls ++ [.closeParen])) (.not p)
  | paren {scope ls p} : Derives R .property scope ls p →
    Derives R .expression scope (.openParen :: (ls ++ [.closeParen])) p

/-! ## Words and operators of the parser -/

theorem isReserved_iff {x : String} : isReserved x = true ↔ ['_', '_'] <+: x.toList := by
  rw [isReserved]
  split
  · rename_i cs hx
    rw [hx]
    exact ⟨fun _ => ⟨cs, rfl⟩, fun _ => rfl⟩
  · rename_i hx
    constructor
    · intro h
      cases h
    · rintro ⟨cs, hcs⟩
      exact absurd hcs.symm (hx cs)

theorem extremum?_eq_some {w : String} {kind : Extremum} :
    extremum? w = some kind ↔ w = kind.text := by
  constructor
  · intro h
    rw [extremum?.eq_def] at h
    split at h <;> simp at h <;> (subst h; rfl)
  · rintro rfl
    cases kind <;> rfl

theorem unary_iff {w : String} {build : Property → Property} :
    operator? w = some (.unary build) ↔ Unary w build := by
  constructor
  · intro h
    rw [operator?.eq_def] at h
    split at h <;> simp at h <;> subst h
    · exact .next .all
    · exact .next .some
    · exact .eventually .all
    · exact .eventually .some
    · exact .always .all
    · exact .always .some
  · intro h
    cases h with
    | next paths => cases paths <;> rfl
    | eventually paths => cases paths <;> rfl
    | always paths => cases paths <;> rfl

theorem binary_iff {w : String} {build : Property → Property → Property} :
    operator? w = some (.binary build) ↔ Binary w build := by
  constructor
  · intro h
    rw [operator?.eq_def] at h
    split at h <;> simp at h <;> subst h
    · exact .holdUntil .all
    · exact .holdUntil .some
    · exact .release .all
    · exact .release .some
  · intro h
    cases h with
    | holdUntil paths => cases paths <;> rfl
    | release paths => cases paths <;> rfl

/-- No operator is called like a fixed point. -/
theorem extremum?_of_operator {w : String} {op : Parser.Operator} (h : operator? w = some op) :
    extremum? w = none := by
  rw [operator?.eq_def] at h
  split at h
  all_goals first | rfl | cases h

/-- The parser asks for the roles of a word in their order. -/
theorem expression_name (fuel : Nat) (scope : List String) (w : String) (i : Nat)
    (rest : List Token) :
    expression (fuel + 1) scope (⟨.name w, i⟩ :: rest) =
      match Role.ofWord scope w with
      | .constant value => .ok (.const value, rest)
      | .bound => .ok (.var w, rest)
      | .forcing _ | .field => do
        let (a, rest) ← atomic w rest
        return (.atom a, rest) := by
  simp only [expression, Role.ofWord, List.contains_iff_mem]
  by_cases htrue : w = "true"
  · simp only [if_pos htrue]
  by_cases hfalse : w = "false"
  · simp only [if_neg htrue, if_pos hfalse]
  by_cases hbound : w ∈ scope
  · simp only [if_neg htrue, if_neg hfalse, if_pos hbound]
  simp only [if_neg htrue, if_neg hfalse, if_neg hbound]
  by_cases hsigned : w = "as_signed"
  · simp only [if_pos hsigned]
  by_cases hunsigned : w = "as_unsigned"
  · simp only [if_neg hsigned, if_pos hunsigned]
  · simp only [if_neg hsigned, if_neg hunsigned]

/-- A word that starts an atomic property is nothing else in its scope. -/
theorem free_of_ofWord {scope : List String} {w : String} {role : Role}
    (h : Role.ofWord scope w = role) (hrole : role = .field ∨ ∃ s, role = .forcing s) :
    w ∉ scope ∧ w ≠ "true" ∧ w ≠ "false" := by
  simp only [Role.ofWord] at h
  grind

theorem ofWord_of_free {scope : List String} {w : String} (hfree : w ∉ scope) (htrue : w ≠ "true")
    (hfalse : w ≠ "false") :
    Role.ofWord scope w = if forcedBy w = .signless then .field else .forcing (forcedBy w) := by
  rw [Role.ofWord, if_neg htrue, if_neg hfalse, if_neg hfree]
  by_cases hsigned : w = "as_signed"
  · rw [hsigned]
    rfl
  by_cases hunsigned : w = "as_unsigned"
  · rw [hunsigned]
    rfl
  have hforced : forcedBy w = .signless := by
    rw [forcedBy.eq_def]
    split
    · exact absurd rfl hsigned
    · exact absurd rfl hunsigned
    · rfl
  rw [if_neg hsigned, if_neg hunsigned, if_pos hforced]

theorem forcedBy_of_field {scope : List String} {w : String} (h : Role.ofWord scope w = .field) :
    forcedBy w = .signless := by
  obtain ⟨hfree, htrue, hfalse⟩ := free_of_ofWord h (.inl rfl)
  rw [ofWord_of_free hfree htrue hfalse] at h
  split at h
  · assumption
  · cases h

theorem forcedBy_of_forcing {scope : List String} {w : String} {s : Signedness}
    (h : Role.ofWord scope w = .forcing s) : forcedBy w = s ∧ s ≠ .signless := by
  obtain ⟨hfree, htrue, hfalse⟩ := free_of_ofWord h (.inr ⟨s, rfl⟩)
  rw [ofWord_of_free hfree htrue hfalse] at h
  split at h
  · cases h
  · obtain rfl := Role.forcing.inj h
    exact ⟨rfl, by assumption⟩

/-! ## What the parser reads -/

section Leaves

variable {tokens rest : List Token}

theorem expect_eq_ok {wanted : Lexeme} {context : String}
    (h : expect wanted context tokens = .ok ((), rest)) :
    tokens.map Token.lexeme = wanted :: rest.map Token.lexeme := by
  cases tokens with
  | nil => cases h
  | cons t tokens =>
    rw [expect] at h
    split at h
    · rename_i ht
      obtain rfl : tokens = rest := by simpa using h
      rw [List.map_cons, ht]
    · cases h

theorem expectName_eq_ok {context s : String} {t : Token}
    (h : expectName context tokens = .ok ((s, t), rest)) :
    tokens.map Token.lexeme = .name s :: rest.map Token.lexeme := by
  rw [expectName.eq_def] at h
  split at h
  · rename_i s' i rest'
    obtain ⟨⟨rfl, -⟩, rfl⟩ : (s' = s ∧ _) ∧ rest' = rest := by simpa using h
    rfl
  · cases h

theorem expectNumber_eq_ok {context : String} {n : Int} {t : Token}
    (h : expectNumber context tokens = .ok ((n, t), rest)) :
    ∃ text, tokens.map Token.lexeme = .number text n :: rest.map Token.lexeme := by
  rw [expectNumber.eq_def] at h
  split at h
  · rename_i text n' i rest'
    obtain ⟨⟨rfl, -⟩, rfl⟩ : (n' = n ∧ _) ∧ rest' = rest := by simpa using h
    exact ⟨text, rfl⟩
  · cases h

theorem expectComparison_eq_ok {context : String} {c : Comparison}
    (h : expectComparison context tokens = .ok (c, rest)) :
    tokens.map Token.lexeme = .comparison c :: rest.map Token.lexeme := by
  rw [expectComparison.eq_def] at h
  split at h
  · rename_i c' i rest'
    obtain ⟨rfl, rfl⟩ : c' = c ∧ rest' = rest := by simpa using h
    rfl
  · cases h

theorem index?_eq_ok {index : Option Nat} (h : index? tokens = .ok (index, rest)) :
    ∃ ls, Index index ls ∧ tokens.map Token.lexeme = ls ++ rest.map Token.lexeme := by
  rw [index?.eq_def] at h
  split at h
  · simp only [bind_eq_ok] at h
    obtain ⟨⟨⟨n, t⟩, r⟩, hnumber, h⟩ := h
    obtain ⟨text, htext⟩ := expectNumber_eq_ok hnumber
    split at h
    · cases h
    · rename_i hneg
      have hn : (n.toNat : Int) = n := Int.toNat_of_nonneg (by simpa using hneg)
      simp only [bind_eq_ok, pure_eq_ok] at h
      obtain ⟨⟨⟨⟩, r'⟩, hclose, h⟩ := h
      obtain ⟨rfl, rfl⟩ := Prod.mk.inj h
      refine ⟨_, .some text n.toNat, ?_⟩
      rw [List.map_cons, htext, expect_eq_ok hclose, hn]
      rfl
  · obtain ⟨rfl, rfl⟩ := Prod.mk.inj (Except.ok.inj h)
    exact ⟨[], .none, rfl⟩

/-- Behind the name of a field come its index, a comparison and a number. -/
theorem atomic_eq_ok_of_signless {w : String} {a : Atomic} (hw : forcedBy w = .signless)
    (h : atomic w tokens = .ok (a, rest)) :
    ∃ index ls c text n, Index index ls ∧ a = ⟨w, index, .signless, c, n⟩ ∧
      tokens.map Token.lexeme = ls ++ .comparison c :: .number text n :: rest.map Token.lexeme := by
  rw [atomic] at h
  simp only [hw, if_true, bind_eq_ok, pure_eq_ok] at h
  obtain ⟨_, rfl, ⟨index, r⟩, hindex, _, rfl, ⟨c, r'⟩, hc, ⟨⟨n, t⟩, r''⟩, hn, h⟩ := h
  obtain ⟨rfl, rfl⟩ := Prod.mk.inj h
  obtain ⟨ls, hls, htokens⟩ := index?_eq_ok hindex
  obtain ⟨text, htext⟩ := expectNumber_eq_ok hn
  refine ⟨index, ls, c, text, n, hls, rfl, ?_⟩
  rw [htokens, expectComparison_eq_ok hc, htext]

/-- Behind a word that forces a signedness the field is in parentheses. -/
theorem atomic_eq_ok_of_forced {w : String} {a : Atomic} (hw : forcedBy w ≠ .signless)
    (h : atomic w tokens = .ok (a, rest)) :
    ∃ name index ls c text n, Index index ls ∧ a = ⟨name, index, forcedBy w, c, n⟩ ∧
      tokens.map Token.lexeme = .openParen :: .name name ::
        (ls ++ .closeParen :: .comparison c :: .number text n :: rest.map Token.lexeme) := by
  rw [atomic] at h
  simp only [hw, if_false, bind_eq_ok, pure_eq_ok] at h
  obtain ⟨⟨⟨⟩, t1⟩, hopen, ⟨⟨name, t⟩, t2⟩, hname, _, rfl, ⟨index, t3⟩, hindex, ⟨⟨⟩, t4⟩, hclose, _,
    rfl, ⟨c, t5⟩, hc, ⟨⟨n, u⟩, t6⟩, hn, h⟩ := h
  obtain ⟨rfl, rfl⟩ := Prod.mk.inj h
  obtain ⟨ls, hls, htokens⟩ := index?_eq_ok hindex
  obtain ⟨text, htext⟩ := expectNumber_eq_ok hn
  refine ⟨name, index, ls, c, text, n, hls, rfl, ?_⟩
  rw [expect_eq_ok hopen, expectName_eq_ok hname, htokens, expect_eq_ok hclose,
    expectComparison_eq_ok hc, htext]

end Leaves

/-- What a reader reads is derived from the tokens it takes. -/
def Follows (category : Category) (scope : List String) (reader : Reader Property) : Prop :=
  ∀ tokens p rest, reader tokens = .ok (p, rest) →
    ∃ ls, tokens.map Token.lexeme = ls ++ rest.map Token.lexeme ∧
      Derives Role.Taken category scope ls p

/-- A chain of one expression or more. -/
def Begun (c : Connective) (scope : List String) (ls : List Lexeme) (p : Property) : Prop :=
  Derives Role.Taken .expression scope ls p ∨ Derives Role.Taken (.chain c) scope ls p

theorem Begun.property {c : Connective} {scope : List String} {ls : List Lexeme} {p : Property}
    (h : Begun c scope ls p) : Derives Role.Taken .property scope ls p :=
  h.elim .alone (.chained c)

theorem Begun.step {c : Connective} {scope : List String} {ls ms : List Lexeme} {p q : Property}
    (h : Begun c scope ls p) (hq : Derives Role.Taken .expression scope ms q) :
    Begun c scope (ls ++ c.lexeme :: ms) (c.build p q) :=
  .inr (h.elim (fun hp => .pair c hp hq) (fun hp => .longer c hp hq))

/-- The readers read by the grammar with some fuel, in every scope. -/
structure FollowsWith (fuel : Nat) : Prop where
  property (scope : List String) : Follows .property scope (Parser.property fuel scope)
  chain {c : Connective} {scope : List String} {ls : List Lexeme} {left : Property}
    (hleft : Begun c scope ls left) {tokens rest : List Token} {p : Property}
    (h : Parser.chain fuel scope c.lexeme c.build left tokens = .ok (p, rest)) :
    ∃ ms, tokens.map Token.lexeme = ms ++ rest.map Token.lexeme ∧
      Derives Role.Taken .property scope (ls ++ ms) p
  expression (scope : List String) : Follows .expression scope (Parser.expression fuel scope)

section Step

variable {fuel i : Nat} {scope : List String} {w : String} {tokens rest : List Token} {p : Property}

theorem FollowsWith.property_succ (ih : FollowsWith fuel) :
    Follows .property scope (Parser.property (fuel + 1) scope) := by
  intro tokens p rest h
  simp only [Parser.property, bind_eq_ok] at h
  obtain ⟨⟨first, r⟩, hfirst, h⟩ := h
  obtain ⟨ls, htokens, hls⟩ := ih.expression scope tokens first r hfirst
  -- the connective behind the first expression decides on the chain
  split at h
  · obtain ⟨ms, hr, hms⟩ := ih.chain (c := .and) (.inl hls) h
    exact ⟨ls ++ ms, by rw [htokens, hr, List.append_assoc], hms⟩
  · obtain ⟨ms, hr, hms⟩ := ih.chain (c := .or) (.inl hls) h
    exact ⟨ls ++ ms, by rw [htokens, hr, List.append_assoc], hms⟩
  · obtain ⟨rfl, rfl⟩ := Prod.mk.inj (pure_eq_ok.1 h)
    exact ⟨ls, htokens, .alone hls⟩

theorem FollowsWith.chain_succ (ih : FollowsWith fuel) {c : Connective} {ls : List Lexeme}
    {left : Property} (hleft : Begun c scope ls left)
    (h : Parser.chain (fuel + 1) scope c.lexeme c.build left tokens = .ok (p, rest)) :
    ∃ ms, tokens.map Token.lexeme = ms ++ rest.map Token.lexeme ∧
      Derives Role.Taken .property scope (ls ++ ms) p := by
  have hstop (hp : left = p) (hrest : tokens = rest) :
      ∃ ms, tokens.map Token.lexeme = ms ++ rest.map Token.lexeme ∧
        Derives Role.Taken .property scope (ls ++ ms) p := by
    subst hp hrest
    exact ⟨[], rfl, by rw [List.append_nil]; exact hleft.property⟩
  rw [Parser.chain.eq_def] at h
  simp only at h
  split at h
  · rename_i t tail
    split at h
    · rename_i ht
      simp only [bind_eq_ok] at h
      obtain ⟨⟨right, r⟩, hright, h⟩ := h
      obtain ⟨ms, htail, hms⟩ := ih.expression scope tail right r hright
      -- the longer chain is the left operand of what follows
      obtain ⟨ns, hr, hns⟩ := ih.chain (hleft.step hms) h
      refine ⟨c.lexeme :: ms ++ ns, ?_, by simpa using hns⟩
      rw [List.map_cons, ht, htail, hr]
      simp
    · obtain ⟨hp, hrest⟩ := Prod.mk.inj (Except.ok.inj h)
      exact hstop hp hrest
  · obtain ⟨hp, hrest⟩ := Prod.mk.inj (Except.ok.inj h)
    exact hstop hp hrest

/-- A name is read in its role. -/
theorem follows_name (h : Parser.expression (fuel + 1) scope (⟨.name w, i⟩ :: tokens) = .ok (p, rest)) :
    ∃ ls, .name w :: tokens.map Token.lexeme = ls ++ rest.map Token.lexeme ∧
      Derives Role.Taken .expression scope ls p := by
  rw [expression_name] at h
  cases hrole : Role.ofWord scope w with
  | constant value =>
    simp only [hrole] at h
    obtain ⟨rfl, rfl⟩ := Prod.mk.inj (Except.ok.inj h)
    exact ⟨[.name w], rfl, .const hrole⟩
  | bound =>
    simp only [hrole] at h
    obtain ⟨rfl, rfl⟩ := Prod.mk.inj (Except.ok.inj h)
    exact ⟨[.name w], rfl, .var hrole⟩
  | field =>
    simp only [hrole, bind_eq_ok, pure_eq_ok] at h
    obtain ⟨⟨a, r⟩, ha, h⟩ := h
    obtain ⟨rfl, rfl⟩ := Prod.mk.inj h
    obtain ⟨index, ls, c, text, n, hls, rfl, htokens⟩ :=
      atomic_eq_ok_of_signless (forcedBy_of_field hrole) ha
    exact ⟨_, by rw [htokens]; simp, .field c text n hrole hls⟩
  | forcing s =>
    simp only [hrole, bind_eq_ok, pure_eq_ok] at h
    obtain ⟨⟨a, r⟩, ha, h⟩ := h
    obtain ⟨rfl, rfl⟩ := Prod.mk.inj h
    obtain ⟨hs, hne⟩ := forcedBy_of_forcing hrole
    obtain ⟨name, index, ls, c, text, n, hls, rfl, htokens⟩ :=
      atomic_eq_ok_of_forced (by rwa [hs]) ha
    rw [hs]
    exact ⟨_, by rw [htokens]; simp, .forced name c text n hrole hls⟩

/-- An invocation is a fixed point, whose variable joins the scope, or a temporal operator. -/
theorem FollowsWith.follows_invocation (ih : FollowsWith fuel)
    (h : Parser.expression (fuel + 1) scope (⟨.invocation w, i⟩ :: tokens) = .ok (p, rest)) :
    ∃ ls, .invocation w :: tokens.map Token.lexeme = ls ++ rest.map Token.lexeme ∧
      Derives Role.Taken .expression scope ls p := by
  simp only [Parser.expression] at h
  split at h
  · rename_i kind hkind
    obtain rfl := extremum?_eq_some.1 hkind
    simp only [bind_eq_ok] at h
    obtain ⟨⟨⟨⟩, t1⟩, hopen, ⟨⟨x, t⟩, t2⟩, hname, h⟩ := h
    split at h
    · cases h
    · rename_i hreserved
      simp only [bind_eq_ok, pure_eq_ok] at h
      -- the body is the only part that is read in a larger scope
      obtain ⟨⟨⟨⟩, t3⟩, hcomma, ⟨q, t4⟩, hq, ⟨⟨⟩, t5⟩, hclose, h⟩ := h
      obtain ⟨rfl, rfl⟩ := Prod.mk.inj h
      obtain ⟨ls, hbody, hls⟩ := ih.property (x :: scope) t3 q t4 hq
      refine ⟨_, ?_, .fix kind (mt isReserved_iff.2 hreserved) hls⟩
      rw [expect_eq_ok hopen, expectName_eq_ok hname, expect_eq_ok hcomma, hbody,
        expect_eq_ok hclose]
      simp
  · rename_i build _ hop
    simp only [bind_eq_ok, pure_eq_ok] at h
    obtain ⟨⟨⟨⟩, t1⟩, hopen, ⟨q, t2⟩, hq, ⟨⟨⟩, t3⟩, hclose, h⟩ := h
    obtain ⟨rfl, rfl⟩ := Prod.mk.inj h
    obtain ⟨ls, hbody, hls⟩ := ih.property scope t1 q t2 hq
    refine ⟨_, ?_, .unary (unary_iff.1 hop) hls⟩
    rw [expect_eq_ok hopen, hbody, expect_eq_ok hclose]
    simp
  · rename_i build _ hop
    simp only [bind_eq_ok, pure_eq_ok] at h
    obtain ⟨⟨⟨⟩, t1⟩, hopen, ⟨q, t2⟩, hq, ⟨⟨⟩, t3⟩, hcomma, ⟨r, t4⟩, hr, ⟨⟨⟩, t5⟩, hclose, h⟩ := h
    obtain ⟨rfl, rfl⟩ := Prod.mk.inj h
    obtain ⟨ls, hleft, hls⟩ := ih.property scope t1 q t2 hq
    obtain ⟨ms, hright, hms⟩ := ih.property scope t3 r t4 hr
    refine ⟨_, ?_, .binary (binary_iff.1 hop) hls hms⟩
    rw [expect_eq_ok hopen, hleft, expect_eq_ok hcomma, hright, expect_eq_ok hclose]
    simp
  · cases h

theorem FollowsWith.expression_succ (ih : FollowsWith fuel) :
    Follows .expression scope (Parser.expression (fuel + 1) scope) := by
  intro tokens p rest h
  match tokens with
  | [] => cases h
  | ⟨.name w, i⟩ :: tail => exact follows_name h
  | ⟨.invocation w, i⟩ :: tail => exact ih.follows_invocation h
  | ⟨.exclamation, i⟩ :: tail =>
    simp only [Parser.expression, bind_eq_ok, pure_eq_ok] at h
    obtain ⟨⟨⟨⟩, t1⟩, hopen, ⟨q, t2⟩, hq, ⟨⟨⟩, t3⟩, hclose, h⟩ := h
    obtain ⟨rfl, rfl⟩ := Prod.mk.inj h
    obtain ⟨ls, hbody, hls⟩ := ih.property scope t1 q t2 hq
    refine ⟨_, ?_, .not hls⟩
    rw [List.map_cons, expect_eq_ok hopen, hbody, expect_eq_ok hclose]
    simp
  | ⟨.openParen, i⟩ :: tail =>
    simp only [Parser.expression, bind_eq_ok, pure_eq_ok] at h
    obtain ⟨⟨q, t2⟩, hq, ⟨⟨⟩, t3⟩, hclose, h⟩ := h
    obtain ⟨rfl, rfl⟩ := Prod.mk.inj h
    obtain ⟨ls, hbody, hls⟩ := ih.property scope tail q t2 hq
    refine ⟨_, ?_, .paren hls⟩
    rw [List.map_cons, hbody, expect_eq_ok hclose]
    simp
  -- no expression starts with any other token
  | ⟨.number _ _, i⟩ :: tail => cases h
  | ⟨.closeParen, i⟩ :: tail | ⟨.openSquare, i⟩ :: tail | ⟨.closeSquare, i⟩ :: tail
  | ⟨.comma, i⟩ :: tail | ⟨.and, i⟩ :: tail | ⟨.or, i⟩ :: tail => cases h
  | ⟨.comparison _, i⟩ :: tail => cases h

end Step

/-- The readers call each other with one unit of fuel less, so one induction serves all three. -/
theorem followsWith (fuel : Nat) : FollowsWith fuel := by
  induction fuel with
  | zero =>
    refine ⟨?_, ?_, ?_⟩
    · intro scope tokens p rest h
      cases h
    · intro c scope ls left hleft tokens rest p h
      cases h
    · intro scope tokens p rest h
      cases h
  | succ fuel ih =>
    exact ⟨fun _ => ih.property_succ, fun hleft => ih.chain_succ hleft,
      fun _ => ih.expression_succ⟩

/-- What is read from a whole list of tokens is derived from it. -/
theorem derives_of_ofTokens {tokens : List Token} {p : Property} (h : ofTokens tokens = .ok p) :
    Derives Role.Taken .property [] (tokens.map Token.lexeme) p := by
  simp only [ofTokens, bind_eq_ok] at h
  obtain ⟨⟨q, rest⟩, hread, hend⟩ := h
  obtain ⟨ls, htokens, hls⟩ := (followsWith _).property [] tokens q rest hread
  split at hend
  · rename_i hrest
    obtain rfl := pure_eq_ok.1 hend
    have hrest : rest = [] := hrest
    rw [htokens, hrest]
    simpa using hls
  · cases hend

/-- A text is read in three stages: its tokens, the property they write, and the test for polarity. -/
theorem parse_eq_ok_iff {text : String} {p : Property} :
    Property.parse text = .ok p ↔
      ∃ tokens, Token.ofText text = .ok tokens ∧ ofTokens tokens = .ok p ∧
        negatedVariable? false [] p = none := by
  simp only [Property.parse, bind_eq_ok]
  constructor
  · rintro ⟨tokens, htokens, q, hq, hp⟩
    split at hp
    · cases hp
    · rename_i hpolarity
      obtain rfl := pure_eq_ok.1 hp
      exact ⟨tokens, mapError_eq_ok htokens, hq, hpolarity⟩
  · rintro ⟨tokens, htokens, hp, hpolarity⟩
    refine ⟨tokens, by rw [htokens]; rfl, p, hp, ?_⟩
    rw [hpolarity]
    rfl

end RefineCheck.Property
