/-
  RefineCheck.Proofs.Property.Accepted

  The second half of the parser's agreement with the grammar: what is derived from some tokens
  is read from them. So a list of tokens has one property at most, and it is the one that the
  parser returns.
-/

import RefineCheck.Proofs.Property.Grammar

namespace RefineCheck.Property

open RefineCheck.Property.Parser

/-! ## What the parser accepts -/

section Leaves

variable {tokens rest r : List Token}

@[simp]
theorem expect_cons (lexeme : Lexeme) (offset : Nat) (context : String) (rest : List Token) :
    expect lexeme context (⟨lexeme, offset⟩ :: rest) = .ok ((), rest) := by
  simp [expect]

theorem index?_append {index : Option Nat} {ls : List Lexeme} (hls : Index index ls)
    (htokens : tokens.map Token.lexeme = ls) (hr : ∀ t ∈ r.head?, t.lexeme ≠ .openSquare) :
    index? (tokens ++ r) = .ok (index, r) := by
  cases hls with
  | none =>
    obtain rfl : tokens = [] := List.map_eq_nil_iff.1 htokens
    rw [List.nil_append, index?.eq_def]
    split
    · exact absurd rfl (hr _ rfl)
    · rfl
  | some text i =>
    simp only [List.map_eq_cons_iff, List.map_eq_nil_iff] at htokens
    obtain ⟨⟨_, a⟩, _, rfl, rfl, ⟨_, b⟩, _, rfl, rfl, ⟨_, c⟩, _, rfl, rfl, rfl⟩ := htokens
    have hneg : ¬ (i : Int) < 0 := by omega
    simp only [List.cons_append, List.nil_append, index?, expectNumber, ok_bind, if_neg hneg,
      expect_cons, Int.toNat_natCast]
    rfl

end Leaves

/-- No connective comes next. -/
def Closes (tokens : List Token) : Prop := ∀ t ∈ tokens.head?, t.lexeme ≠ .and ∧ t.lexeme ≠ .or

theorem closes_nil : Closes [] := fun _ h => by cases h

theorem closes_cons {lexeme : Lexeme} {offset : Nat} {tokens : List Token}
    (h : lexeme ≠ .and ∧ lexeme ≠ .or) : Closes (⟨lexeme, offset⟩ :: tokens) := by
  rintro _ ⟨⟩
  exact h

/-- With two units of fuel for each token what is derived is parsed: an expression whatever follows
    it, a property where no connective does, and a chain up to where it may go on, with at most one
    unit of fuel used for each of its tokens. -/
def Accepted : Category → (scope : List String) → List Lexeme → Property → Prop
  | .expression, scope, ls, p =>
    ∀ tokens rest k, tokens.map Token.lexeme = ls → 2 * tokens.length ≤ k + 1 →
      expression k scope (tokens ++ rest) = .ok (p, rest)
  | .chain c, scope, ls, p =>
    ∀ tokens rest k, tokens.map Token.lexeme = ls → 2 * tokens.length ≤ k →
      ∃ j, k ≤ j + tokens.length ∧
        property k scope (tokens ++ rest) = chain j scope c.lexeme c.build p rest
  | .property, scope, ls, p =>
    ∀ tokens rest k, tokens.map Token.lexeme = ls → 2 * tokens.length ≤ k → Closes rest →
      property k scope (tokens ++ rest) = .ok (p, rest)

theorem Derives.ne_nil {R : List String → String → Role → Prop} {category : Category}
    {scope : List String} {ls : List Lexeme} {p : Property} (h : Derives R category scope ls p) :
    ls ≠ [] := by
  induction h with
  | alone _ ih | chained _ _ ih => exact ih
  | _ => simp

theorem length_pos_of_map {tokens : List Token} {ls : List Lexeme}
    (h : tokens.map Token.lexeme = ls) (hls : ls ≠ []) : 0 < tokens.length := by
  rw [List.length_pos_iff]
  rintro rfl
  exact hls h.symm

section Step

variable {scope : List String} {ls ms : List Lexeme} {p q : Property} {w : String}

theorem Accepted.alone (hp : Accepted .expression scope ls p) (hls : ls ≠ []) :
    Accepted .property scope ls p := by
  intro tokens rest k htokens hk hrest
  have hpos := length_pos_of_map htokens hls
  obtain ⟨k, rfl⟩ : ∃ j, k = j + 1 := ⟨k - 1, by omega⟩
  rw [property, hp tokens rest k htokens hk]
  simp only [ok_bind]
  -- a connective behind the expression would have begun a chain
  split
  · exact absurd rfl (hrest _ rfl).1
  · exact absurd rfl (hrest _ rfl).2
  · rfl

theorem Accepted.chained {c : Connective} (hp : Accepted (.chain c) scope ls p) (hls : ls ≠ []) :
    Accepted .property scope ls p := by
  intro tokens rest k htokens hk hrest
  have hpos := length_pos_of_map htokens hls
  obtain ⟨j, hj, hchain⟩ := hp tokens rest k htokens hk
  -- the chain ends at a token that is not its connective
  obtain ⟨j, rfl⟩ : ∃ i, j = i + 1 := ⟨j - 1, by omega⟩
  rw [hchain, chain.eq_def]
  cases rest with
  | nil => rfl
  | cons t rest =>
    apply if_neg
    cases c with
    | and => exact (hrest t rfl).1
    | or => exact (hrest t rfl).2

/-- A chain goes on by one expression. -/
theorem chain_append (c : Connective) (hq : Accepted .expression scope ms q) {tokens : List Token}
    (htokens : tokens.map Token.lexeme = ms) {k : Nat} (hk : 2 * tokens.length ≤ k + 1)
    (left : Property) (i : Nat) (rest : List Token) :
    chain (k + 1) scope c.lexeme c.build left (⟨c.lexeme, i⟩ :: (tokens ++ rest)) =
      chain k scope c.lexeme c.build (c.build left q) rest := by
  rw [chain.eq_def]
  simp only [if_true, hq tokens rest k htokens hk, ok_bind]

theorem Accepted.pair (c : Connective) (hp : Accepted .expression scope ls p)
    (hq : Accepted .expression scope ms q) (hls : ls ≠ []) :
    Accepted (.chain c) scope (ls ++ c.lexeme :: ms) (c.build p q) := by
  intro tokens rest k htokens hk
  simp only [List.map_eq_append_iff, List.map_eq_cons_iff] at htokens
  obtain ⟨left, _, rfl, hleft, ⟨_, i⟩, right, rfl, rfl, hright⟩ := htokens
  have hpos := length_pos_of_map hleft hls
  simp only [List.length_append, List.length_cons] at hk ⊢
  -- one unit of fuel goes to the first expression, another to the step of the chain
  obtain ⟨k, rfl⟩ : ∃ j, k = j + 2 := ⟨k - 2, by omega⟩
  refine ⟨k, by omega, ?_⟩
  rw [← chain_append c hq hright (by omega) p i rest, List.append_assoc, List.cons_append, property,
    hp left _ (k + 1) hleft (by omega), ok_bind]
  cases c <;> rfl

theorem Accepted.longer (c : Connective) (hp : Accepted (.chain c) scope ls p)
    (hq : Accepted .expression scope ms q) :
    Accepted (.chain c) scope (ls ++ c.lexeme :: ms) (c.build p q) := by
  intro tokens rest k htokens hk
  simp only [List.map_eq_append_iff, List.map_eq_cons_iff] at htokens
  obtain ⟨left, _, rfl, hleft, ⟨_, i⟩, right, rfl, rfl, hright⟩ := htokens
  simp only [List.length_append, List.length_cons] at hk ⊢
  obtain ⟨j, hj, hchain⟩ := hp left (⟨c.lexeme, i⟩ :: (right ++ rest)) k hleft (by omega)
  -- the chain so far took less fuel than it has tokens, so the right operand still has enough
  obtain ⟨j, rfl⟩ : ∃ l, j = l + 1 := ⟨j - 1, by omega⟩
  refine ⟨j, by omega, ?_⟩
  rw [List.append_assoc, List.cons_append, hchain, chain_append c hq hright (by omega)]

theorem Accepted.word (h : ∀ k i rest, expression (k + 1) scope (⟨.name w, i⟩ :: rest) = .ok (p, rest)) :
    Accepted .expression scope [.name w] p := by
  intro tokens rest k htokens hk
  simp only [List.map_eq_cons_iff, List.map_eq_nil_iff] at htokens
  obtain ⟨⟨_, i⟩, _, rfl, rfl, rfl⟩ := htokens
  obtain ⟨k, rfl⟩ : ∃ j, k = j + 1 := ⟨k - 1, by simp only [List.length_cons] at hk; omega⟩
  exact h k i rest

theorem Accepted.field {index : Option Nat} (c : Comparison) (text : String) (n : Int)
    (hw : Role.Taken scope w .field) (hls : Index index ls) :
    Accepted .expression scope (.name w :: (ls ++ [.comparison c, .number text n]))
      (.atom ⟨w, index, .signless, c, n⟩) := by
  intro tokens rest k htokens hk
  simp only [List.map_eq_cons_iff, List.map_eq_append_iff, List.map_eq_nil_iff] at htokens
  obtain ⟨⟨_, i⟩, _, rfl, rfl, element, _, rfl, helement, ⟨_, a⟩, _, rfl, rfl, ⟨_, b⟩, _, rfl, rfl,
    rfl⟩ := htokens
  obtain ⟨k, rfl⟩ : ∃ j, k = j + 1 := ⟨k - 1, by simp only [List.length_cons] at hk; omega⟩
  have hrole : Role.ofWord scope w = .field := hw
  -- a comparison comes next, so the parser does not mistake it for an index
  have hindex := index?_append hls helement
    (r := ⟨.comparison c, a⟩ :: ⟨.number text n, b⟩ :: rest) (by simp)
  rw [List.cons_append, expression_name]
  simp only [hrole, atomic, forcedBy_of_field hrole, if_true, pure_ok, ok_bind, List.append_assoc,
    List.cons_append, List.nil_append, hindex, expectComparison, expectNumber]

theorem Accepted.forced {s : Signedness} {index : Option Nat} (name : String) (c : Comparison)
    (text : String) (n : Int) (hw : Role.Taken scope w (.forcing s)) (hls : Index index ls) :
    Accepted .expression scope
      (.name w :: .openParen :: .name name :: (ls ++ [.closeParen, .comparison c, .number text n]))
      (.atom ⟨name, index, s, c, n⟩) := by
  intro tokens rest k htokens hk
  simp only [List.map_eq_cons_iff, List.map_eq_append_iff, List.map_eq_nil_iff] at htokens
  obtain ⟨⟨_, i⟩, _, rfl, rfl, ⟨_, a⟩, _, rfl, rfl, ⟨_, b⟩, _, rfl, rfl, element, _, rfl, helement,
    ⟨_, d⟩, _, rfl, rfl, ⟨_, e⟩, _, rfl, rfl, ⟨_, f⟩, _, rfl, rfl, rfl⟩ := htokens
  obtain ⟨k, rfl⟩ : ∃ j, k = j + 1 := ⟨k - 1, by simp only [List.length_cons] at hk; omega⟩
  have hrole : Role.ofWord scope w = .forcing s := hw
  obtain ⟨hforced, hne⟩ := forcedBy_of_forcing hrole
  have hindex := index?_append hls helement
    (r := ⟨.closeParen, d⟩ :: ⟨.comparison c, e⟩ :: ⟨.number text n, f⟩ :: rest) (by simp)
  rw [List.cons_append, expression_name]
  simp only [hrole, atomic, hforced, if_neg hne, pure_ok, ok_bind, List.append_assoc,
    List.cons_append, List.nil_append, expect_cons, expectName, hindex, expectComparison,
    expectNumber]

theorem Accepted.unary {build : Property → Property} (hw : Unary w build)
    (hp : Accepted .property scope ls p) :
    Accepted .expression scope (.invocation w :: .openSquare :: (ls ++ [.closeSquare]))
      (build p) := by
  intro tokens rest k htokens hk
  simp only [List.map_eq_cons_iff, List.map_eq_append_iff, List.map_eq_nil_iff] at htokens
  obtain ⟨⟨_, i⟩, _, rfl, rfl, ⟨_, j⟩, _, rfl, rfl, inner, _, rfl, hinner, ⟨_, l⟩, _, rfl, rfl,
    rfl⟩ := htokens
  simp only [List.length_append, List.length_cons, List.length_nil] at hk
  obtain ⟨k, rfl⟩ : ∃ j, k = j + 1 := ⟨k - 1, by omega⟩
  have hop := unary_iff.2 hw
  have hbody := hp inner (⟨.closeSquare, l⟩ :: rest) k hinner (by omega) (closes_cons (by decide))
  simp only [List.cons_append, List.append_assoc, List.nil_append, expression,
    extremum?_of_operator hop, hop, expect_cons, ok_bind, hbody, pure_ok]

theorem Accepted.binary {build : Property → Property → Property} (hw : Binary w build)
    (hp : Accepted .property scope ls p) (hq : Accepted .property scope ms q) :
    Accepted .expression scope
      (.invocation w :: .openSquare :: (ls ++ .comma :: (ms ++ [.closeSquare]))) (build p q) := by
  intro tokens rest k htokens hk
  simp only [List.map_eq_cons_iff, List.map_eq_append_iff, List.map_eq_nil_iff] at htokens
  obtain ⟨⟨_, i⟩, _, rfl, rfl, ⟨_, j⟩, _, rfl, rfl, left, _, rfl, hleft, ⟨_, l⟩, _, rfl, rfl, right,
    _, rfl, hright, ⟨_, m⟩, _, rfl, rfl, rfl⟩ := htokens
  simp only [List.length_append, List.length_cons, List.length_nil] at hk
  obtain ⟨k, rfl⟩ : ∃ j, k = j + 1 := ⟨k - 1, by omega⟩
  have hop := binary_iff.2 hw
  have hl := hp left (⟨.comma, l⟩ :: (right ++ ⟨.closeSquare, m⟩ :: rest)) k hleft (by omega)
    (closes_cons (by decide))
  have hr := hq right (⟨.closeSquare, m⟩ :: rest) k hright (by omega) (closes_cons (by decide))
  simp only [List.cons_append, List.append_assoc, List.nil_append, expression,
    extremum?_of_operator hop, hop, expect_cons, ok_bind, hl, hr, pure_ok]

theorem Accepted.fix {x : String} (kind : Extremum) (hx : ¬ ['_', '_'] <+: x.toList)
    (hp : Accepted .property (x :: scope) ls p) :
    Accepted .expression scope
      (.invocation kind.text :: .openSquare :: .name x :: .comma :: (ls ++ [.closeSquare]))
      (.fix kind x p) := by
  intro tokens rest k htokens hk
  simp only [List.map_eq_cons_iff, List.map_eq_append_iff, List.map_eq_nil_iff] at htokens
  obtain ⟨⟨_, i⟩, _, rfl, rfl, ⟨_, j⟩, _, rfl, rfl, ⟨_, l⟩, _, rfl, rfl, ⟨_, m⟩, _, rfl, rfl, inner,
    _, rfl, hinner, ⟨_, n⟩, _, rfl, rfl, rfl⟩ := htokens
  simp only [List.length_append, List.length_cons, List.length_nil] at hk
  obtain ⟨k, rfl⟩ : ∃ j, k = j + 1 := ⟨k - 1, by omega⟩
  have hfree : isReserved x = false := by
    rw [Bool.eq_false_iff]
    exact mt isReserved_iff.1 hx
  have hbody := hp inner (⟨.closeSquare, n⟩ :: rest) k hinner (by omega) (closes_cons (by decide))
  simp only [List.cons_append, List.append_assoc, List.nil_append, expression,
    extremum?_eq_some.2 rfl, expect_cons, ok_bind, expectName, hfree, hbody]
  rfl

theorem Accepted.not (hp : Accepted .property scope ls p) :
    Accepted .expression scope (.exclamation :: .openParen :: (ls ++ [.closeParen])) (.not p) := by
  intro tokens rest k htokens hk
  simp only [List.map_eq_cons_iff, List.map_eq_append_iff, List.map_eq_nil_iff] at htokens
  obtain ⟨⟨_, i⟩, _, rfl, rfl, ⟨_, j⟩, _, rfl, rfl, inner, _, rfl, hinner, ⟨_, l⟩, _, rfl, rfl,
    rfl⟩ := htokens
  simp only [List.length_append, List.length_cons, List.length_nil] at hk
  obtain ⟨k, rfl⟩ : ∃ j, k = j + 1 := ⟨k - 1, by omega⟩
  have hbody := hp inner (⟨.closeParen, l⟩ :: rest) k hinner (by omega) (closes_cons (by decide))
  simp only [List.cons_append, List.append_assoc, List.nil_append, expression, expect_cons, ok_bind,
    hbody, pure_ok]

theorem Accepted.paren (hp : Accepted .property scope ls p) :
    Accepted .expression scope (.openParen :: (ls ++ [.closeParen])) p := by
  intro tokens rest k htokens hk
  simp only [List.map_eq_cons_iff, List.map_eq_append_iff, List.map_eq_nil_iff] at htokens
  obtain ⟨⟨_, i⟩, _, rfl, rfl, inner, _, rfl, hinner, ⟨_, l⟩, _, rfl, rfl, rfl⟩ := htokens
  simp only [List.length_append, List.length_cons, List.length_nil] at hk
  obtain ⟨k, rfl⟩ : ∃ j, k = j + 1 := ⟨k - 1, by omega⟩
  have hbody := hp inner (⟨.closeParen, l⟩ :: rest) k hinner (by omega) (closes_cons (by decide))
  simp only [List.cons_append, List.append_assoc, List.nil_append, expression, expect_cons, ok_bind,
    hbody, pure_ok]

end Step

theorem Derives.accepted {category : Category} {scope : List String} {ls : List Lexeme}
    {p : Property} (h : Derives Role.Taken category scope ls p) : Accepted category scope ls p := by
  induction h with
  | alone hp ih => exact ih.alone hp.ne_nil
  | chained c hp ih => exact ih.chained hp.ne_nil
  | pair c hp _ ihp ihq => exact ihp.pair c ihq hp.ne_nil
  | longer c _ _ ihp ihq => exact ihp.longer c ihq
  | const hw =>
    apply Accepted.word
    intro k i rest
    rw [expression_name, hw]
  | var hw =>
    apply Accepted.word
    intro k i rest
    rw [expression_name, hw]
  | field c text n hw hls => exact .field c text n hw hls
  | forced name c text n hw hls => exact .forced name c text n hw hls
  | unary hw _ ih => exact ih.unary hw
  | binary hw _ _ ihp ihq => exact ihp.binary hw ihq
  | fix kind hx _ ih => exact ih.fix kind hx
  | not _ ih => exact ih.not
  | paren _ ih => exact ih.paren

/-! ## The parser and the grammar -/

/-- The parser returns a property exactly if the grammar derives it from the whole list. -/
theorem ofTokens_iff {tokens : List Token} {p : Property} :
    ofTokens tokens = .ok p ↔
      Derives Role.Taken .property [] (tokens.map Token.lexeme) p := by
  refine ⟨derives_of_ofTokens, fun h => ?_⟩
  have hread := h.accepted tokens [] (2 * tokens.length + 2) rfl (by omega) closes_nil
  rw [List.append_nil] at hread
  simp only [ofTokens, hread, ok_bind, pure_ok]

/-- A list of tokens has one property at most. -/
theorem Derives.unique {ls : List Lexeme} {p q : Property}
    (hp : Derives Role.Taken .property [] ls p) (hq : Derives Role.Taken .property [] ls q) :
    p = q := by
  -- the parser has one answer for any tokens with these contents
  have hmap : (ls.map fun lexeme => (⟨lexeme, 0⟩ : Token)).map Token.lexeme = ls := by
    rw [List.map_map]
    exact List.map_id ls
  rw [← hmap] at hp hq
  exact Except.ok.inj ((ofTokens_iff.2 hp).symm.trans (ofTokens_iff.2 hq))

end RefineCheck.Property
