/-
  RefineCheck.Proofs.Property.Language

  Which texts are properties: those whose tokens the grammar derives a property from in which
  each variable occurs under an even number of negations below its fixed point.
-/

import RefineCheck.Proofs.Property.Accepted
import RefineCheck.Proofs.Property.Parsed

namespace RefineCheck.Property

open RefineCheck.Property.Parser

/-! ## Polarity -/

/-- The numbers of negations over the free occurrences of a variable. -/
def negationsOver (x : String) : Property → List Nat
  | .const _ | .atom _ => []
  | .var y => if y = x then [0] else []
  | .not p => (negationsOver x p).map (· + 1)
  | .next _ p | .eventually _ p | .always _ p => negationsOver x p
  | .and p q | .or p q | .holdUntil _ p q | .release _ p q =>
    negationsOver x p ++ negationsOver x q
  | .fix _ y p => if y = x then [] else negationsOver x p

/-- Every variable occurs under an even number of negations below its fixed point. -/
def Balanced : Property → Prop
  | .const _ | .atom _ | .var _ => True
  | .not p | .next _ p | .eventually _ p | .always _ p => Balanced p
  | .and p q | .or p q | .holdUntil _ p q | .release _ p q => Balanced p ∧ Balanced q
  | .fix _ x p => (∀ n ∈ negationsOver x p, Even n) ∧ Balanced p

/-- The test for polarity allows the free occurrences whose negations make up for the difference
    between their fixed point and the place that is tested. -/
def Fits (negated : Bool) (bindings : List (String × Bool)) (p : Property) : Prop :=
  ∀ x, ∀ n ∈ p.negationsOver x, ((bindings.lookup x).getD false = negated ↔ Even n)

variable {negated : Bool} {bindings : List (String × Bool)} {p : Property}

theorem fits_not : Fits negated bindings (.not p) ↔ Fits (!negated) bindings p := by
  simp only [Fits, negationsOver, List.forall_mem_map, Nat.even_add_one, Bool.eq_not, ne_eq]
  grind

/-- The occurrences that a fixed point binds are compared with it, the others with the fixed points
    around it. -/
theorem fits_fix (kind : Extremum) {y : String} :
    Fits negated ((y, negated) :: bindings) p ↔
      (∀ n ∈ p.negationsOver y, Even n) ∧ Fits negated bindings (.fix kind y p) := by
  have hbound : ((y, negated) :: bindings).lookup y = some negated := by simp
  have hfree {x : String} (hx : y ≠ x) :
      ((y, negated) :: bindings).lookup x = bindings.lookup x ∧
        negationsOver x (.fix kind y p) = p.negationsOver x := by
    have hne : (x == y) = false := beq_false_of_ne hx.symm
    simp [List.lookup_cons, hne, negationsOver, hx]
  constructor
  · intro h
    constructor
    · intro n hn
      have := h y n hn
      simpa [hbound] using this
    · intro x n hn
      by_cases hx : y = x
      · simp [negationsOver, hx] at hn
      · rw [(hfree hx).2] at hn
        have := h x n hn
        rwa [(hfree hx).1] at this
  · rintro ⟨heven, h⟩ x n hn
    -- `y` hides an outer variable of the same name
    by_cases hx : y = x
    · subst hx
      simp [hbound, heven n hn]
    · rw [(hfree hx).1]
      exact h x n (by rwa [(hfree hx).2])

theorem negatedVariable?_eq_none_iff :
    negatedVariable? negated bindings p = none ↔ p.Balanced ∧ Fits negated bindings p := by
  induction p generalizing negated bindings with
  | const _ | atom _ => simp [negatedVariable?, Balanced, Fits, negationsOver]
  | var y =>
    -- the only occurrence is under no negation
    simp [negatedVariable?, Balanced, Fits, negationsOver]
  | not p ih => rw [negatedVariable?, ih, fits_not, Balanced]
  | next _ p ih | eventually _ p ih | always _ p ih => exact ih
  | and p q ihp ihq | or p q ihp ihq | holdUntil _ p q ihp ihq | release _ p q ihp ihq =>
    simp only [negatedVariable?, Option.orElse_eq_orElse, Option.orElse_eq_or,
      Option.or_eq_none_iff, ihp, ihq, Balanced, Fits, negationsOver, List.forall_mem_append,
      forall_and]
    tauto
  | fix kind y p ih =>
    rw [negatedVariable?, ih, fits_fix kind, Balanced]
    tauto

/-- A variable that is free in a property is one of those bound around it. -/
theorem mem_of_negationsOver {bound : List String} {x : String} {n : Nat}
    (hp : p.closedUnder bound = true) (hn : n ∈ p.negationsOver x) : x ∈ bound := by
  induction p generalizing bound n with
  | const _ | atom _ => cases hn
  | var y =>
    rw [negationsOver] at hn
    split at hn
    · rename_i hy
      rw [← hy]
      exact List.contains_iff_mem.1 hp
    · cases hn
  | not p ih =>
    obtain ⟨m, hm, -⟩ := List.mem_map.1 hn
    exact ih hp hm
  | next _ p ih | eventually _ p ih | always _ p ih => exact ih hp hn
  | and p q ihp ihq | or p q ihp ihq | holdUntil _ p q ihp ihq | release _ p q ihp ihq =>
    rw [closedUnder, Bool.and_eq_true] at hp
    rcases List.mem_append.1 hn with hn | hn
    · exact ihp hp.1 hn
    · exact ihq hp.2 hn
  | fix kind y p ih =>
    rw [negationsOver] at hn
    split at hn
    · cases hn
    · rename_i hy
      exact List.mem_of_ne_of_mem (Ne.symm hy) (ih hp hn)

/-- A closed property passes the test exactly if it is balanced. -/
theorem negatedVariable?_closed (hp : p.isClosed = true) :
    negatedVariable? false [] p = none ↔ p.Balanced := by
  rw [negatedVariable?_eq_none_iff, and_iff_left_iff_imp]
  intro _ x n hn
  exact absurd (mem_of_negationsOver hp hn) List.not_mem_nil

/-! ## Texts -/

/-- A text is a property exactly if the grammar derives the property from its tokens, the words
    taken in their order, and the property is balanced. No tokens have two properties. -/
theorem parse_iff_derives {text : String} {tokens : List Token}
    (h : Token.ofText text = .ok tokens) :
    (∀ p, Property.parse text = .ok p ↔
      Derives Role.Taken .property [] (tokens.map Token.lexeme) p ∧ p.Balanced) ∧
    ∀ p q, Derives Role.Taken .property [] (tokens.map Token.lexeme) p →
      Derives Role.Taken .property [] (tokens.map Token.lexeme) q → p = q := by
  refine ⟨fun p => ?_, fun p q hp hq => hp.unique hq⟩
  simp only [parse_eq_ok_iff, h, Except.ok.injEq, exists_eq_left', ofTokens_iff,
    and_congr_right_iff]
  intro hp
  -- only a closed property is derived, so the test meets no variable that is free
  exact negatedVariable?_closed (legible_of_derives h hp).closedUnder

theorem parse_iff_derives_shadowing :
    ∃ tokens p, Token.ofText "lfp![as_signed, !(!(as_signed)) || as_unsigned(x[2]) == 1]" = .ok tokens ∧
      Property.parse "lfp![as_signed, !(!(as_signed)) || as_unsigned(x[2]) == 1]" = .ok p ∧
      Derives Role.Taken .property [] (tokens.map Token.lexeme) p ∧ p.Balanced ∧
      ∀ q, Derives Role.Taken .property [] (tokens.map Token.lexeme) q → q = p := by
  have htokens : Token.ofText "lfp![as_signed, !(!(as_signed)) || as_unsigned(x[2]) == 1]" = .ok
      [⟨.invocation "lfp", 0⟩, ⟨.openSquare, 4⟩, ⟨.name "as_signed", 5⟩, ⟨.comma, 14⟩,
        ⟨.exclamation, 16⟩, ⟨.openParen, 17⟩, ⟨.exclamation, 18⟩, ⟨.openParen, 19⟩,
        ⟨.name "as_signed", 20⟩, ⟨.closeParen, 29⟩, ⟨.closeParen, 30⟩, ⟨.or, 32⟩,
        ⟨.name "as_unsigned", 35⟩, ⟨.openParen, 46⟩, ⟨.name "x", 47⟩, ⟨.openSquare, 48⟩,
        ⟨.number "2" 2, 49⟩, ⟨.closeSquare, 50⟩, ⟨.closeParen, 51⟩, ⟨.comparison .eq, 53⟩,
        ⟨.number "1" 1, 56⟩, ⟨.closeSquare, 57⟩] := by
    decide +kernel
  have hparse : Property.parse "lfp![as_signed, !(!(as_signed)) || as_unsigned(x[2]) == 1]" = .ok
      (.fix .least "as_signed" (.or (.not (.not (.var "as_signed")))
        (.atom ⟨"x", some 2, .unsigned, .eq, 1⟩))) := by
    decide +kernel
  obtain ⟨hiff, hunique⟩ := parse_iff_derives htokens
  obtain ⟨hderives, hbalanced⟩ := (hiff _).1 hparse
  exact ⟨_, _, htokens, hparse, hderives, hbalanced, fun q hq => hunique q _ hq hderives⟩

/-- The order of the roles matters. In any of their roles, the words of the first text would write a
    forced signedness below a fixed point of that name, which is not how the text is read, and those
    of the second text would write two properties. -/
theorem possible_roles_differ :
    (∃ tokens p, Token.ofText "lfp![as_signed, as_signed(x) == 1]" = .ok tokens ∧
      Derives Role.Possible .property [] (tokens.map Token.lexeme) p ∧ p.Balanced ∧
      Property.parse "lfp![as_signed, as_signed(x) == 1]" ≠ .ok p) ∧
    ∃ tokens p q, Token.ofText "lfp![true, true]" = .ok tokens ∧
      Property.parse "lfp![true, true]" = .ok p ∧
      Derives Role.Possible .property [] (tokens.map Token.lexeme) p ∧
      Derives Role.Possible .property [] (tokens.map Token.lexeme) q ∧ p ≠ q := by
  have hfree {x : String} (hx : x = "as_signed" ∨ x = "true") : ¬ ['_', '_'] <+: x.toList := by
    rcases hx with rfl | rfl <;> decide
  have hfix {x : String} (hx : x = "as_signed" ∨ x = "true") {ls : List Lexeme} {p : Property}
      (hp : Derives Role.Possible .expression [x] ls p) :
      Derives Role.Possible .property [] (.invocation "lfp" :: .openSquare :: .name x :: .comma ::
        (ls ++ [.closeSquare])) (.fix .least x p) :=
    .alone (.fix .least (hfree hx) (.alone hp))
  constructor
  · refine ⟨[⟨.invocation "lfp", 0⟩, ⟨.openSquare, 4⟩, ⟨.name "as_signed", 5⟩, ⟨.comma, 14⟩,
      ⟨.name "as_signed", 16⟩, ⟨.openParen, 25⟩, ⟨.name "x", 26⟩, ⟨.closeParen, 27⟩,
      ⟨.comparison .eq, 29⟩, ⟨.number "1" 1, 32⟩, ⟨.closeSquare, 33⟩],
      .fix .least "as_signed" (.atom ⟨"x", none, .signed, .eq, 1⟩), by decide +kernel, ?_, ?_, ?_⟩
    · exact hfix (.inl rfl) (.forced (s := .signed) "x" .eq "1" 1 rfl .none)
    · exact ⟨fun _ h => (by cases h), trivial⟩
    · -- the parser takes the word for the variable, behind which the fixed point has to end
      have herror : Property.parse "lfp![as_signed, as_signed(x) == 1]" = .error
          (.syntactic (.expectedToken .closeSquare "a fixed point") (some ⟨.openParen, 25⟩)) := by
        decide +kernel
      rw [herror]
      exact error_ne_ok
  · refine ⟨[⟨.invocation "lfp", 0⟩, ⟨.openSquare, 4⟩, ⟨.name "true", 5⟩, ⟨.comma, 9⟩,
      ⟨.name "true", 11⟩, ⟨.closeSquare, 15⟩], .fix .least "true" (.const true),
      .fix .least "true" (.var "true"), by decide +kernel, by decide +kernel, ?_, ?_, by decide⟩
    · have hconstant : Role.Possible ["true"] "true" (.constant true) := rfl
      exact hfix (.inr rfl) (.const hconstant)
    · exact hfix (.inr rfl) (.var List.mem_cons_self)

end RefineCheck.Property
