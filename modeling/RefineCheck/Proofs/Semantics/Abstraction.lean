/-
  RefineCheck.Proofs.Semantics.Abstraction

  Structures of three values that stand for structures of two. If every step on one side is
  matched on the other side, then a definite value of a formula is its value in all states
  that a node stands for, also if the formula has nested fixed points.
-/

import RefineCheck.Proofs.Labelling.Formula

namespace RefineCheck

/-- Whether a definite value is the right one. -/
def Kleene.Agrees (v : Kleene) (P : Prop) : Prop := (v = .tt → P) ∧ (v = .ff → ¬ P)

namespace Kleene

theorem agrees_unknown (P : Prop) : Agrees .unknown P := ⟨nofun, nofun⟩

theorem agrees_const (value : Bool) : Agrees (if value then ⊤ else ⊥) (if value then ⊤ else ⊥) := by
  cases value with
  | false => exact ⟨nofun, fun _ h => h⟩
  | true => exact ⟨fun _ => trivial, nofun⟩

theorem agrees_not {v : Kleene} {P : Prop} (h : v.Agrees P) : v.not.Agrees (¬ P) := by
  cases v with
  | ff => exact ⟨fun _ => h.2 rfl, nofun⟩
  | unknown => exact agrees_unknown _
  | tt => exact ⟨nofun, fun _ hn => hn (h.1 rfl)⟩

theorem inf_eq_tt {v u : Kleene} (h : v ⊓ u = .tt) : v = .tt ∧ u = .tt := by
  revert h
  cases v <;> cases u <;> decide

theorem inf_eq_ff {v u : Kleene} (h : v ⊓ u = .ff) : v = .ff ∨ u = .ff := by
  revert h
  cases v <;> cases u <;> decide

theorem agrees_inf {v u : Kleene} {P Q : Prop} (h : v.Agrees P) (h' : u.Agrees Q) :
    (v ⊓ u).Agrees (P ∧ Q) := by
  refine ⟨fun htt => ⟨h.1 (inf_eq_tt htt).1, h'.1 (inf_eq_tt htt).2⟩, fun hff => ?_⟩
  rcases inf_eq_ff hff with hv | hu
  · exact fun hPQ => h.2 hv hPQ.1
  · exact fun hPQ => h'.2 hu hPQ.2

theorem not_inf (v u : Kleene) : (v ⊓ u).not = v.not ⊔ u.not := by
  cases v <;> cases u <;> rfl

theorem not_not (v : Kleene) : v.not.not = v := by
  cases v <;> rfl

theorem agrees_of_not {v : Kleene} {P : Prop} (h : v.not.Agrees (¬ P)) : v.Agrees P := by
  have := agrees_not h
  rwa [not_not, Classical.not_not] at this

theorem agrees_sup {v u : Kleene} {P Q : Prop} (h : v.Agrees P) (h' : u.Agrees Q) :
    (v ⊔ u).Agrees (P ∨ Q) := by
  have hinf := agrees_inf (agrees_not h) (agrees_not h')
  refine agrees_of_not ?_
  rw [← not_not v, ← not_not u, ← not_inf, not_not]
  simpa only [not_or] using hinf

theorem le_unknown {v : Kleene} (h : v ≠ .tt) : v ≤ .unknown := by
  revert h
  cases v <;> decide

theorem unknown_le {v : Kleene} (h : v ≠ .ff) : .unknown ≤ v := by
  revert h
  cases v <;> decide

/-- An infimum that is false is attained. -/
theorem iInf_eq_ff {ν : Type} {S : Set ν} {z : ν → Kleene} (h : ⨅ n ∈ S, z n = .ff) :
    ∃ n ∈ S, z n = .ff := by
  by_contra hne
  have hle : Kleene.unknown ≤ ⨅ n ∈ S, z n :=
    le_iInf₂ fun n hn => unknown_le fun hz => hne ⟨n, hn, hz⟩
  rw [h] at hle
  exact absurd hle (by decide)

theorem iInf_eq_tt {ν : Type} {S : Set ν} {z : ν → Kleene} (h : ⨅ n ∈ S, z n = .tt) {n : ν}
    (hn : n ∈ S) : z n = .tt := by
  have hle : ⨅ n ∈ S, z n ≤ z n := iInf₂_le n hn
  rw [h] at hle
  exact top_le_iff.1 hle

end Kleene

/-! ## Relations between structures -/

/-- Every step is matched on the other side, and definite values of comparisons are right. -/
structure Kripke.Abstracts {σ ν : Type} (P : Atomic → Prop) (B : σ → ν → Prop) (K : Kripke σ Prop)
    (M : Kripke ν Kleene) : Prop where
  forth {s t : σ} {n : ν} : B s n → t ∈ K.next s → ∃ m ∈ M.next n, B t m
  back {s : σ} {n m : ν} : B s n → m ∈ M.next n → ∃ t ∈ K.next s, B t m
  atom {a : Atomic} {s : σ} {n : ν} : P a → B s n → (M.atom a n).Agrees (K.atom a s)

section Abstraction

variable {σ ν : Type} {B : σ → ν → Prop}

/-- Labellings of which one says definitely only what the other one says. -/
def Concurs (B : σ → ν → Prop) (z : ν → Kleene) (Z : σ → Prop) : Prop :=
  ∀ s n, B s n → (z n).Agrees (Z s)

theorem Concurs.neg {z : ν → Kleene} {Z : σ → Prop} (h : Concurs B z Z) :
    Concurs B (TruthValue.neg z) (TruthValue.neg Z) :=
  fun s n hB => Kleene.agrees_not (h s n hB)

theorem Concurs.of_neg {z : ν → Kleene} {Z : σ → Prop}
    (h : Concurs B (TruthValue.neg z) (TruthValue.neg Z)) : Concurs B z Z :=
  fun s n hB => Kleene.agrees_of_not (h s n hB)

theorem concurs_step {P : Atomic → Prop} {K : Kripke σ Prop} {M : Kripke ν Kleene}
    (h : Kripke.Abstracts P B K M) (paths : Paths) {z : ν → Kleene} {Z : σ → Prop}
    (hz : Concurs B z Z) : Concurs B (M.step paths z) (K.step paths Z) := by
  have hall {z : ν → Kleene} {Z : σ → Prop} (hz : Concurs B z Z) :
      Concurs B (M.step .all z) (K.step .all Z) := by
    intro s n hB
    show Kleene.Agrees (⨅ m ∈ M.next n, z m) (⨅ t ∈ K.next s, Z t)
    simp only [iInf_Prop_eq]
    constructor
    · intro htt t ht
      obtain ⟨m, hm, hBt⟩ := h.forth hB ht
      exact (hz t m hBt).1 (Kleene.iInf_eq_tt htt hm)
    · intro hff hZ
      obtain ⟨m, hm, hzm⟩ := Kleene.iInf_eq_ff hff
      obtain ⟨t, ht, hBt⟩ := h.back hB hm
      exact (hz t m hBt).2 hzm (hZ t ht)
  cases paths with
  | all => exact hall hz
  | some =>
    refine Concurs.of_neg ?_
    rw [Property.neg_step, Property.neg_step]
    exact hall hz.neg

section Least

variable {F : (ν → Kleene) → ν → Kleene} {G : (σ → Prop) → σ → Prop}

open Classical in
/-- True where all states that a node stands for are in a set, and unknown elsewhere. -/
noncomputable def trueWithin (B : σ → ν → Prop) (Z : σ → Prop) (n : ν) : Kleene :=
  if ∀ s, B s n → Z s then .tt else .unknown

theorem concurs_trueWithin (Z : σ → Prop) : Concurs B (trueWithin B Z) Z := by
  intro s n hB
  rw [trueWithin]
  split
  · rename_i hall
    exact ⟨fun _ => hall s hB, nofun⟩
  · exact Kleene.agrees_unknown _

/-- What a least solution says to be true holds of all states: to be true only where they are in the
    other solution is enough to be closed. -/
theorem of_least_eq_tt (hG : Monotone G)
    (hFG : ∀ {z Z}, Concurs B z Z → Concurs B (F z) (G Z)) {s : σ} {n : ν} (hB : B s n)
    (htt : Extremum.least.solution F n = .tt) : Extremum.least.solution G s := by
  set exact := Extremum.least.solution G with hexact
  have hfixG : G exact = exact := Extremum.least.solution_fixed hG
  have hconcurs : Concurs B (trueWithin B exact) exact := concurs_trueWithin exact
  have hclosed : F (trueWithin B exact) ≤ trueWithin B exact := by
    intro n
    by_cases hall : ∀ s, B s n → exact s
    · rw [show trueWithin B exact n = .tt from if_pos hall]
      exact le_top
    · rw [show trueWithin B exact n = .unknown from if_neg hall]
      refine Kleene.le_unknown fun htt => hall fun s hB => ?_
      rw [← hfixG]
      exact (hFG hconcurs s n hB).1 htt
  have hle : Extremum.least.solution F n ≤ trueWithin B exact n :=
    (sInf_le hclosed : Extremum.least.solution F ≤ trueWithin B exact) n
  rw [htt] at hle
  exact (hconcurs s n hB).1 (top_le_iff.1 hle)

/-- The part of a labelling that is false, and unknown elsewhere. -/
def falseWithin (z : ν → Kleene) (n : ν) : Kleene := if z n = .ff then .ff else .unknown

/-- The states that no false node stands for. -/
def Unrefuted (B : σ → ν → Prop) (z : ν → Kleene) (s : σ) : Prop := ∀ n, B s n → z n ≠ .ff

theorem concurs_falseWithin (z : ν → Kleene) : Concurs B (falseWithin z) (Unrefuted B z) := by
  intro s n hB
  rw [falseWithin]
  split
  · rename_i hff
    exact ⟨nofun, fun _ hZ => hZ n hB hff⟩
  · exact Kleene.agrees_unknown _

theorem falseWithin_le (z : ν → Kleene) : falseWithin z ≤ z := by
  intro n
  rw [falseWithin]
  split
  · exact bot_le
  · exact Kleene.unknown_le ‹_›

/-- What a least solution says to be false holds of no state: the states that it does not refute are
    closed. -/
theorem not_of_least_eq_ff (hF : Monotone F)
    (hFG : ∀ {z Z}, Concurs B z Z → Concurs B (F z) (G Z)) {s : σ} {n : ν} (hB : B s n)
    (hff : Extremum.least.solution F n = .ff) : ¬ Extremum.least.solution G s := by
  set lower := Extremum.least.solution F with hlower
  have hfixF : F lower = lower := Extremum.least.solution_fixed hF
  have hclosed : G (Unrefuted B lower) ≤ Unrefuted B lower := by
    intro s hs n hB hff
    have hFz : F (falseWithin lower) n ≤ F lower n := hF (falseWithin_le lower) n
    rw [hfixF, hff] at hFz
    exact (hFG (concurs_falseWithin lower) s n hB).2 (le_bot_iff.1 hFz) hs
  exact fun hs => (sInf_le hclosed : Extremum.least.solution G ≤ Unrefuted B lower) s hs n hB hff

end Least

/-- Functions that keep agreement have least solutions that agree. -/
theorem concurs_least {F : (ν → Kleene) → ν → Kleene} {G : (σ → Prop) → σ → Prop}
    (hF : Monotone F) (hG : Monotone G)
    (hFG : ∀ {z Z}, Concurs B z Z → Concurs B (F z) (G Z)) :
    Concurs B (Extremum.least.solution F) (Extremum.least.solution G) :=
  fun _ _ hB => ⟨of_least_eq_tt hG hFG hB, not_of_least_eq_ff hF hFG hB⟩

theorem concurs_solution {F : (ν → Kleene) → ν → Kleene} {G : (σ → Prop) → σ → Prop}
    (hF : Monotone F) (hG : Monotone G)
    (hFG : ∀ {z Z}, Concurs B z Z → Concurs B (F z) (G Z)) (kind : Extremum) :
    Concurs B (kind.solution F) (kind.solution G) := by
  cases kind with
  | least => exact concurs_least hF hG hFG
  | greatest =>
    refine Concurs.of_neg ?_
    rw [Property.neg_solution, Property.neg_solution]
    refine concurs_least (fun z z' h => ?_) (fun Z Z' h => ?_) fun h => (hFG h.neg).neg
    · exact TruthValue.neg_anti (hF (TruthValue.neg_anti h))
    · exact TruthValue.neg_anti (hG (TruthValue.neg_anti h))

/-- A definite value of a formula is its value in all states that the node stands for. -/
theorem Formula.meaning_concurs {P : Atomic → Prop} {K : Kripke σ Prop} {M : Kripke ν Kleene}
    (h : Kripke.Abstracts P B K M) {f : Formula} (hf : ∀ a ∈ f.atoms, P a)
    {env : Nat → ν → Kleene} {env' : Nat → σ → Prop} (henv : ∀ id, Concurs B (env id) (env' id)) :
    Concurs B (f.meaning M env) (f.meaning K env') := by
  induction f generalizing env env' with
  | const value => exact fun _ _ _ => Kleene.agrees_const value
  | atom a => exact fun _ _ hB => h.atom (hf a List.mem_cons_self) hB
  | and f g ihf ihg =>
    have hl := ihf (fun a ha => hf a (List.mem_append_left _ ha)) henv
    have hr := ihg (fun a ha => hf a (List.mem_append_right _ ha)) henv
    exact fun s n hB => Kleene.agrees_inf (hl s n hB) (hr s n hB)
  | or f g ihf ihg =>
    have hl := ihf (fun a ha => hf a (List.mem_append_left _ ha)) henv
    have hr := ihg (fun a ha => hf a (List.mem_append_right _ ha)) henv
    exact fun s n hB => Kleene.agrees_sup (hl s n hB) (hr s n hB)
  | next paths f ih => exact concurs_step h paths (ih hf henv)
  | fix id kind _ f ih =>
    refine concurs_solution (f.body_mono env id) (f.body_mono env' id) (fun {z Z} hz => ?_) kind
    refine ih hf fun j => ?_
    by_cases hj : j = id
    · rw [hj, Function.update_self, Function.update_self]
      exact hz
    · rw [Function.update_of_ne hj, Function.update_of_ne hj]
      exact henv j
  | var id _ => exact henv id
  | shared _ f ih => exact ih hf henv

end Abstraction

end RefineCheck
