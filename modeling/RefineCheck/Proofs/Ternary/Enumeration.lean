/-
  RefineCheck.Proofs.Ternary.Enumeration

  The enumeration of the members of a three-valued word. A loop on machine words goes through the
  subsets of the unknown bits: the difference of a subset and all unknown bits wraps, and its unknown
  bits are the next subset. So the loop ends, having called its function once with each member, the
  smallest first, and joining an operation over the members of two operands gives the least
  three-valued word that holds all results.
-/

import RefineCheck.Proofs.Ternary.Stored
import RefineCheck.Proofs.Ternary.Unknown

namespace RefineCheck.Ternary

open Word (Machine)
open Word.Stored (mask)

variable {w : Nat} {σ α : Type}

/-! ## The loop on machine words -/

/-- Why a loop over members fails. -/
inductive Failure
  | word (cause : Word.Failure)
  /-- A join is read before anything was joined. -/
  | noJoin
deriving DecidableEq

/-- A computation that may fail. One that never ends is `none`. -/
abbrev Attempt := ExceptT Failure Option

/-- A computation on a state that may fail and may never end. -/
abbrev Loop (σ : Type) := StateT σ Attempt

/-- What fails on words fails where it is called. -/
def attempt {m : Type → Type} [Monad m] [MonadExceptOf Failure m] : Except Word.Failure α → m α
  | .ok x => pure x
  | .error cause => throw (.word cause)

namespace Stored

/-- Calls a function with the members that have a subset of the unknown bits or a later one. -/
def forEachFrom (a : Stored) (f : Word.Stored → Loop σ Unit) (subset : Machine) : Loop σ Unit := do
  f (← attempt (Word.Stored.new (a.umin ||| subset) a.width))
  if subset = a.unknown then return
  a |>.forEachFrom f ((subset - a.unknown) &&& a.unknown)
partial_fixpoint

/-- Calls a function with every member. -/
def forEach (a : Stored) (f : Word.Stored → Loop σ Unit) : Loop σ Unit := a.forEachFrom f 0

/-! ## Joining over pairs -/

/-- The stored value with every word of this width. -/
def full (width : Nat) : Except Word.Failure Stored :=
  if width ≤ Word.maxWidth then .ok ⟨mask width, mask width, width⟩
  else .error (.fault (.widthLimit width))

/-- The stored value whose only member is the word. -/
def ofWord (x : Word.Stored) : Stored := ⟨~~~x.value &&& mask x.width, x.value, x.width⟩

/-- The stored value that allows what either allows. -/
def join (a b : Stored) : Except Word.Failure Stored :=
  if a.width = b.width then .ok ⟨a.zeros ||| b.zeros, a.ones ||| b.ones, a.width⟩
  else .error (.fault (.widthMismatch a.width b.width))

/-- Joins a value to what was joined before it, if anything was. -/
def absorb (value : Stored) : Loop (Option Stored) Unit := do
  match ← get with
  | none => set (some value)
  | some joined => set (some (← attempt (joined.join value)))

/-- Joins an operation over every pair of members if there are few enough of them. -/
def enumerate (a b : Stored) (op : Word.Stored → Word.Stored → Except Word.Failure Word.Stored) :
    Attempt Stored := do
  if Word.count a.unknown + Word.count b.unknown > enumerationLimit then attempt (full a.width)
  else
    let pairs : Loop (Option Stored) Unit :=
      a.forEach fun x => b.forEach fun y => do absorb (ofWord (← attempt (op x y)))
    match (← pairs.run none).2 with
    | some joined => return joined
    | none => throw .noJoin

/-! ## The loop goes through the members -/

/-- From a subset on, the loop calls its function for this and the larger ones in order, and ends. -/
theorem forEachFrom_of (hw : w ≤ 64) (a : Ternary w) (f : Word.Stored → Loop σ Unit)
    (done : List Machine) {rest : List Machine} {s : Machine}
    (hsorted : (done ++ s :: rest).Pairwise (· < ·))
    (hall : ∀ t, t ∈ done ++ s :: rest ↔ t &&& (of a).unknown = t) :
    (of a).forEachFrom f s =
      forM (s :: rest) fun t => f (Word.Stored.of (a.umin ||| t.setWidth w)) := by
  have hword (t : Machine) : Word.Stored.new ((of a).umin ||| t) (of a).width =
      .ok (.of (a.umin ||| t.setWidth w)) := by
    refine Word.Stored.new_of hw ?_
    rw [umin_of, BitVec.setWidth_or]
    exact congrArg (· ||| _) (Word.Stored.setWidth_of hw a.umin)
  -- on what is left to do; what is done stays in the list, so that it still has all subsets
  induction rest generalizing done s with
  | nil =>
    rw [forEachFrom, hword, attempt, pure_bind, if_pos (Word.eq_of_sorted_last hsorted hall),
      List.forM_cons, List.forM_nil]
  | cons t rest ih =>
    obtain ⟨hne, hnext⟩ := Word.next_eq_of_sorted hsorted hall
    rw [List.append_cons] at hsorted hall
    rw [forEachFrom, hword, attempt, pure_bind, if_neg hne, hnext, ih _ hsorted hall,
      List.forM_cons (a := s)]

/-- The subsets of the stored unknown bits are stored subsets. -/
theorem mem_map_setWidth {x : BitVec w} {t : Machine} :
    t ∈ (Word.subsets x).map (·.setWidth 64) ↔ t &&& x.setWidth 64 = t := by
  rw [List.mem_map]
  constructor
  · rintro ⟨s, hs, rfl⟩
    rw [← BitVec.setWidth_and, Word.mem_subsets_iff.1 hs]
  · intro ht
    have hbit (k : Nat) (hk : t.getLsbD k = true) : x.getLsbD k = true := by
      have := Word.subset_iff.1 ht k hk
      rwa [getLsbD_setWidth x (BitVec.lt_of_getLsbD hk)] at this
    refine ⟨t.setWidth w, Word.mem_subsets_iff.2 (Word.subset_iff.2 fun k hk => ?_), ?_⟩
    · rw [BitVec.getLsbD_setWidth, Bool.and_eq_true] at hk
      exact hbit k hk.2
    · refine (eq_setWidth fun k hk => ?_).symm
      rw [BitVec.getLsbD_setWidth]
      cases hkt : t.getLsbD k with
      | true => rw [decide_eq_true (BitVec.lt_of_getLsbD (hbit k hkt)), Bool.true_and]
      | false => rw [Bool.and_false]

/-- The loop ends and calls its function with each member in order, whatever the function does. -/
theorem forEach_of (hw : w ≤ 64) (a : Ternary w) (f : Word.Stored → Loop σ Unit) :
    (of a).forEach f = forM a.members fun x => f (.of x) := by
  have hall (t : Machine) : t ∈ (Word.subsets a.unknown).map (·.setWidth 64) ↔
      t &&& (of a).unknown = t := by
    rw [unknown_of, mem_map_setWidth]
  have hsorted : ((Word.subsets a.unknown).map (·.setWidth 64)).Pairwise (· < ·) := by
    refine List.pairwise_map.2 ((Word.pairwise_subsetsBelow a.unknown w).imp fun {s t} hst => ?_)
    rw [BitVec.lt_def, BitVec.toNat_setWidth_of_le hw, BitVec.toNat_setWidth_of_le hw]
    exact hst
  have hwords : forM ((Word.subsets a.unknown).map (·.setWidth 64))
        (fun t => f (Word.Stored.of (a.umin ||| t.setWidth w))) =
      forM a.members fun x => f (.of x) := by
    rw [members, List.forM_map, List.forM_map]
    refine congrArg (forM (Word.subsets a.unknown)) (funext fun s => ?_)
    rw [BitVec.setWidth_setWidth_of_le s hw, BitVec.setWidth_eq]
  obtain ⟨rest, hrest⟩ := Word.exists_subsetsBelow_eq_cons a.unknown w
  rw [← hwords]
  -- the loop starts with the empty subset, the first of the list
  rw [Word.subsets, hrest, List.map_cons, BitVec.ofNat_eq_ofNat, BitVec.setWidth_zero]
    at hall hsorted ⊢
  exact forEachFrom_of hw a f [] hsorted hall

/-! ## Joins -/

theorem full_of (hw : w ≤ 64) : full w = .ok (of (Ternary.full w)) := by
  have hmask : mask w = (BitVec.allOnes w).setWidth 64 := by
    refine eq_setWidth fun k hk => ?_
    rw [Word.Stored.getLsbD_mask, BitVec.getLsbD_allOnes, decide_eq_true hk, Bool.true_and]
  rw [full, if_pos (show w ≤ Word.maxWidth from hw), hmask]
  rfl

theorem ofWord_of (x : BitVec w) : ofWord (.of x) = of (Ternary.ofWord x) := by
  have hzeros : ~~~(x.setWidth 64) &&& mask w = (~~~x).setWidth 64 := by
    refine eq_setWidth fun k hk => ?_
    rw [BitVec.getLsbD_and, BitVec.getLsbD_not, BitVec.getLsbD_not, Word.Stored.getLsbD_mask,
      getLsbD_setWidth x hk, decide_eq_true hk, Bool.true_and, Bool.true_and, Bool.and_comm]
  exact congrArg (Stored.mk · (x.setWidth 64) w) hzeros

theorem join_of (a b : Ternary w) : (of a).join (of b) = .ok (of (a.join b)) := by
  refine (if_pos rfl).trans ?_
  rw [of, of, of, Ternary.join, BitVec.setWidth_or, BitVec.setWidth_or]

theorem absorb_run_none (value : Stored) : (absorb value).run none = pure ((), some value) := rfl

theorem absorb_run_some (a b : Ternary w) :
    (absorb (of b)).run (some (of a)) = pure ((), some (of (a.join b))) := by
  have hattempt : (attempt ((of a).join (of b)) : Loop (Option Stored) Stored) =
      pure (of (a.join b)) := by
    rw [join_of, attempt]
  simp [absorb, hattempt]

theorem forM_absorb (values : List (Ternary w)) (a : Ternary w) :
    (forM values fun v => absorb (of v)).run (some (of a)) =
      pure ((), some (of (values.foldl Ternary.join a))) := by
  induction values generalizing a with
  | nil => rfl
  | cons v rest ih =>
    rw [List.forM_cons, StateT.run_bind, absorb_run_some, pure_bind, ih, List.foldl_cons]

theorem forM_absorb_none {values : List (Ternary w)} (h : values ≠ []) :
    (forM values fun v => absorb (of v)).run none = pure ((), some (of (joinAll values h))) := by
  cases values with
  | nil => exact absurd rfl h
  | cons v rest =>
    rw [List.forM_cons, StateT.run_bind, absorb_run_none, pure_bind]
    exact forM_absorb rest v

/-- One loop inside another one is a loop over the pairs. -/
theorem forM_pairs {β γ δ : Type} (xs : List β) (ys : List γ) (g : β → γ → δ)
    (f : δ → Loop σ Unit) : (forM xs fun x => forM ys fun y => f (g x y)) =
      forM (xs.flatMap fun x => ys.map (g x)) f := by
  induction xs with
  | nil => rfl
  | cons x rest ih =>
    rw [List.forM_cons, List.flatMap_cons, List.forM_append, List.forM_map, ih]

/-- Joining finds something to join, and nothing fails if the operation does not. -/
theorem enumerate_of (hw : w ≤ 64) (a b : Ternary w)
    {op : Word.Stored → Word.Stored → Except Word.Failure Word.Stored}
    {f : BitVec w → BitVec w → BitVec w} (hop : ∀ x y, op (.of x) (.of y) = .ok (.of (f x y))) :
    enumerate (of a) (of b) op = pure (of (a.enumerate b f)) := by
  have hstep (x y : BitVec w) : (do absorb (ofWord (← attempt (op (.of x) (.of y)))) :
      Loop (Option Stored) Unit) = absorb (of (Ternary.ofWord (f x y))) := by
    rw [hop, attempt, pure_bind, ofWord_of]
  rw [enumerate, unknown_of, unknown_of, Word.count_setWidth hw, Word.count_setWidth hw,
    Ternary.enumerate]
  split
  · rw [show (of a).width = w from rfl, full_of hw, attempt]
  · simp only [forEach_of hw, hstep]
    have hpairs := forM_pairs a.members b.members (fun x y => Ternary.ofWord (f x y))
      fun v => absorb (of v)
    rw [← pairResults] at hpairs
    rw [hpairs, forM_absorb_none (pairResults_ne_nil a b f), pure_bind]

/-- The result of a division, without its panic code, on stored words. -/
theorem divide_result (hw : w ≤ 64) (op : DivideOp) (x y : BitVec w) :
    Prod.fst <$> Word.Stored.divide op (.of x) (.of y) = .ok (.of (op.onWords x y)) := by
  rw [Word.Stored.divide_of hw]
  rfl

end Stored

/-! ## The members in order -/

theorem mem_members_iff {a : Ternary w} {x : BitVec w} : x ∈ a.members ↔ x ∈ a :=
  ⟨mem_of_mem_members, mem_members⟩

/-- The members differ in the unknown bits alone, where the smallest one has zeros. -/
theorem pairwise_members (a : Ternary w) : a.members.Pairwise (· < ·) := by
  have hsorted := Word.pairwise_subsetsBelow a.unknown w
  refine List.pairwise_map.2 (hsorted.imp_of_mem fun {s t} _ ht hst => Word.or_lt_or hst ?_)
  intro k hk
  have hunknown := (Word.getLsbD_of_mem_subsetsBelow ht hk).1
  rw [unknown, BitVec.getLsbD_and, Bool.and_eq_true] at hunknown
  rw [a.getLsbD_umin (BitVec.lt_of_getLsbD hk), hunknown.1]
  rfl

theorem length_members (a : Ternary w) : a.members.length = 2 ^ Word.count a.unknown := by
  rw [members, List.length_map, Word.subsets, Word.length_subsetsBelow, Word.count]

theorem enumerate_best {a b : Ternary w} (f : BitVec w → BitVec w → BitVec w)
    (hcount : Word.count a.unknown + Word.count b.unknown ≤ enumerationLimit) :
    Domain.Best (a.enumerate b f) (Set.image2 f {x | x ∈ a} {y | y ∈ b}) :=
  ((enumerate_attained f hcount).bitwise
    (Set.forall_mem_image2.2 fun _ hx _ hy => enumerate_mem hx hy f)).best

/-- Writes down what a loop calls its function with. -/
def record (x : Word.Stored) : Loop (List Word.Stored) Unit := modify (· ++ [x])

theorem forM_record (xs : List (BitVec w)) (written : List Word.Stored) :
    (forM xs fun x => record (.of x)).run written = pure ((), written ++ xs.map .of) := by
  induction xs generalizing written with
  | nil =>
    rw [List.map_nil, List.append_nil]
    rfl
  | cons x rest ih =>
    rw [List.forM_cons, StateT.run_bind]
    refine (ih (written ++ [.of x])).trans ?_
    rw [List.append_assoc, List.map_cons, List.singleton_append]

/-- The list of members, and the loop on the stored three-valued word. -/
structure Enumerates (a : Ternary w) : Prop where
  increasing : a.members.Pairwise (· < ·)
  complete (x : BitVec w) : x ∈ a.members ↔ x ∈ a
  length : a.members.length = 2 ^ Word.count a.unknown
  /-- The loop ends, and its function is called with each member once, in order. -/
  calls : (((Stored.of a).forEach record).run []).run = some (.ok ((), a.members.map .of))
  /-- Whatever its function does, the loop is one through the list. -/
  loop {σ : Type} (f : Word.Stored → Loop σ Unit) :
    (Stored.of a).forEach f = forM a.members fun x => f (.of x)

/-- At every width a word may have, the loop on a stored three-valued word ends and calls its function
    once with each member and with nothing else, the smallest first. An operation on pairs of members
    is joined without a failure of the join, and if few bits are unknown this gives the least
    three-valued word that holds all results. -/
theorem member_enumeration (hw : w ≤ Word.maxWidth) :
    (∀ s : Stored, s.WellFormed ∧ s.width = w ↔ ∃ a : Ternary w, s = .of a) ∧
    (∀ a : Ternary w, Enumerates a) ∧
    ∀ (a b : Ternary w) (op : Word.Stored → Word.Stored → Except Word.Failure Word.Stored)
      (f : BitVec w → BitVec w → BitVec w), (∀ x y, op (.of x) (.of y) = .ok (.of (f x y))) →
      (Stored.enumerate (.of a) (.of b) op).run = some (.ok (.of (a.enumerate b f))) ∧
        (Word.count a.unknown + Word.count b.unknown ≤ 12 →
          Domain.Best (a.enumerate b f) (Set.image2 f {x | x ∈ a} {y | y ∈ b})) := by
  refine ⟨fun s => ⟨fun hs => hs.1.exists_of hs.2, ?_⟩, fun a => ?_, fun a b op f hop => ?_⟩
  · rintro ⟨a, rfl⟩
    exact ⟨Stored.wellFormed_of hw a, rfl⟩
  · exact
      { increasing := pairwise_members a
        complete := fun x => mem_members_iff
        length := length_members a
        calls := by
          rw [Stored.forEach_of hw, forM_record, List.nil_append]
          rfl
        loop := fun f => Stored.forEach_of hw a f }
  · refine ⟨?_, enumerate_best f⟩
    rw [Stored.enumerate_of hw a b hop]
    rfl

/-- The highest and the lowest bit are unknown, and all members are divided by minus one. -/
theorem member_enumeration_scattered :
    let a : Ternary 64 := ofKnown 4 0x7ffffffffffffffe
    let b : Ternary 64 := ofWord (-1)
    (((Stored.of a).forEach record).run []).run =
        some (.ok ((), [4#64, 5#64, 0x8000000000000004#64, 0x8000000000000005#64].map .of)) ∧
      (Stored.enumerate (.of a) (.of b) fun x y => Prod.fst <$> Word.Stored.divide .sdiv x y).run =
        some (.ok (.of (a.sdiv b))) ∧
      Domain.Best (a.sdiv b) (Set.image2 Word.sdiv {x | x ∈ a} {y | y ∈ b}) := by
  intro a b
  obtain ⟨-, henumerates, henumerate⟩ := member_enumeration (w := 64) le_rfl
  obtain ⟨hresult, hbest⟩ := henumerate a b
    (fun x y => Prod.fst <$> Word.Stored.divide .sdiv x y) Word.sdiv
    (Stored.divide_result le_rfl .sdiv)
  have hmembers :
      a.members = [4#64, 5#64, 0x8000000000000004#64, 0x8000000000000005#64] := by decide
  refine ⟨?_, hresult, hbest (by decide)⟩
  rw [(henumerates a).calls, hmembers]

end RefineCheck.Ternary
