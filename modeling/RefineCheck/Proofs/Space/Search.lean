/-
  RefineCheck.Proofs.Space.Search

  What a walk finds. A visitor that stops it early has been asked at the nodes of the full walk up
  to then, so whatever is searched for is found at the least distance from the root. A panic is
  searched for by its code, so a state that panics with one of several codes is passed over.
-/

import RefineCheck.Proofs.Property.Exact
import RefineCheck.Proofs.Space.Distance
import RefineCheck.Proofs.Verifier.Panic

namespace RefineCheck

open Std (TreeSet)

/-! ## Visitors -/

/-- A visitor is asked at the nodes of the walk, in its order. -/
theorem Adjacency.visit_eq {σ : Type} (g : Adjacency) (visitor : NodeId → σ → ForInStep σ)
    (queue : List NodeId) (seen : TreeSet NodeId) (a : σ) :
    g.visit visitor queue seen a = Id.run (forIn (g.walk queue seen) a visitor) := by
  induction queue, seen using Adjacency.walk.induct g generalizing a with
  | case1 seen =>
    rw [visit, walk]
    rfl
  | case2 node queue seen fresh =>
    rename_i ih
    rw [visit, walk, List.forIn_cons]
    cases visitor node a with
    | done a => rfl
    | yield a => exact ih a

namespace Space

variable {σ β : Type} {s : Space}

/-- The walk from the root with a visitor. -/
def visit (s : Space) (visitor : NodeId → σ → ForInStep σ) (a : σ) : σ :=
  s.forwards.visit visitor [root] (TreeSet.ofList [root]) a

theorem visit_eq (visitor : NodeId → σ → ForInStep σ) (a : σ) :
    s.visit visitor a = Id.run (forIn s.reachable a visitor) :=
  s.forwards.visit_eq visitor _ _ a

/-- A result that is found is the one of a node at the least distance. -/
theorem nearest_of_findSome? {result : NodeId → Option β} {b : β}
    (h : s.reachable.findSome? result = some b) :
    ∃ n ∈ s.reachable, result n = some b ∧
      ∀ m ∈ s.reachable, (result m).isSome = true → s.distance n ≤ s.distance m := by
  obtain ⟨before, n, after, hsplit, hn, hbefore⟩ := List.findSome?_eq_some_iff.1 h
  have hordered := s.reachable_ordered
  rw [hsplit, List.pairwise_append, List.pairwise_cons] at hordered
  refine ⟨n, by simp [hsplit], hn, fun m hm hsome => ?_⟩
  rw [hsplit, List.mem_append, List.mem_cons] at hm
  rcases hm with hm | rfl | hm
  · rw [hbefore m hm] at hsome
    cases hsome
  · exact le_rfl
  · exact hordered.2.1.1 m hm

/-! ## Panics -/

/-- The panic code of a node, if it is a state with a single one. -/
def alarm? (s : Space) (n : NodeId) : Option Nat := do
  let state ← s.states[n]?
  let code ← state.panic.number?
  if code = noPanic then none else some code

theorem panic?_eq : s.panic? = s.reachable.findSome? s.alarm? := rfl

end Space

/-- Whether a state stands for panicking states of this one code only. -/
def State.PanicsOnlyWith (st : State) (code : Nat) : Prop :=
  st.PanicsWith code ∧ code ≠ noPanic ∧ ∀ code', st.PanicsWith code' → code' = code

theorem State.PanicsOnlyWith.panics {st : State} {code : Nat} (h : st.PanicsOnlyWith code) :
    st.Panics := fun hnone => h.2.1 (h.2.2 _ hnone).symm

/-- A built value shows the only code it stands for. -/
theorem State.panicsOnlyWith_iff {st : State} (hst : st.Built) {code : Nat} :
    st.PanicsOnlyWith code ↔ st.panic.number? = some code ∧ code ≠ noPanic := by
  have htight := hst.panic.val.tight
  constructor
  · rintro ⟨⟨x, hx, rfl⟩, hne, honly⟩
    have hunique : ∃! y, y ∈ st.panic.val :=
      ⟨x, hx, fun y hy => BitVec.eq_of_toNat_eq (honly _ ⟨y, hy, rfl⟩)⟩
    obtain ⟨y, hy⟩ := Option.isSome_iff_exists.1 (htight.word?_isSome_iff.2 hunique)
    obtain rfl := Reduced.eq_of_word? hy hx
    exact ⟨by rw [Value.number?, hy]; rfl, hne⟩
  · rintro ⟨hcode, hne⟩
    obtain ⟨x, hx, rfl⟩ := Option.map_eq_some_iff.1 hcode
    refine ⟨⟨x, (Reduced.mem_iff_of_word? hx htight.exists_mem).2 rfl, rfl⟩, hne, ?_⟩
    rintro _ ⟨y, hy, rfl⟩
    rw [Reduced.eq_of_word? hx hy]

namespace Space

variable {s : Space} {n : NodeId} {code : Nat}

/-- Whether a node can be reached and is a state of this kind. -/
def Shows (s : Space) (n : NodeId) (kind : State → Prop) : Prop :=
  s.Leads root n ∧ ∃ st, s.states[n]? = some st ∧ kind st

/-- The search for a panic stops at the states that panic with a single code. -/
theorem shows_iff_alarm? (hs : s.Built State.Built) :
    s.Shows n (·.PanicsOnlyWith code) ↔ n ∈ s.reachable ∧ s.alarm? n = some code := by
  rw [Shows, mem_reachable]
  refine and_congr_right fun _ => ?_
  simp only [alarm?, Option.bind_eq_bind, Option.bind_eq_some_iff]
  refine exists_congr fun st => and_congr_right fun hst => ?_
  rw [State.panicsOnlyWith_iff (hs.good hst)]
  constructor
  · rintro ⟨hcode, hne⟩
    exact ⟨code, hcode, if_neg hne⟩
  · rintro ⟨code', hcode, hif⟩
    split at hif
    · cases hif
    · obtain rfl := Option.some.inj hif
      exact ⟨hcode, ‹_›⟩

/-- A panic is found just if some reachable state panics with a single code. -/
theorem panic?_eq_none_iff (hs : s.Built State.Built) :
    s.panic? = none ↔ ∀ n code, ¬ s.Shows n (·.PanicsOnlyWith code) := by
  rw [panic?_eq, List.findSome?_eq_none_iff]
  simp only [shows_iff_alarm? hs, not_and, Option.eq_none_iff_forall_ne_some]
  exact forall_congr' fun n => ⟨fun h code hn => h hn code, fun h hn code => h code hn⟩

/-- The code that is found is the one of a nearest state with a single code. -/
theorem nearest_of_panic? (hs : s.Built State.Built) (h : s.panic? = some code) :
    ∃ n, s.Shows n (·.PanicsOnlyWith code) ∧
      ∀ m code', s.Shows m (·.PanicsOnlyWith code') → s.distance n ≤ s.distance m := by
  rw [panic?_eq] at h
  obtain ⟨n, hn, hcode, hnearest⟩ := @nearest_of_findSome? _ _ s.alarm? _ h
  refine ⟨n, (shows_iff_alarm? hs).2 ⟨hn, hcode⟩, fun m code' hm => ?_⟩
  obtain ⟨hreachable, halarm⟩ := (shows_iff_alarm? hs).1 hm
  exact hnearest m hreachable (by rw [halarm]; rfl)

/-- A walk from the root visits every node that can be reached once and no other, the nearest first,
    and a visitor that stops it early has been asked at the first of them. So a space is left-total
    just if the root and every state that can be reached have a successor. The panic that is found
    is the code of a nearest state that panics with a single code, and none is found just if there
    is no such state; if every reachable state that panics for certain does so with a single code,
    this is a nearest state that panics for certain, and none is found just if there is none. -/
theorem walk_finds_nearest (hs : s.Built State.Built) :
    (∀ {σ : Type} (visitor : NodeId → σ → ForInStep σ) (a : σ),
      s.visit visitor a = Id.run (forIn s.reachable a visitor)) ∧
    s.reachable.Nodup ∧ (∀ n, n ∈ s.reachable ↔ s.Leads root n) ∧
    (s.reachable.Pairwise fun n m => s.distance n ≤ s.distance m) ∧
    (s.isLeftTotal = true ↔ ∀ n, s.Leads root n → s.next n ≠ []) ∧
    (s.panic? = none ↔ ∀ n code, ¬ s.Shows n (·.PanicsOnlyWith code)) ∧
    (∀ code, s.panic? = some code → ∃ n, s.Shows n (·.PanicsOnlyWith code) ∧
      ∀ m code', s.Shows m (·.PanicsOnlyWith code') → s.distance n ≤ s.distance m) ∧
    ((∀ n, s.Shows n State.Panics → ∃ code, s.Shows n (·.PanicsOnlyWith code)) →
      (s.panic? = none ↔ ∀ n, ¬ s.Shows n State.Panics) ∧
      ∀ code, s.panic? = some code → ∃ n, s.Shows n (·.PanicsOnlyWith code) ∧
        s.Shows n State.Panics ∧ ∀ m, s.Shows m State.Panics → s.distance n ≤ s.distance m) := by
  have hcertain {n : NodeId} {code : Nat} (h : s.Shows n (·.PanicsOnlyWith code)) :
      s.Shows n State.Panics := ⟨h.1, h.2.imp fun _ hst => ⟨hst.1, hst.2.panics⟩⟩
  have htotal : s.isLeftTotal = true ↔ ∀ n, s.Leads root n → s.next n ≠ [] := by
    rw [isLeftTotal_iff]
    exact forall_congr' fun n => imp_congr_left mem_reachable
  refine ⟨visit_eq, s.visits_reachable.nodup, fun _ => mem_reachable,
    s.reachable_ordered, htotal, panic?_eq_none_iff hs, fun _ => nearest_of_panic? hs,
    fun hsingle => ⟨?_, fun code hcode => ?_⟩⟩
  · -- with one code each, to panic for certain is to panic with a single code
    rw [panic?_eq_none_iff hs]
    refine forall_congr' fun n => ⟨fun h hn => ?_, fun h code hn => h (hcertain hn)⟩
    obtain ⟨code, honly⟩ := hsingle n hn
    exact h code honly
  · obtain ⟨n, hn, hnearest⟩ := nearest_of_panic? hs hcode
    refine ⟨n, hn, hcertain hn, fun m hm => ?_⟩
    obtain ⟨code', honly⟩ := hsingle m hm
    exact hnearest m code' honly

end Space

/-! ## Examples -/

/-- A state without fields that panics with a code. -/
def State.stopped (code : Nat) : State := ⟨.ofNat panicWidth code, .empty⟩

/-- A state without fields that panics with code one or three. -/
def State.torn : State := ⟨⟨panicWidth, .ofTernary (.ofKnown 1 (~~~2))⟩, .empty⟩

theorem State.built_of_panic {a : Reduced panicWidth} (h : a.Built) :
    (⟨⟨panicWidth, a⟩, .empty⟩ : State).Built :=
  ⟨⟨show panicWidth ≤ Word.maxWidth by decide, h⟩, fun _ hf => absurd hf List.not_mem_nil⟩

theorem State.built_stopped (code : Nat) : (stopped code).Built := built_of_panic (.ofWord _)

/-- A state that may panic, and does not have to, does not panic for certain. -/
theorem State.not_panics_doubtful : ¬ doubtful.Panics :=
  fun h => h ⟨0, Reduced.has_iff.1 (by decide +kernel), rfl⟩

theorem State.panicsOnlyWith_of_stopped {code : Nat} (h : (stopped code).Panics) :
    ∃ code', (stopped code).PanicsOnlyWith code' := by
  have hmem {x : BitVec panicWidth} (hx : x ∈ (stopped code).panic.val) : x = BitVec.ofNat _ code :=
    Reduced.mem_ofWord.1 hx
  refine ⟨_, ⟨_, Reduced.mem_ofWord.2 rfl, rfl⟩, fun hzero => ?_, ?_⟩
  · exact h ⟨_, Reduced.mem_ofWord.2 rfl, hzero⟩
  · rintro _ ⟨x, hx, rfl⟩
    rw [hmem hx]

namespace Space

/-- A state that panics two steps away, behind one that may panic, and then one that panics a single
    step away, with a way back. -/
def alarmed : Space :=
  ((((empty.extend root (.quiet .empty)).extend 1 .doubtful).extend 2 (.stopped 2)).extend 2
    (.quiet .empty)).extend 1 (.stopped 1)

theorem built_alarmed {Good : State → Prop} (hquiet : Good (.quiet .empty))
    (hdoubtful : Good .doubtful) (hstopped : ∀ code, Good (.stopped code)) : alarmed.Built Good :=
  ((((Built.empty.extend hquiet root).extend hdoubtful 1).extend (hstopped 2) 2).extend hquiet
    2).extend (hstopped 1) 1

/-- The code one is found, although the state with the code two was stored before. -/
theorem walk_finds_nearest_alarmed :
    alarmed.panic? = some 1 ∧ ∃ n, alarmed.Shows n (·.PanicsOnlyWith 1) ∧
      alarmed.Shows n State.Panics ∧
      ∀ m, alarmed.Shows m State.Panics → alarmed.distance n ≤ alarmed.distance m := by
  have hs : alarmed.Built State.Built :=
    built_alarmed (State.built_stopped 0) (State.built_of_panic (.full _))
      State.built_stopped
  have hcodes : alarmed.Built fun st => st.Panics → ∃ code, st.PanicsOnlyWith code :=
    built_alarmed (@State.panicsOnlyWith_of_stopped 0)
      (fun h => absurd h State.not_panics_doubtful) fun _ => State.panicsOnlyWith_of_stopped
  have hfound : alarmed.panic? = some 1 := by decide +kernel
  obtain ⟨-, -, -, -, -, -, -, hsingle⟩ := walk_finds_nearest hs
  refine ⟨hfound, (hsingle ?_).2 1 hfound⟩
  rintro n ⟨hn, st, hst, hpanics⟩
  obtain ⟨code, honly⟩ := hcodes.good hst hpanics
  exact ⟨code, hn, st, hst, honly⟩

/-- A state that panics with one of two codes panics for certain, but no panic is found. -/
theorem panic_with_two_codes_missed :
    (empty.extend root .torn).Built State.Built ∧
      (∃ n, (empty.extend root .torn).Shows n State.Panics) ∧
      (empty.extend root .torn).panic? = none := by
  have hs : (empty.extend root .torn).Built State.Built :=
    Built.empty.extend (State.built_of_panic (.ofTernary _)) root
  refine ⟨hs, ⟨1, mem_reachable.1 (by decide +kernel), .torn, by rfl, ?_⟩,
    by decide +kernel⟩
  exact Atomic.equals_zero (by decide +kernel)

end Space

end RefineCheck
