/-
  RefineCheck.Proofs.Verifier.Restart

  Resets and failures of the system leave no trace. What is left of earlier calls after either are
  labellings without labels, and the next check of their property cannot tell them from new ones. So
  a verifier answers from then on like one that has just been made: the key of a property that is read
  from a text tells it from all others.
-/

import Mathlib
import RefineCheck.Proofs.Verifier.Alike
import RefineCheck.Proofs.Verifier.Monotone

namespace RefineCheck.Verifier

open Relation (ReflTransGen)
open VerifyM (Ensures Matches exec)

/-! ## Calls -/

/-- A call to a verifier. It is interrupted after some counts since it began. -/
inductive Call
  | step (fuel : Nat) (limit : Int) (interrupted : Counters → Bool) (p : Property)
  | verify (fuel : Nat) (interrupted : Counters → Bool) (p : Property)
  | regenerate (fuel : Nat) (node : NodeId)

/-- What a call returns. -/
inductive Reply
  | progress (refinements : Nat) (result : Except Stop Conclusion)
  | verdict (result : Except Stop Bool)
  | changed (result : Except Stop Bool)
deriving DecidableEq

/-- Why a call stopped, if it did. -/
def Reply.stop? : Reply → Option Stop
  | .progress _ (.error stop) | .verdict (.error stop) | .changed (.error stop) => some stop
  | _ => none

namespace Call

/-- The reply to a call and the verifier that it leaves. -/
def perform (v : Verifier) : Call → Reply × Verifier
  | .step fuel limit interrupted p =>
    let r := v.step fuel ⟨limit, fun c => interrupted (c.since v.counters)⟩ p
    (.progress r.1.refinements r.1.result, r.2)
  | .verify fuel interrupted p =>
    (exec (verifyUnless fuel (fun c => interrupted (c.since v.counters)) p) v).map .verdict id
  | .regenerate fuel node => (exec (regenerateFrom fuel node) v).map .changed id

/-- Whether a call asks for no property outside of a set. -/
def Within (S : Set Property) : Call → Prop
  | .step _ _ _ p | .verify _ _ p => p ∈ S
  | .regenerate _ _ => True

/-- The replies to some calls, each with the verifier that it leaves. -/
def replies (v : Verifier) : List Call → List (Reply × Verifier)
  | [] => []
  | call :: calls => call.perform v :: replies (call.perform v).2 calls

end Call

/-- A call about properties of a set, or a reset. -/
inductive Serves (S : Set Property) : Verifier → Verifier → Prop
  | call (v : Verifier) {call : Call} : call.Within S → Serves S v (call.perform v).2
  | reset (v : Verifier) : Serves S v v.reset

variable {v₀ v w : Verifier} {S : Set Property} {d : Counters} {call : Call} {stop : Stop}

/-! ## Calls on verifiers that are alike -/

/-- A call has the same reply on verifiers that are alike and leaves them alike. -/
theorem Alike.perform (h : Alike v₀ S d v w) (hkeys : Set.InjOn Property.key S)
    (hinherent : .inherent ∈ S) (hcall : call.Within S) :
    (call.perform v).1 = (call.perform w).1 ∧
      Alike v₀ S d (call.perform v).2 (call.perform w).2 := by
  have hinterrupted (interrupted : Counters → Bool) (c : Counters) :
      interrupted ((c + d).since v.counters) = interrupted (c.since w.counters) := by
    rw [h.counters_eq, Counters.since_add_add]
  cases call with
  | step fuel limit interrupted p =>
    have hstart : v.counters.refinements = w.counters.refinements + d.refinements := by
      rw [h.counters_eq, Counters.refinements_add]
    obtain ⟨houtcome, hleft⟩ := h.pursue hkeys hcall fuel
      ⟨limit, fun c => interrupted (c.since v.counters)⟩
      ⟨limit, fun c => interrupted (c.since w.counters)⟩ rfl (hinterrupted interrupted)
      w.counters.refinements fuel
    rw [← hstart] at houtcome hleft
    -- the difference of the counts is the same before and after the steps
    have hmade := congrArg Counters.refinements hleft.counters_eq
    rw [Counters.refinements_add] at hmade
    refine ⟨?_, hleft⟩
    show Reply.progress (_ - v.counters.refinements) _ = .progress (_ - w.counters.refinements) _
    congr 1
    show (exec _ v).2.counters.refinements - _ = (exec _ w).2.counters.refinements - _
    rw [hmade, hstart, Nat.add_sub_add_right]
  | verify fuel interrupted p =>
    obtain ⟨houtcome, hleft⟩ := h.verifyUnless hkeys hinherent hcall fuel
      (fun c => interrupted (c.since v.counters)) (fun c => interrupted (c.since w.counters))
      (hinterrupted interrupted)
    exact ⟨congrArg Reply.verdict houtcome, hleft⟩
  | regenerate fuel node =>
    obtain ⟨houtcome, hleft⟩ := h.regenerateFrom fuel node
    exact ⟨congrArg Reply.changed houtcome, hleft⟩

/-- Replies that cannot be told apart: they say the same, the spaces are the same, and the statistics
    differ by what was counted before. -/
def Indistinguishable (d : Counters) (a b : Reply × Verifier) : Prop :=
  a.1 = b.1 ∧ a.2.space = b.2.space ∧
    a.2.stats = { b.2.stats with counters := b.2.stats.counters + d }

theorem Alike.replies (h : Alike v₀ S d v w) (hkeys : Set.InjOn Property.key S)
    (hinherent : .inherent ∈ S) {calls : List Call} (hcalls : ∀ call ∈ calls, call.Within S) :
    List.Forall₂ (Indistinguishable d) (Call.replies v calls) (Call.replies w calls) := by
  induction calls generalizing v w with
  | nil => exact .nil
  | cons call calls ih =>
    rw [List.forall_mem_cons] at hcalls
    obtain ⟨hreply, hleft⟩ := h.perform hkeys hinherent hcalls.1
    exact .cons ⟨hreply, hleft.space_eq, hleft.stats_eq⟩ (ih hleft hcalls.2)

/-! ## Verifiers that are reached

A verifier that is like itself has labellings of the asked properties only, and starts like the
first one after a reset. -/

/-- A verifier that has generated nothing yet. -/
structure Unused (v : Verifier) : Prop where
  checker_eq : v.checker = .empty
  reset_eq : v.reset = v

theorem unused_ofSystem {system : TransitionSystem} {options : Options}
    (h : ofSystem system options = .ok v) : v.Unused := by
  obtain ⟨coarsest, kept, -, -, rfl⟩ := ofSystem_eq_ok h
  exact ⟨rfl, rfl⟩

theorem Unused.counters_eq (h : v.Unused) : v.counters = {} :=
  (congrArg Verifier.counters h.reset_eq).symm

theorem Unused.rooted (h : v₀.Unused) : Rooted v₀ v₀ :=
  calc v₀.reset = { v₀.reset with checker := v₀.checker.purge } := rfl
    _ = { v₀ with checker := v₀.checker.purge } := by rw [h.reset_eq]

/-- A verifier that is otherwise unused, with purged labellings and counts of its own. -/
theorem Unused.alike (h : v₀.Unused) {c : Checker} (hc : c.Alike S .empty) (d : Counters) :
    Alike v₀ S d { v₀ with checker := c, counters := d } v₀ := by
  have hswap : ({ v₀ with checker := c, counters := d } : Verifier) = v₀.swap d c := by
    rw [swap, h.counters_eq, Counters.zero_add]
  rw [hswap]
  exact .intro (h.checker_eq ▸ hc) h.rooted

theorem Alike.reset (h : Alike v₀ S d v w) : Alike v₀ S {} v.reset w.reset := by
  cases h with
  | @intro w c hc hroot =>
    have hreset : w.reset = { v₀ with checker := w.checker.purge } := hroot
    refine .intro (w := w.reset) hc.purge ?_
    show { w.reset with checker := w.checker.purge.purge } = _
    rw [hreset]

/-- Every verifier that is reached is like itself. -/
theorem Unused.reached (h : v₀.Unused) (hkeys : Set.InjOn Property.key S)
    (hinherent : .inherent ∈ S) (hcalls : ReflTransGen (Serves S) v₀ v) : Alike v₀ S {} v v := by
  induction hcalls with
  | refl =>
    refine .intro (w := v₀) (c := v₀.checker) ?_ h.rooted
    rw [h.checker_eq]
    refine ⟨fun hl => ?_, fun hl => ?_, fun hl => ?_⟩ <;> simp [Checker.empty] at hl
  | tail _ hserves ih =>
    cases hserves with
    | call hcall => exact (ih.perform hkeys hinherent hcall).2
    | reset => exact ih.reset

/-! ## Failures of the system -/

/-- Whether a failure of the system leaves a verifier without its space. -/
def Discards (stop : Stop) (w : Verifier) : Prop := stop.Systemic → ∃ u : Verifier, w = u.invalidate

theorem discards_guarded {α : Type} (x : VerifyM α) (v : Verifier) :
    Ensures (VerifyM.guarded x) v (fun _ _ => True) Discards := by
  have hany : Ensures x v (fun _ _ => True) fun _ _ => True := ⟨fun _ => trivial, fun _ => trivial⟩
  refine hany.guarded (fun {cause w} _ _ _ => ⟨w, rfl⟩) fun {stop w} hcause _ hstop => ?_
  cases stop with
  | failure cause =>
    obtain rfl := hcause cause rfl
    exact hstop.elim
  | fault _ | exhausted => exact hstop.elim

theorem discards_pursue (inner : Nat) (limits : Limits) (p : Property) (start fuel : Nat)
    (v : Verifier) :
    Ensures (pursue inner limits p start fuel) v (fun _ _ => True) Discards := by
  have hprepare {v : Verifier} : Ensures (prepare inner p) v (fun _ _ => True) Discards :=
    ensures_prepare (fun _ => discards_guarded _ _) (fun _ _ => discards_guarded _ _)
      fun _ _ => trivial
  have hconclude {v : Verifier} : Ensures (conclude p) v (fun _ _ => True) Discards :=
    ensures_conclude rfl (fun _ h => h.elim) (fun _ h => h.elim) (fun _ => trivial)
      (fun _ => trivial) fun _ h => h.elim
  exact ensures_pursue (I := fun _ _ => True) (fun _ h => h.elim) (fun _ h => h.elim)
    (fun _ => .bind hprepare fun _ => hconclude.imp
      (fun _ => ⟨fun _ => trivial, fun _ => trivial⟩) fun h => h) trivial

theorem discards_verifyUnless (fuel : Nat) (interrupted : Counters → Bool) (p : Property)
    (v : Verifier) :
    Ensures (verifyUnless fuel interrupted p) v (fun _ _ => True) Discards := by
  have hdecide (p : Property) {v : Verifier} :
      Ensures (decideUnless fuel interrupted p) v (fun _ _ => True) Discards :=
    .bind_get (.bind (discards_pursue _ _ _ _ _ _) fun _ => .of_pure trivial)
  exact ensures_verify (I := fun _ => True) (fun _ h => h.elim) (fun _ h => h.elim)
    (fun _ => hdecide .inherent) (fun _ => hdecide p) trivial

theorem discards_regenerateFrom (fuel : Nat) (node : NodeId) (v : Verifier) :
    Ensures (regenerateFrom fuel node) v (fun _ _ => True) Discards :=
  .bind (discards_guarded _ _) fun _ => .bind_modify (.of_pure trivial)

theorem discards_of_ensures {α : Type} {x : VerifyM α} (h : Ensures x v (fun _ _ => True) Discards)
    (hstop : (exec x v).1 = .error stop) : Discards stop (exec x v).2 :=
  h.error (Prod.ext hstop rfl)

/-- A call that the system makes fail leaves a verifier without its space. -/
theorem discards_perform (hstop : (call.perform v).1.stop? = some stop) :
    Discards stop (call.perform v).2 := by
  have herror {α : Type} {r : Except Stop α} (reply : Except Stop α → Reply)
      (hok : ∀ a, (reply (.ok a)).stop? = none) (hreply : ∀ stop, (reply (.error stop)).stop? = some stop)
      (h : (reply r).stop? = some stop) : r = .error stop := by
    cases r with
    | ok a => rw [hok] at h; cases h
    | error other => rw [hreply] at h; exact congrArg _ (Option.some.inj h)
  cases call with
  | step fuel limit interrupted p =>
    have hensures := discards_pursue fuel ⟨limit, fun c => interrupted (c.since v.counters)⟩ p
      v.counters.refinements fuel v
    show Discards stop (exec (pursue _ _ _ _ _) v).2
    exact discards_of_ensures hensures (herror (.progress _) (fun _ => rfl) (fun _ => rfl) hstop)
  | verify fuel interrupted p =>
    have hensures := discards_verifyUnless fuel (fun c => interrupted (c.since v.counters)) p v
    show Discards stop (exec (verifyUnless _ _ _) v).2
    exact discards_of_ensures hensures (herror .verdict (fun _ => rfl) (fun _ => rfl) hstop)
  | regenerate fuel node =>
    have hensures := discards_regenerateFrom fuel node v
    show Discards stop (exec (regenerateFrom _ _) v).2
    exact discards_of_ensures hensures (herror .changed (fun _ => rfl) (fun _ => rfl) hstop)

/-! ## Starting again -/

theorem Alike.reset_unused (h : Alike v₀ S d v v) (h₀ : v₀.Unused) : Alike v₀ S {} v.reset v₀ := by
  have hreset : v.reset = { v₀ with checker := v.checker.purge, counters := {} } := by
    rw [← h₀.counters_eq]
    exact h.rooted
  rw [hreset]
  exact h₀.alike h.checker.purge.purge_empty {}

/-- A verifier without its space has nothing but counts and blank labellings left. -/
theorem Alike.invalidate_unused {u : Verifier} (h : Alike v₀ S d u.invalidate u.invalidate)
    (h₀ : v₀.Unused) : Alike v₀ S u.invalidate.counters u.invalidate v₀ := by
  have hreset : u.invalidate.reset = { v₀ with checker := u.invalidate.checker.purge } := h.rooted
  have hsame : u.invalidate = { v₀ with
      checker := u.checker.purge, counters := u.counters } :=
    calc u.invalidate = { u.invalidate.reset with
          checker := u.checker.purge, counters := u.counters } := rfl
      _ = _ := by rw [hreset]
  have hchecker : u.checker.purge.Alike S .empty := Checker.Alike.purge_empty h.checker
  have halike := h₀.alike hchecker u.counters
  rwa [← hsame] at halike

/-- The properties that texts are read as. -/
def parsed : Set Property := {p | ∃ text, Property.parse text = .ok p}

/-- They have keys of their own. -/
theorem injOn_key_parsed : Set.InjOn Property.key parsed := by
  rintro p ⟨text, hp⟩ q ⟨text', hq⟩ hkey
  exact Property.key_injective (Property.parsed_of_parse hp).wellNamed
    (Property.parsed_of_parse hq).wellNamed hkey

theorem inherent_parsed : .inherent ∈ parsed := ⟨_, parse_inherent⟩

/-- However a verifier was used, after a reset and after a call that the system made fail it answers
    every sequence of calls like a new verifier of the same system with the same options, and builds the
    same space. The statistics are the same after a reset and differ by what was counted before after a
    failure. -/
theorem restart_leaves_no_trace {system : TransitionSystem} {options : Options}
    (hstart : ofSystem system options = .ok v₀) (hcalls : ReflTransGen (Serves parsed) v₀ v) :
    (v.reset.space = v₀.space ∧ v.reset.stats = v₀.stats ∧
      ∀ calls : List Call, (∀ call ∈ calls, call.Within parsed) →
        List.Forall₂ (fun a b => a.1 = b.1 ∧ a.2.space = b.2.space ∧ a.2.stats = b.2.stats)
          (Call.replies v.reset calls) (Call.replies v₀ calls)) ∧
    ∀ (call : Call) (stop : Stop), call.Within parsed → (call.perform v).1.stop? = some stop →
      stop.Systemic →
      (call.perform v).2.space = v₀.space ∧
      (call.perform v).2.stats = { v₀.stats with counters := (call.perform v).2.counters } ∧
      ∀ calls : List Call, (∀ call ∈ calls, call.Within parsed) →
        List.Forall₂ (fun a b => a.1 = b.1 ∧ a.2.space = b.2.space ∧
            a.2.stats = { b.2.stats with
              counters := b.2.stats.counters + (call.perform v).2.counters })
          (Call.replies (call.perform v).2 calls) (Call.replies v₀ calls) := by
  -- a used verifier is like itself, which is all that the reset and the failure need to know
  have h₀ := unused_ofSystem hstart
  have hv := h₀.reached injOn_key_parsed inherent_parsed hcalls
  refine ⟨?_, fun call stop hcall hstop hsystemic => ?_⟩
  · have hreset := hv.reset_unused h₀
    exact ⟨hreset.space_eq, hreset.stats_eq, fun calls hwithin =>
      hreset.replies injOn_key_parsed inherent_parsed hwithin⟩
  · -- the failure discarded the space, so only counts and labellings are left
    obtain ⟨u, hu⟩ := discards_perform hstop hsystemic
    have hleft := (hv.perform injOn_key_parsed inherent_parsed hcall).2
    rw [hu] at hleft ⊢
    have halike := hleft.invalidate_unused h₀
    refine ⟨halike.space_eq, halike.stats_eq.trans ?_, fun calls hwithin =>
      halike.replies injOn_key_parsed inherent_parsed hwithin⟩
    show ({ v₀.stats with counters := v₀.counters + u.invalidate.counters } : Stats) = _
    rw [h₀.counters_eq, Counters.zero_add]

/-- A system that refuses an input in every state. -/
def refusing : Description where
  inputs := ⟨[⟨"a", .unsigned, .scalar ⟨1, .full 1⟩⟩]⟩
  states := ⟨[⟨"x", .unsigned, .scalar ⟨1, .full 1⟩⟩]⟩
  init := [("x", .constant (.ofNat 1 0))]
  next := [("x", .failIf (.input "a") "refused" (.state "x"))]
  initPanic := none
  nextPanic := none
  messages := []
  backward := .faithful

/-- After it failed, and after a reset, a verifier of a system that refuses an input fails again like a
    new one. -/
theorem restart_leaves_no_trace_refusing : ∃ v₀ : Verifier, ofSystem refusing.toSystem {} = .ok v₀ ∧
    (Call.perform v₀ (.regenerate 9 root)).1.stop? =
      some (.failure (.generation 1 [.raised "refused"])) ∧
    List.Forall₂ (fun a b => a.1 = b.1 ∧ a.2.space = b.2.space ∧ a.2.stats = b.2.stats)
      (Call.replies (Call.perform v₀ (.regenerate 9 root)).2.reset [.verify 9 (fun _ => false) .inherent])
      (Call.replies v₀ [.verify 9 (fun _ => false) .inherent]) ∧
    List.Forall₂ (fun a b => a.1 = b.1)
      (Call.replies (Call.perform v₀ (.regenerate 9 root)).2 [.verify 9 (fun _ => false) .inherent])
      (Call.replies v₀ [.verify 9 (fun _ => false) .inherent]) := by
  have hcalls (call : Call) (h : call ∈ [Call.verify 9 (fun _ => false) .inherent]) :
      call.Within parsed :=
    List.mem_singleton.1 h ▸ inherent_parsed
  obtain ⟨v₀, hstart⟩ : ∃ v₀, ofSystem refusing.toSystem {} = .ok v₀ := ⟨_, rfl⟩
  have hstop : (Call.perform v₀ (.regenerate 9 root)).1.stop? =
      some (.failure (.generation 1 [.raised "refused"])) := by
    obtain rfl := Except.ok.inj hstart
    decide +kernel
  have hfirst := restart_leaves_no_trace hstart .refl
  have hserves : Serves parsed v₀ (Call.perform v₀ (.regenerate 9 root)).2 := .call v₀ trivial
  have hused := restart_leaves_no_trace hstart (.single hserves)
  refine ⟨v₀, hstart, hstop, hused.1.2.2 _ hcalls, ?_⟩
  exact ((hfirst.2 (.regenerate 9 root) _ trivial hstop trivial).2.2 _ hcalls).imp fun _ _ h => h.1

end RefineCheck.Verifier
