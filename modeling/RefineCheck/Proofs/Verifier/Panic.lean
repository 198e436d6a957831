/-
  RefineCheck.Proofs.Verifier.Panic

  What is reported of a system that can panic. The report follows the three-valued verdict: some
  reachable state cannot have the code of no panic. Its message follows a search of its own for a state
  with a single code, and names a code exactly if there is such a state.
-/

import Mathlib
import RefineCheck.Proofs.Verifier.Attentive
import RefineCheck.TransitionSystem.Expression

namespace RefineCheck

open Relation (ReflTransGen)

/-! ## Panicking states -/

/-- Whether a state stands for one that panics with some code. -/
def State.PanicsWith (s : State) (code : Nat) : Prop := ∃ x ∈ s.panic.val, x.toNat = code

/-- Whether a state stands for panicking ones only. -/
def State.Panics (s : State) : Prop := ¬ s.PanicsWith noPanic

/-- Whether a state can be reached. -/
def Space.Reaches (s : Space) (st : State) : Prop := ∃ n ∈ s.reachable, s.states[n]? = some st

/-- Comparing a panic code with zero is false for a state that panics only. -/
theorem Atomic.equals_zero {value : Value} (h : equals 0 value = .ff) :
    ¬ ∃ x ∈ value.val, x.toNat = 0 := by
  rintro ⟨x, hx, hzero⟩
  have hfit : fit? 0 value.width = some x := by
    rw [fit?, if_pos le_rfl, if_pos (Int.natCast_nonneg _)]
    refine congrArg some (BitVec.eq_of_toNat_eq ?_)
    rw [hzero]
    simp
  rw [equals, hfit] at h
  simp only [Reduced.has_iff.2 hx, if_true] at h
  split at h <;> cases h

/-- A property of all successors is false only where one of them falsifies it. -/
theorem exists_ff_of_always {σ : Type} {K : Kripke σ Kleene} {z : σ → Kleene} {S : Set σ}
    (hclosed : ∀ s ∈ S, K.next s ⊆ S) {s : σ} (hs : s ∈ S)
    (h : Extremum.greatest.solution (fun y => z ⊓ K.step .all y) s = .ff) : ∃ t ∈ S, z t = .ff := by
  by_contra hne
  have hlt : ¬ Kleene.unknown ≤ .ff := by decide
  -- unknown on the whole set and false outside of it is not lowered
  classical
  set y : σ → Kleene := fun t => if t ∈ S then .unknown else .ff with hy
  have hin {t : σ} (ht : t ∈ S) : y t = .unknown := if_pos ht
  have hle : y ≤ z ⊓ K.step .all y := by
    intro t
    by_cases ht : t ∈ S
    · rw [hin ht]
      refine le_inf (Kleene.unknown_le fun hz => hne ⟨t, ht, hz⟩) (le_iInf₂ fun u hu => ?_)
      rw [hin (hclosed t ht hu)]
    · rw [show y t = .ff from if_neg ht]
      exact bot_le
  have hsolution : y ≤ Extremum.greatest.solution fun y => z ⊓ K.step .all y := le_sSup hle
  have hfalse := hsolution s
  rw [hin hs, h] at hfalse
  exact hlt hfalse

namespace Space

variable {s : Space} {code : Nat}

/-- If the inherent property is false of a space, some reachable state panics. -/
theorem panics_of_verdict (h : s.verdict .inherent = .ff) :
    ∃ st, s.Reaches st ∧ st.Panics := by
  obtain ⟨n, hn, hff⟩ := Kleene.iInf_eq_ff h
  have hreachable : n ∈ s.reachable := Space.reachable_closed (Space.mem_reachable.2 .refl) hn
  obtain ⟨m, hm, hatom⟩ := exists_ff_of_always (S := {n | n ∈ s.reachable})
    (fun n hn m hm => Space.reachable_closed hn hm) hreachable hff
  have houtcome : s.outcome ⟨"__panic", none, .signless, .eq, 0⟩ m = .ff := hatom
  rw [outcome] at houtcome
  cases hst : s.states[m]? with
  | none =>
    rw [hst] at houtcome
    cases houtcome
  | some st =>
    rw [hst] at houtcome
    exact ⟨st, ⟨m, hm, hst⟩, Atomic.equals_zero houtcome⟩

theorem panic?_eq_some (h : s.panic? = some code) :
    ∃ st, s.Reaches st ∧ st.panic.number? = some code ∧ code ≠ noPanic := by
  obtain ⟨n, hn, hcode⟩ := List.exists_of_findSome?_eq_some h
  cases hst : s.states[n]? with
  | none =>
    rw [hst] at hcode
    cases hcode
  | some st =>
    rw [hst] at hcode
    cases hnumber : st.panic.number? with
    | none => simp [hnumber] at hcode
    | some code' =>
      simp only [hnumber, Option.bind_eq_bind, Option.bind_some] at hcode
      split at hcode
      · cases hcode
      · rename_i hne
        obtain rfl := Option.some.inj hcode
        exact ⟨st, ⟨n, hn, hst⟩, hnumber, hne⟩

theorem panic?_isSome {st : State} (hst : s.Reaches st) (hcode : st.panic.number? = some code)
    (hne : code ≠ noPanic) : s.panic?.isSome = true := by
  obtain ⟨n, hn, hst⟩ := hst
  rw [panic?, List.findSome?_isSome_iff]
  refine ⟨n, hn, ?_⟩
  simp [hst, hcode, hne]

end Space

/-- Every code has a meaning. -/
theorem TransitionSystem.messageOf_ne_empty (system : TransitionSystem) (code : Nat) :
    system.messageOf code ≠ "" := by
  rw [messageOf]
  cases hmessage : builtinMessage? code with
  | some message =>
    rw [builtinMessage?.eq_def] at hmessage
    show message ≠ ""
    split at hmessage
    · exact Option.some.inj hmessage ▸ (by decide)
    · exact Option.some.inj hmessage ▸ (by decide)
    · cases hmessage
  | none =>
    simp only
    split
    · simp [String.append_eq_empty_iff]
    · rename_i hne
      simpa using hne

namespace Verifier

open VerifyM (Ensures exec)

variable {system : TransitionSystem} {t : Shape} {v w : Verifier} {message : String}

/-! ## Reports -/

/-- Whether a computation stops for another reason than that the system can panic. -/
def Discreet (stop : Stop) (_ : Verifier) : Prop := ∀ message, stop ≠ .failure (.inherentPanic message)

theorem discreet_fault (cause : Fault) (v : Verifier) : Discreet (.fault cause) v := by
  intro message h
  cases h

theorem discreet_failure {cause : Failure} (h : ∀ message, cause ≠ .inherentPanic message)
    (v : Verifier) : Discreet (.failure cause) v :=
  fun message hreport => h message (Stop.failure.inj hreport)

theorem discreet_exhausted (v : Verifier) : Discreet .exhausted v := by
  intro message h
  cases h

theorem discreet_expand (fuel : Nat) (node : NodeId) (v : Verifier) :
    Ensures (expand fuel node) v (fun _ _ => True) Discreet := by
  rw [expand]
  refine .bind_modify (.bind_get (.bind_raise (fun {r} _ => ?_) fun _ => discreet_fault _ _))
  obtain ⟨space, removed⟩ := r
  refine .bind_modify (.bind_get (.bind_liftM (fun {steps} _ => ?_) fun hstop message hreport => ?_))
  · refine .bind_get (.bind_raise (fun {r} _ => ?_) fun _ => discreet_fault _ _)
    exact .bind_modify (.of_pure trivial)
  · obtain ⟨causes, hcause⟩ := (stop_of_successors hstop).2 _ hreport
    cases hcause

theorem discreet_explore (inner fuel : Nat) (queue : List NodeId) (added : List StateId)
    (changed : List NodeId) (v : Verifier) :
    Ensures (explore inner fuel queue added changed) v (fun _ _ => True) Discreet := by
  induction fuel generalizing queue added changed v with
  | zero =>
    cases queue with
    | nil => exact .of_pure trivial
    | cons node queue => exact .of_throw (discreet_exhausted _)
  | succ fuel ih =>
    cases queue with
    | nil => exact .of_pure trivial
    | cons node queue =>
      rw [explore]
      refine .bind_get ?_
      split
      · exact ih _ _ _ _
      · exact .bind (discreet_expand inner node v) fun _ => .bind_get (ih _ _ _ _)

theorem discreet_regenerate (fuel : Nat) (node : NodeId) (v : Verifier) :
    Ensures (regenerate fuel node) v (fun _ _ => True) Discreet := by
  rw [regenerate]
  refine .bind (discreet_expand fuel node v) fun _ => .bind_get (.bind (discreet_explore _ _ _ _ _ _)
    fun {r w} _ => .bind_modify (.bind_get (.bind_raise (fun _ => .of_pure trivial)
      fun _ => discreet_fault _ _)))

theorem discreet_refine (inner : Nat) (culprit : Culprit) (fuel : Nat) (v : Verifier) :
    Ensures (refine inner culprit fuel) v (fun _ _ => True) Discreet := by
  have honce {v : Verifier} : Ensures (refineOnce inner culprit) v (fun _ _ => True) Discreet := by
    refine ensures_refineOnce (fun _ => discreet_fault _ _) (fun _ hstop message hreport => ?_)
      (discreet_failure (by simp) _) fun _ _ _ => discreet_regenerate _ _ _
    obtain ⟨node, fault, hcause⟩ := system_of_improvement? (hreport ▸ hstop)
    cases hcause
  refine (ensures_refine (I := fun _ _ => True) (J := fun _ => True) (fun _ => discreet_exhausted _)
    (fun _ => honce.imp (fun {changed w} _ => ?_) fun h => h) trivial).imp (fun _ => trivial) fun h => h
  cases changed <;> trivial

theorem discreet_guarded {α : Type} {x : VerifyM α} (h : Ensures x v (fun _ _ => True) Discreet) :
    Ensures (VerifyM.guarded x) v (fun _ _ => True) Discreet :=
  h.guarded (fun _ h => h) fun _ h => h

/-- No search for a verdict reports a panic. -/
theorem discreet_decideUnless (fuel : Nat) (interrupted : Counters → Bool) (p : Property)
    (v : Verifier) : Ensures (decideUnless fuel interrupted p) v (fun _ _ => True) Discreet := by
  have hprepare {v : Verifier} : Ensures (prepare fuel p) v (fun _ _ => True) Discreet :=
    ensures_prepare (fun _ => discreet_guarded (discreet_regenerate _ _ _))
      (fun _ _ => discreet_guarded (discreet_refine _ _ _ _)) fun _ _ => trivial
  have hconclude {v : Verifier} : Ensures (conclude p) v (fun _ _ => True) Discreet :=
    ensures_conclude rfl (fun _ => discreet_fault _ _) (fun _ => discreet_failure (by simp) _)
      (fun _ => trivial) (fun _ => trivial) fun _ => discreet_fault _ _
  exact .bind_get (.bind (ensures_pursue (I := fun _ _ => True) (fun _ => discreet_exhausted _)
    (fun _ => discreet_failure (by simp) _) (fun _ => .bind hprepare fun _ => hconclude.imp
      (fun _ => ⟨fun _ => trivial, fun _ => trivial⟩) fun h => h) trivial) fun _ => .of_pure trivial)

/-- A panic is reported after the inherent property was found not to hold of the space that is left. -/
theorem Attentive.reports (hsys : system.Populates) (hv : v.Attentive system t) (fuel : Nat)
    (interrupted : Counters → Bool) (p : Property) :
    Ensures (Verifier.verifyUnless fuel interrupted p) v (fun _ _ => True) fun stop w =>
      ∀ message, stop = .failure (.inherentPanic message) → w.Attentive system t ∧
        Checker.Decides w.space .inherent (.ok (.known false)) ∧ message = w.panicMessage := by
  have hdecide {v : Verifier} : Ensures (Verifier.decideUnless fuel interrupted p) v (fun _ _ => True)
      fun stop w => ∀ message, stop = .failure (.inherentPanic message) → w.Attentive system t ∧
        Checker.Decides w.space .inherent (.ok (.known false)) ∧ message = w.panicMessage :=
    (discreet_decideUnless fuel interrupted p v).imp (fun h => h)
      fun h message hreport => absurd hreport (h message)
  rw [Verifier.verifyUnless]
  refine .bind_get ?_
  dsimp only
  split
  · split
    · refine .bind_fail fun message hreport => ?_
      cases hreport
    · exact hdecide
  · split
    · refine .bind (((hv.decideUnless hsys parse_inherent fuel interrupted).and
        (discreet_decideUnless fuel interrupted .inherent v)).imp (fun h => h.1)
        fun h message hreport => absurd hreport (h.2 message)) fun {safe w} hw => ?_
      cases safe with
      | true => exact hdecide
      | false =>
        refine .bind_get (.bind_fail fun message hreport => ⟨hw.1, hw.2, ?_⟩)
        exact (Failure.inherentPanic.inj (Stop.failure.inj hreport)).symm
    · exact hdecide

/-- Whether a message is the meaning of a code that some reachable state can have, other than the one of
    no panic. -/
def Names (w : Verifier) (message : String) : Prop :=
  message ≠ "" ∧ ∃ st code, w.space.Reaches st ∧ st.PanicsWith code ∧ code ≠ noPanic ∧
    message = w.system.messageOf code

/-- The meaning of the nearest single code is found exactly if there is one. -/
theorem Attentive.names_iff (hw : w.Attentive system t) :
    (w.Names w.panicMessage ↔ ∃ st code, w.space.Reaches st ∧ st.panic.number? = some code ∧
      code ≠ noPanic) ∧ (w.panicMessage = "" ∨ w.Names w.panicMessage) := by
  have hnames {code : Nat} (hcode : w.space.panic? = some code) : w.Names w.panicMessage := by
    have hmessage : w.panicMessage = w.system.messageOf code := by rw [panicMessage, hcode]
    obtain ⟨st, hst, hnumber, hne⟩ := Space.panic?_eq_some hcode
    obtain ⟨x, hx, rfl⟩ := Option.map_eq_some_iff.1 hnumber
    obtain ⟨n, hn, hstored⟩ := hst
    have hmem := (Reduced.mem_iff_of_word? hx (hw.built.good hstored).nonempty.1).2 rfl
    exact ⟨hmessage ▸ w.system.messageOf_ne_empty _, st, _, ⟨n, hn, hstored⟩, ⟨x, hmem, rfl⟩, hne,
      hmessage⟩
  cases hpanic : w.space.panic? with
  | none =>
    have hmessage : w.panicMessage = "" := by rw [panicMessage, hpanic]
    refine ⟨⟨fun h => absurd hmessage h.1, ?_⟩, .inl hmessage⟩
    rintro ⟨st, code, hst, hnumber, hne⟩
    have hsome := Space.panic?_isSome hst hnumber hne
    rw [hpanic] at hsome
    cases hsome
  | some code => exact ⟨⟨fun _ => Space.panic?_eq_some hpanic |>.imp fun _ h => ⟨code, h⟩,
      fun _ => hnames hpanic⟩, .inr (hnames hpanic)⟩

/-- Whatever was asked before, if a verification reports that a system can panic then some reachable
    state panics for certain. The message is the meaning of a code that a reachable state can have
    exactly if some reachable state has a single code and panics, and is empty otherwise. -/
theorem panic_reported {options : Options} {v₀ : Verifier} (hsys : system.Populates)
    (hinput : ∀ m, options.inputPrecision = some m → ∃ t : Shape, m.Fits t)
    (hstart : ofSystem system options = .ok v₀) (hcalls : ReflTransGen Consults v₀ v) {fuel : Nat}
    {interrupted : Counters → Bool} {p : Property}
    (h : Call.perform v (.verify fuel interrupted p) =
      (.verdict (.error (.failure (.inherentPanic message))), w)) :
    (∃ st, w.space.Reaches st ∧ st.Panics) ∧
    (w.Names message ↔ ∃ st code, w.space.Reaches st ∧ st.panic.number? = some code ∧
      code ≠ noPanic) ∧ (message = "" ∨ w.Names message) := by
  obtain ⟨t, hv₀⟩ := attentive_ofSystem hstart hinput
  have hv := hv₀.run hsys hcalls
  obtain ⟨hreply, hleft⟩ := Prod.mk.inj h
  have hreports := hv.reports hsys fuel (fun c => interrupted (c.since v.counters)) p
  obtain ⟨hw, hdecides, hmessage⟩ :=
    hreports.error (Prod.ext (Reply.verdict.inj hreply) hleft) message rfl
  obtain ⟨-, -, hverdict⟩ := hdecides.known
  exact ⟨Space.panics_of_verdict hverdict, hmessage ▸ hw.names_iff⟩

namespace Alarm

/-- A system that panics with one code from the start on. -/
def certain : Description where
  inputs := ⟨[]⟩
  states := ⟨[]⟩
  init := []
  next := []
  initPanic := some (.constant (.ofNat panicWidth 7))
  nextPanic := none
  messages := [(7, "out of range")]
  backward := .faithful

theorem populates_certain : certain.toSystem.Populates where
  init _ h := by
    obtain rfl := Except.ok.inj h
    exact ⟨⟨⟨panicWidth, 7⟩, by decide, _, Reduced.mem_ofWord.2 rfl, rfl⟩, ⟨[]⟩, .nil⟩
  next _ _ h := by
    obtain rfl := Except.ok.inj h
    exact ⟨⟨⟨panicWidth, 0⟩, by decide, _, Reduced.mem_ofWord.2 rfl, rfl⟩, ⟨[]⟩, .nil⟩

/-- The single code of the system that panics for certain is named. -/
theorem panic_reported_certain : ∃ v w : Verifier, ofSystem certain.toSystem {} = .ok v ∧
    Call.perform v (.verify 9 (fun _ => false) (.const true)) =
      (.verdict (.error (.failure (.inherentPanic "out of range"))), w) ∧
    w.Names "out of range" := by
  obtain ⟨v, hstart⟩ : ∃ v, ofSystem certain.toSystem {} = .ok v := ⟨_, rfl⟩
  have hreply : (Call.perform v (.verify 9 (fun _ => false) (.const true))).1 =
      .verdict (.error (.failure (.inherentPanic "out of range"))) := by
    obtain rfl := Except.ok.inj hstart
    decide +kernel
  refine ⟨v, _, hstart, Prod.ext hreply rfl, ?_⟩
  obtain ⟨-, -, hmessage⟩ := panic_reported populates_certain (fun _ h => by cases h) hstart .refl
    (Prod.ext hreply rfl)
  exact hmessage.resolve_left (by decide)

/-- A system of one state that panics with one of two codes, depending on an input. -/
def joined : Description where
  inputs := ⟨[⟨"s", .unsigned, .scalar ⟨1, .full 1⟩⟩]⟩
  states := ⟨[⟨"x", .unsigned, .scalar ⟨1, .full 1⟩⟩]⟩
  init := [("x", .constant (.ofNat 1 0))]
  next := [("x", .state "x")]
  initPanic := some (.choose (.input "s") (.constant (.ofNat panicWidth 5))
    (.constant (.ofNat panicWidth 6)))
  nextPanic := none
  messages := [(5, "boom"), (6, "boom")]
  backward := .faithful

/-- Whether the field can become one. -/
def raised : Property := .eventually .some (.atom ⟨"x", none, .signless, .eq, 1⟩)

/-- The system that panics with one of two codes is reported without a message, although its state
    can have only codes with a meaning. -/
theorem panic_unnamed : ∃ v : Verifier, ofSystem joined.toSystem {} = .ok v ∧
    ∃ w, Call.perform v (.verify 9 (fun _ => false) raised) =
      (.verdict (.error (.failure (.inherentPanic ""))), w) ∧
    ∃ st, w.space.Reaches st ∧ st.Panics ∧ st.PanicsWith 5 ∧ w.system.messageOf 5 = "boom" := by
  obtain ⟨v, hstart⟩ : ∃ v, ofSystem joined.toSystem {} = .ok v := ⟨_, rfl⟩
  obtain ⟨r, w, hperform⟩ : ∃ r w, Call.perform v (.verify 9 (fun _ => false) raised) = (r, w) :=
    ⟨_, _, rfl⟩
  have hreport : (r, w.space.reachable.contains 1, w.space.states[1]?.map fun st =>
      (Atomic.equals 0 st.panic, st.panic.val.has (BitVec.ofNat st.panic.width 5),
        (BitVec.ofNat st.panic.width 5).toNat), w.system.messageOf 5) =
      (Reply.verdict (.error (.failure (.inherentPanic ""))), true, some (Kleene.ff, true, 5), "boom") := by
    obtain ⟨rfl, rfl⟩ := Prod.mk.inj hperform
    obtain rfl := Except.ok.inj hstart
    decide +kernel
  simp only [Prod.mk.injEq, List.contains_iff_mem, Option.map_eq_some_iff] at hreport
  obtain ⟨rfl, hreachable, ⟨st, hst, hzero, hfive, hcode⟩, hmessage⟩ := hreport
  exact ⟨v, hstart, w, hperform, st, ⟨1, hreachable, hst⟩, Atomic.equals_zero hzero,
    ⟨_, Reduced.has_iff.1 hfive, hcode⟩, hmessage⟩

end Alarm

end Verifier

end RefineCheck
