/-
  RefineCheck.Proofs.Verifier.Settled

  What the calls of a verifier leave, whatever its system does. A valid space has a successor for
  each of its nodes and agrees with the precisions, and the path of a culprit that is kept takes
  steps of the space as long as no generation that was asked for has changed them.
-/

import Mathlib
import RefineCheck.Proofs.Checker.Blame
import RefineCheck.Proofs.Verifier.Grounded
import RefineCheck.TransitionSystem.Expression

namespace RefineCheck.Verifier

open Relation (ReflTransGen)
open VerifyM (Ensures exec)

variable {c : Prop} {v w : Verifier} {node n : NodeId} {fuel : Nat} {stop : Stop} {p : Property}
  {culprit : Culprit}

/-! ## Settled verifiers -/

/-- A verifier between two calls. The condition tells whether the culprit that is kept is required to
    belong to the space. -/
structure Settled (c : Prop) (v : Verifier) : Prop extends Grounded v none where
  total : v.valid = true → v.Total
  blank : v.valid = false → v.space = .empty ∧ v.pending = none
  pending_links : c → ∀ {key culprit}, v.pending = some (key, culprit) →
    v.space.Links (root :: culprit.path)

theorem grounded_of_empty (hspace : v.space = .empty) (hin : v.inputPrecision.Recorded v.space)
    (hstep : v.stepPrecision.Recorded v.space) : v.Grounded none :=
  ⟨hspace ▸ Space.valid_empty, hin, hstep, fun {n} _ hne => absurd (hspace ▸ Space.next_empty n) hne⟩

/-- Without a space nothing is kept. -/
theorem settled_reset (v : Verifier) : v.reset.Settled c :=
  ⟨grounded_of_empty rfl (Precision.recorded_reset _ _) (Precision.recorded_reset _ _), nofun,
    fun _ => ⟨rfl, rfl⟩, fun _ _ _ => nofun⟩

theorem settled_invalidate (v : Verifier) : v.invalidate.Settled c :=
  ⟨grounded_of_empty rfl (Precision.recorded_reset _ _) (Precision.recorded_reset _ _), nofun,
    fun _ => ⟨rfl, rfl⟩, fun _ _ _ => nofun⟩

theorem settled_ofSystem {system : TransitionSystem} {options : Options}
    (h : ofSystem system options = .ok v) : v.Settled c := by
  obtain ⟨coarsest, kept, -, -, rfl⟩ := ofSystem_eq_ok h
  refine ⟨grounded_of_empty rfl ?_ ?_, nofun, fun _ => ⟨rfl, rfl⟩, fun _ _ _ => nofun⟩
  · intro k e st he
    simp at he
  · intro k e st he
    simp at he

/-- Only the node itself can be without successors before a generation that is asked for. -/
theorem Settled.dead (hv : v.Settled c) (hnode : v.HasNode node) (n : NodeId) (hn : v.HasNode n)
    (hnext : v.space.next n = []) : n = node := by
  cases hvalid : v.valid with
  | true => exact absurd hnext (hv.total hvalid n hn)
  | false =>
    have hroot {k : NodeId} (hk : v.HasNode k) : k = root := by
      refine hk.resolve_right fun hc => ?_
      rw [(hv.blank hvalid).1, Space.contains_iff] at hc
      simp [Space.empty] at hc
    rw [hroot hn, hroot hnode]

/-! ## Ends of computations -/

/-- A fault about the space can only be a missing edge of a culprit that need not belong to it. -/
def Excusable (c : Prop) (stop : Stop) : Prop :=
  stop.Spatial → ¬ c ∧ ∃ source target, stop = .fault (.culpritEdge source target)

/-- How a computation that is guarded may stop. -/
def Recovers (c : Prop) (stop : Stop) (w : Verifier) : Prop :=
  Excusable c stop ∧ (stop = .failure .incomplete ∨ stop.Spatial → w.Settled c)

/-- How a call may stop: a failure or a missing edge leaves a settled verifier. -/
def Fails (c : Prop) (stop : Stop) (w : Verifier) : Prop :=
  Excusable c stop ∧ ((∃ cause, stop = .failure cause) ∨ stop.Spatial → w.Settled c)

theorem Settled.fails (hw : w.Settled c) (h : ¬ stop.Spatial) : Fails c stop w :=
  ⟨fun hspatial => absurd hspatial h, fun _ => hw⟩

theorem recovers_of_not_spatial (h : ¬ stop.Spatial) (hne : stop ≠ .failure .incomplete) :
    Recovers c stop w :=
  ⟨fun hspatial => absurd hspatial h, fun hor => (hor.elim hne h).elim⟩

theorem ensures_guarded_fails {α : Type} {x : VerifyM α} {post : α → Verifier → Prop}
    (h : Ensures x v post (Recovers c)) : Ensures (VerifyM.guarded x) v post (Fails c) := by
  refine h.guarded (fun {_ w} _ hw => ⟨hw.1, fun _ => settled_invalidate w⟩) ?_
  intro stop w hcause hw
  refine ⟨hw.1, fun hor => hw.2 (hor.imp_left fun ⟨cause, hstop⟩ => ?_)⟩
  rw [hstop, hcause cause hstop]

/-! ## Refinement -/

/-- A verifier with a space that keeps no culprit. -/
structure Idle (v : Verifier) : Prop extends Grounded v none where
  total : v.Total
  valid : v.valid = true
  pending : v.pending = none

theorem Idle.settled (hv : v.Idle) : v.Settled c :=
  ⟨hv.toGrounded, fun _ => hv.total, fun h => by simp [hv.valid] at h,
    fun _ _ _ h => by simp [hv.pending] at h⟩

/-- Only counts and what is known of properties changed. -/
theorem Grounded.of_same (hv : v.Grounded none) (hsystem : w.system = v.system)
    (hspace : w.space = v.space) (hin : w.inputPrecision = v.inputPrecision)
    (hstep : w.stepPrecision = v.stepPrecision) : w.Grounded none := by
  refine ⟨hspace ▸ hv.space_valid, hspace ▸ hin ▸ hv.inputs, hspace ▸ hstep ▸ hv.steps,
    fun hn hne hcovered => ?_⟩
  rw [hspace] at hne
  rw [CoveredElsewhere, hin, hstep, hspace] at hcovered
  refine (hv.current hn hne hcovered).of_same (by rw [hspace]) ?_
  exact successors_congr hsystem (by rw [hin, hspace]) (by rw [hstep, hspace]) (by rw [hspace])

theorem Idle.counted (hv : v.Idle) : v.counted.Idle :=
  ⟨hv.toGrounded.of_same rfl rfl rfl rfl, hv.total, hv.valid, hv.pending⟩

theorem Idle.collected (hv : v.Idle) : v.collected.Idle :=
  ⟨hv.toGrounded.collected, hv.total.collected hv.space_valid, hv.valid, hv.pending⟩

/-- One refinement along a path of the space leaves the path if it reports no change. -/
theorem Idle.refineOnce (hv : v.Idle) (hlinks : c → v.space.Links (root :: culprit.path))
    (fuel : Nat) : Ensures (refineOnce fuel culprit) v
      (fun changed w => w.Idle ∧ (changed = false → c → w.space.Links (root :: culprit.path)))
      (Recovers c) := by
  refine ensures_refineOnce (fun {cause} h => ?_) (fun {mark stop} _ h => ?_)
    ⟨fun h => h.elim, fun _ => hv.settled⟩ fun {_ i w} _ _ hw => ?_
  · exact recovers_of_not_spatial (tame_culpritMark _ _ cause h) nofun
  · refine ⟨fun hspatial => ?_, fun _ => hv.settled⟩
    obtain ⟨edge, hedge, hmissing, rfl⟩ := culpritEdge_of_improvement? h hspatial
    refine ⟨fun hc => ?_, _, _, rfl⟩
    exact Space.not_mem_next_of_input? hmissing ((hlinks hc).mem_next (List.mem_reverse.1 hedge))
  · have hspace : w.space = v.space := by rw [hw.frame]
    refine ((hv.toGrounded.refined hw).regenerate (fun n hn hnext => ?_) fuel).imp ?_ ?_
    · rw [HasNode, hspace] at hn
      rw [hspace] at hnext
      exact absurd hnext (hv.total n hn)
    · rintro changed u ⟨hground, htotal, hframe, hsame⟩
      refine ⟨⟨hground, htotal, ?_, ?_⟩, fun hchanged hc => ?_⟩
      · rw [hframe, hw.frame, hv.valid]
      · rw [hframe, hw.frame, hv.pending]
      · refine (hlinks hc).imp fun n m hm => ?_
        rw [hsame hchanged n, hspace]
        exact hm
    · rintro stop u ⟨hspatial, -, hne⟩
      exact recovers_of_not_spatial hspatial hne

theorem Idle.refine (hv : v.Idle) (hlinks : c → v.space.Links (root :: culprit.path))
    (inner fuel : Nat) :
    Ensures (refine inner culprit fuel) v (fun _ w => w.Idle) (Recovers c) := by
  refine (ensures_refine (I := fun _ v => v.Idle ∧ (c → v.space.Links (root :: culprit.path)))
    (J := Idle) (fun _ => recovers_of_not_spatial id nofun)
    (fun hv => (hv.1.refineOnce hv.2 inner).imp (fun {changed w} hw => ?_) fun h => h)
    ⟨hv, hlinks⟩).imp ?_ fun h => h
  · cases changed with
    | true => exact hw.1
    | false => exact ⟨hw.1, hw.2 rfl⟩
  · rintro _ _ ⟨u, hu, rfl⟩
    exact hu.counted

/-! ## Steps -/

/-- A generation that is asked for gives every node its successors. -/
theorem Settled.regenerate (hv : v.Settled c) (node : NodeId) (fuel : Nat) :
    Ensures (VerifyM.guarded (Verifier.regenerate fuel node)) v
      (fun b w => w.Grounded none ∧ w.Total ∧ v.Rebuilt w ∧
        (b = false → ∀ n, w.space.next n = v.space.next n)) (Fails c) := by
  refine ensures_guarded_fails ?_
  by_cases hnode : v.HasNode node
  · refine ((hv.toGrounded.but node).regenerate (hv.dead hnode) fuel).imp (fun h => h) ?_
    rintro stop w ⟨hspatial, -, hne⟩
    exact recovers_of_not_spatial hspatial hne
  · obtain ⟨w, hw, -⟩ := exec_regenerate_of_not_hasNode hnode fuel
    exact .of_error hw (recovers_of_not_spatial id nofun)

/-- Preparing a step leaves a valid space. -/
theorem Settled.prepare (hv : v.Settled c) (fuel : Nat) (p : Property) :
    Ensures (prepare fuel p) v (fun _ w => w.Settled c ∧ w.valid = true) (Fails c) := by
  refine ensures_prepare (fun hvalid => ?_) (fun {culprit} hvalid hpending => ?_)
    fun hvalid _ => ⟨hv, hvalid⟩
  · refine (hv.regenerate root fuel).imp ?_ fun h => h
    rintro b w ⟨hground, htotal, hframe, -⟩
    have hidle : Idle { w with valid := true } := by
      refine ⟨hground.of_same rfl rfl rfl rfl, htotal, rfl, ?_⟩
      show w.pending = none
      rw [hframe, (hv.blank hvalid).2]
    exact ⟨hidle.settled, rfl⟩
  · have hidle : Idle { v with pending := none } :=
      ⟨hv.toGrounded.of_same rfl rfl rfl rfl, hv.total hvalid, hvalid, rfl⟩
    refine (ensures_guarded_fails (hidle.refine (fun hc => hv.pending_links hc hpending) fuel fuel)).imp
      (fun hw => ?_) fun h => h
    exact ⟨hw.collected.settled, hw.collected.valid⟩

/-- A check keeps the space, and a culprit that belongs to it. -/
theorem Settled.conclude (hv : v.Settled c) (hvalid : v.valid = true) (p : Property) :
    Ensures (conclude p) v (fun _ w => w.Settled c) (Fails c) := by
  rcases hcheck : v.checker.check v.space p with ⟨result, checker⟩
  have hblames := v.checker.blames_check ((hv.total hvalid).isLeftTotal hv.space_valid) p
  rw [hcheck] at hblames
  have hw : Settled c { v with checker } :=
    ⟨hv.toGrounded.of_same rfl rfl rfl rfl, hv.total, hv.blank, hv.pending_links⟩
  refine ensures_conclude hcheck (fun h => hw.fails (hblames.not_spatial h)) (fun _ => hw.fails id)
    (fun _ => hw) (fun {culprit} h => ?_) fun h => absurd h hblames.checkable
  refine ⟨hv.toGrounded.of_same rfl rfl rfl rfl, hv.total, fun h => ?_, fun _ {key culprit'} hpending => ?_⟩
  · rw [show _ = true from hvalid] at h
    cases h
  · obtain ⟨-, rfl⟩ := Prod.mk.inj (Option.some.inj hpending)
    exact hblames.links h

theorem Settled.pursue (hv : v.Settled c) (inner : Nat) (limits : Limits) (p : Property)
    (start fuel : Nat) :
    Ensures (pursue inner limits p start fuel) v (fun _ w => w.Settled c) (Fails c) :=
  ensures_pursue (I := fun _ => Settled c) (fun hv => hv.fails id) (fun hv => hv.fails id)
    (fun hv => .bind (hv.prepare inner p) fun hw => (hw.1.conclude hw.2 p).imp
      (fun hw => ⟨fun _ => hw, fun _ => hw⟩) fun h => h) hv

theorem Settled.decide (hv : v.Settled c) (fuel : Nat) (p : Property) :
    Ensures (decide fuel p) v (fun _ w => w.Settled c) (Fails c) :=
  .bind_get (.bind (hv.pursue fuel {} p _ fuel) fun hw => .of_pure hw)

theorem Settled.verify (hv : v.Settled c) (fuel : Nat) (p : Property) :
    Ensures (verify fuel p) v (fun _ w => w.Settled c) (Fails c) :=
  ensures_verify (fun hv => hv.fails id) (fun hv => hv.fails id)
    (fun hv => hv.decide fuel .inherent) (fun hv => hv.decide fuel p) hv

/-- A generation that is asked for keeps a culprit if it reports no change. -/
theorem Settled.regenerateFrom (hv : v.Settled c) (fuel : Nat) (node : NodeId) :
    Ensures (regenerateFrom fuel node) v
      (fun b w => (c → v.pending = none ∨ b = false) → w.Settled c) (Fails c) := by
  refine .bind (hv.regenerate node fuel) fun {b w} hw => .bind_modify (.of_pure fun hkept => ?_)
  obtain ⟨hground, htotal, hframe, hsame⟩ := hw
  have hpending : w.pending = v.pending := by rw [hframe]
  refine ⟨hground.of_same rfl rfl rfl rfl, fun _ => htotal, nofun, fun hc {key culprit} h => ?_⟩
  have hold : v.pending = some (key, culprit) := hpending.symm.trans h
  rcases hkept hc with hnone | hb
  · rw [hnone] at hold
    cases hold
  · refine (hv.pending_links hc hold).imp fun n m hm => ?_
    rw [hsame hb n]
    exact hm

/-! ## Calls -/

/-- Whether a call has ended: with a result, with a failure, or with a fault about the space. -/
def Ended {α : Type} (r : Except Stop α) : Prop :=
  ∀ stop, r = .error stop → (∃ cause, stop = .failure cause) ∨ stop.Spatial

/-- A call that asks for any property or discards the space, and has ended. -/
inductive Answers : Verifier → Verifier → Prop
  | step {v : Verifier} (fuel : Nat) (limits : Limits) (p : Property) :
    Ended (v.step fuel limits p).1.result → Answers v (v.step fuel limits p).2
  | verify {v : Verifier} (fuel : Nat) (p : Property) :
    Ended (exec (verify fuel p) v).1 → Answers v (exec (verify fuel p) v).2
  | reset (v : Verifier) : Answers v v.reset

/-- A call that has ended, also one that generates the space again from a node on. -/
inductive Returns : Verifier → Verifier → Prop
  | answers {v w : Verifier} : Answers v w → Returns v w
  | regenerate {v : Verifier} (fuel : Nat) (node : NodeId) :
    Ended (exec (regenerateFrom fuel node) v).1 →
    Returns v (exec (regenerateFrom fuel node) v).2

/-- A call that has ended and did not generate other edges while a culprit was kept. -/
inductive Undisturbed : Verifier → Verifier → Prop
  | answers {v w : Verifier} : Answers v w → Undisturbed v w
  | regenerate {v : Verifier} (fuel : Nat) (node : NodeId) :
    Ended (exec (regenerateFrom fuel node) v).1 →
    v.pending = none ∨ (exec (regenerateFrom fuel node) v).1 ≠ .ok true →
    Undisturbed v (exec (regenerateFrom fuel node) v).2

theorem settled_of_ensures {α : Type} {x : VerifyM α} {post : α → Verifier → Prop}
    (h : Ensures x v post (Fails c)) (hpost : ∀ {a w}, (exec x v).1 = .ok a → post a w → w.Settled c)
    (hended : Ended (exec x v).1) : (exec x v).2.Settled c := by
  rcases hrun : exec x v with ⟨r, w⟩
  rw [hrun] at hended hpost
  cases r with
  | ok a => exact hpost rfl (h.ok hrun)
  | error stop => exact (h.error hrun).2 (hended stop rfl)

theorem Settled.answers (hv : v.Settled c) (h : Answers v w) : w.Settled c := by
  cases h with
  | step fuel limits p hended =>
    exact settled_of_ensures (hv.pursue fuel limits p _ fuel) (fun _ hw => hw) hended
  | verify fuel p hended =>
    exact settled_of_ensures (hv.verify fuel p) (fun _ hw => hw) hended
  | reset => exact settled_reset v

theorem Settled.regenerated (hv : v.Settled c) {fuel : Nat} {node : NodeId}
    (hended : Ended (exec (Verifier.regenerateFrom fuel node) v).1)
    (hkept : c → v.pending = none ∨ (exec (Verifier.regenerateFrom fuel node) v).1 ≠ .ok true) :
    (exec (Verifier.regenerateFrom fuel node) v).2.Settled c := by
  refine settled_of_ensures (hv.regenerateFrom fuel node) (fun {b w} hb hw => hw fun hc => ?_) hended
  refine (hkept hc).imp_right fun hne => ?_
  rw [hb] at hne
  exact Bool.eq_false_iff.2 fun h => hne (congrArg Except.ok h)

/-- Every sequence of calls leaves a settled verifier. -/
theorem Settled.returns (hv : v.Settled False) (h : ReflTransGen Returns v w) : w.Settled False := by
  induction h with
  | refl => exact hv
  | tail _ hcall ih =>
    cases hcall with
    | answers h => exact ih.answers h
    | regenerate fuel node hended => exact ih.regenerated hended False.elim

theorem Settled.undisturbed (hv : v.Settled True) (h : ReflTransGen Undisturbed v w) :
    w.Settled True := by
  induction h with
  | refl => exact hv
  | tail _ hcall ih =>
    cases hcall with
    | answers h => exact ih.answers h
    | regenerate fuel node hended hkept => exact ih.regenerated hended fun _ => hkept

theorem excusable_of_ensures {α : Type} {x : VerifyM α} {post : α → Verifier → Prop}
    (h : Ensures x v post (Fails c)) (hstop : (exec x v).1 = .error stop) : Excusable c stop := by
  rcases hrun : exec x v with ⟨r, w⟩
  rw [hrun] at hstop
  exact (h.error (hrun.trans (congrArg (·, w) hstop))).1

/-! ## A system with a masked input

The state `x` is first the input `a`, unless the input `s` masks it, and then zero. The state `y` is
the last `a`. Only `s` is told apart at first, so the first one of the two initial states covers the
second one. -/

namespace MaskedInput

/-- A bit of which nothing is known. -/
def unknownBit (name : String) : Field := ⟨name, .unsigned, .scalar ⟨1, .full 1⟩⟩

/-- The masked system, which never panics. -/
def description : Description where
  inputs := ⟨[unknownBit "s", unknownBit "a"]⟩
  states := ⟨[unknownBit "x", unknownBit "y"]⟩
  init := [("x", .binary .and (.input "a") (.unary .not (.input "s"))),
    ("y", .constant (.ofNat 1 0))]
  next := [("x", .constant (.ofNat 1 0)), ("y", .input "a")]
  initPanic := none
  nextPanic := none
  messages := []
  backward := .faithful

/-- Tells `s` apart and not `a`. -/
def onlyMask : RecordMark := ⟨description.inputs, [.scalar ⟨1, .of 1 1⟩, .scalar ⟨1, .unmarked 1⟩]⟩

/-- The inherent property is assumed, and only the mask told apart. -/
def options : Options := { assumeInherent := true, inputPrecision := some onlyMask }

/-- A verifier of the system that has generated nothing yet. -/
def start : Verifier where
  system := description.toSystem
  assumeInherent := true
  inputPrecision := ⟨onlyMask, {}⟩
  stepPrecision := ⟨⟨⟨panicWidth, .all panicWidth 0⟩,
    ⟨description.states, [.scalar ⟨1, .all 1 0⟩, .scalar ⟨1, .all 1 0⟩]⟩⟩, {}⟩

theorem ofSystem_eq : ofSystem description.toSystem options = .ok start := rfl

/-- The verifier after its space was generated. -/
def generated : Verifier := (exec (regenerateFrom 9 root) start).2

theorem returns_generated : ReflTransGen Returns start generated := by
  refine .single (.regenerate 9 root ?_)
  have hok : (exec (regenerateFrom 9 root) start).1 = .ok true := by decide +kernel
  rw [hok]
  exact fun _ h => by cases h

theorem valid_generated : generated.valid = true := by decide +kernel

/-- Whether `y` can be set in some successor. -/
def settable : Property := .next .some (.atom ⟨"y", none, .signless, .eq, 1⟩)

theorem parse_settable : Property.parse "EX![y == 1]" = .ok settable := by decide +kernel

/-- The verifier after one refinement for the property, and what it concluded. -/
def refined : Progress × Verifier := start.step 9 ⟨1, fun _ => false⟩ settable

/-- The verifier after the second state was generated again, and whether that changed the space. -/
def regenerated (r : Progress × Verifier) : Except Stop Bool × Verifier :=
  exec (regenerateFrom 9 2) r.2

/-- What a generation reports, and a step after it that may not refine again. -/
def secondReport (r : Except Stop Bool × Verifier) : Except Stop Bool × Except Stop Conclusion :=
  (r.1, (r.2.step 9 ⟨0, fun _ => false⟩ settable).1.result)

/-- What is seen after a step: its conclusion, whether the space is valid, the culprit, the reachable
    nodes, the edges of the second state with the key of their target, the keys that are computed
    for them, and what comes after. -/
def report (r : Progress × Verifier) :=
  (r.1.result, r.2.valid, r.2.pending.map Prod.snd, r.2.space.reachable, r.2.space.next 2,
    (r.2.space.states[3]?).map State.key,
    (r.2.successors 9 2).map (·.map fun step => step.2.key), secondReport (regenerated r))

/-- The path to the state in which `y` is unknown. -/
def unknownPath : Culprit := ⟨[2], 3, ⟨"y", none, .signless, .eq, 1⟩⟩

set_option maxRecDepth 4000 in
/-- The refinement told `a` apart in the first state, which covers the second one. The second state
    keeps its edge to the state in which `y` is unknown until it is generated again. -/
theorem report_refined : report refined =
    (.ok (.unknown unknownPath), true, some unknownPath, [0, 1, 2, 4, 3], [3],
      some "__panic: 0, \x7bx: 0, y: \"X\"[0..0]∪[1..1]\x7d",
      .ok ["__panic: 0, \x7bx: 0, y: 0\x7d", "__panic: 0, \x7bx: 0, y: 0\x7d",
        "__panic: 0, \x7bx: 0, y: 1\x7d", "__panic: 0, \x7bx: 0, y: 1\x7d"],
      .ok true, .error (.fault (.culpritEdge "2" 3))) := by
  cbv

theorem answers_refined : Answers start refined.2 := by
  have hok : refined.1.result = .ok (.unknown unknownPath) := by
    have hreport := report_refined
    rw [report, Prod.mk.injEq] at hreport
    exact hreport.1
  refine .step 9 ⟨1, fun _ => false⟩ settable ?_
  rw [refined] at hok
  rw [hok]
  exact fun _ h => by cases h

end MaskedInput

/-! ## Left-total spaces -/

/-- Whether a computation ends with a fault that finds a node without successors. -/
def FindsDeadEnd {α : Type} (r : Except Stop α) : Prop :=
  ∃ text, r = .error (.fault (.deadEnd text)) ∨ r = .error (.fault (.notLeftTotal text))

theorem not_findsDeadEnd {α : Type} {x : VerifyM α} {post : α → Verifier → Prop}
    (h : Ensures x v post (Fails c)) : ¬ FindsDeadEnd (exec x v).1 := by
  rintro ⟨text, hr | hr⟩
  all_goals
    obtain ⟨-, source, target, hedge⟩ := excusable_of_ensures h hr trivial
    cases hedge

/-- After any calls on any system, the root and every stored state of a valid space have a
    successor, and all their successors and predecessors are stored. No call finds a node without
    successors. -/
theorem leftTotal_of_returns {system : TransitionSystem} {options : Options}
    (hstart : ofSystem system options = .ok v) (hcalls : ReflTransGen Returns v w) :
    (w.valid = true → ∀ n, w.HasNode n → w.space.next n ≠ [] ∧
      (∀ m ∈ w.space.next n, w.space.contains m = true) ∧ ∀ m ∈ w.space.previous n, w.HasNode m) ∧
    (∀ fuel node, ¬ FindsDeadEnd (exec (regenerateFrom fuel node) w).1) ∧
    (∀ fuel limits p, ¬ FindsDeadEnd (w.step fuel limits p).1.result) ∧
    ∀ fuel p, ¬ FindsDeadEnd (exec (verify fuel p) w).1 := by
  have hw := (settled_ofSystem hstart).returns hcalls
  have hs := hw.space_valid
  refine ⟨fun hvalid n hn => ⟨hw.total hvalid n hn, fun m hm => hs.target hm, fun m hm => ?_⟩,
    fun fuel node => not_findsDeadEnd (hw.regenerateFrom fuel node),
    fun fuel limits p => not_findsDeadEnd (hw.pursue fuel limits p _ fuel),
    fun fuel p => not_findsDeadEnd (hw.verify fuel p)⟩
  exact hs.source (hs.previous_iff.1 hm)

/-- The masked input leads to a space in which every node has a successor. -/
theorem MaskedInput.leftTotal_generated : ReflTransGen Returns start generated ∧
    generated.valid = true ∧ generated.space.next root = [1, 2] ∧
    ∀ n, generated.HasNode n → generated.space.next n ≠ [] := by
  have hnext : generated.space.next root = [1, 2] := by decide +kernel
  refine ⟨returns_generated, valid_generated, hnext, fun n hn => ?_⟩
  exact ((leftTotal_of_returns ofSystem_eq returns_generated).1 valid_generated n hn).1

/-! ## Edges that agree with the precisions -/

/-- After any calls on any system, the edges from the root and from every reachable state that no
    other state with a mark of its own covers lead to the states that are computed now. -/
theorem current_of_returns {system : TransitionSystem} {options : Options}
    (hstart : ofSystem system options = .ok v) (hcalls : ReflTransGen Returns v w)
    (hvalid : w.valid = true) (hn : n ∈ w.space.reachable) (hcovered : ¬ w.CoveredElsewhere n) :
    w.Current n := by
  have hw := (settled_ofSystem (c := False) hstart).returns hcalls
  have htotal := (hw.total hvalid).isLeftTotal hw.space_valid
  exact hw.current nofun (Space.isLeftTotal_iff.1 htotal n hn) hcovered

/-- The initial states of the masked input are those that are computed. -/
theorem MaskedInput.current_generated : ReflTransGen Returns start generated ∧
    generated.Current root := by
  have hroot : root ∈ generated.space.reachable := by decide +kernel
  have hstate : generated.space.states[root]? = none := by decide +kernel
  refine ⟨returns_generated,
    current_of_returns ofSystem_eq returns_generated valid_generated hroot ?_⟩
  rintro (⟨_, _, _, -, -, hst, -⟩ | ⟨_, _, _, -, -, hst, -⟩)
  · rw [hstate] at hst
    cases hst
  · rw [hstate] at hst
    cases hst

/-- After one refinement the second state of the masked input, which the first one covers, has
    another successor than those that are computed for it. -/
theorem MaskedInput.not_current_refined : ofSystem description.toSystem options = .ok start ∧
    ReflTransGen Returns start refined.2 ∧ refined.2.valid = true ∧ 2 ∈ refined.2.space.reachable ∧
    ∃ steps, refined.2.successors 9 2 = .ok steps ∧
      State.key '' refined.2.space.targets 2 ≠ {key | ∃ step ∈ steps, step.2.key = key} := by
  have hreport := report_refined
  simp only [report, Prod.mk.injEq] at hreport
  obtain ⟨-, hvalid, -, hreachable, hnext, hkey, hsucc, -⟩ := hreport
  refine ⟨ofSystem_eq, .single (.answers answers_refined), hvalid, ?_, ?_⟩
  · rw [hreachable]
    decide
  · cases hsteps : refined.2.successors 9 2 with
    | error stop =>
      rw [hsteps] at hsucc
      cases hsucc
    | ok steps =>
      rw [hsteps] at hsucc
      have hkeys : steps.map (fun step => step.2.key) = _ := Except.ok.inj hsucc
      refine ⟨steps, rfl, fun heq => ?_⟩
      -- the only successor in the space has a key that is not computed
      obtain ⟨st, hst, hstkey⟩ := Option.map_eq_some_iff.1 hkey
      have hmem : st.key ∈ State.key '' refined.2.space.targets 2 :=
        ⟨st, ⟨3, by simp [hnext], hst⟩, rfl⟩
      rw [heq] at hmem
      obtain ⟨step, hstep, hkey⟩ := hmem
      have hlisted := List.mem_map_of_mem (f := fun step => step.2.key) hstep
      rw [hkeys, hkey, hstkey] at hlisted
      revert hlisted
      decide

/-! ## Culprits that are kept -/

/-- Whether a computation ends with a culprit path that takes a step the space does not have. -/
def LosesEdge {α : Type} (r : Except Stop α) : Prop :=
  ∃ source target, r = .error (.fault (.culpritEdge source target))

theorem not_losesEdge {α : Type} {x : VerifyM α} {post : α → Verifier → Prop}
    (h : Ensures x v post (Fails True)) : ¬ LosesEdge (exec x v).1 := by
  rintro ⟨source, target, hr⟩
  exact (excusable_of_ensures h hr trivial).1 trivial

/-- After any calls on any system, none of which generated other edges while a culprit was kept, the
    path of the culprit that is kept takes steps of the space from the root on, and no call misses
    one of them. -/
theorem links_of_undisturbed {system : TransitionSystem} {options : Options}
    (hstart : ofSystem system options = .ok v) (hcalls : ReflTransGen Undisturbed v w) :
    (∀ key culprit, w.pending = some (key, culprit) → w.space.Links (root :: culprit.path)) ∧
    (∀ fuel limits p, ¬ LosesEdge (w.step fuel limits p).1.result) ∧
    ∀ fuel p, ¬ LosesEdge (exec (verify fuel p) w).1 := by
  have hw := (settled_ofSystem hstart).undisturbed hcalls
  exact ⟨fun key culprit hpending => hw.pending_links trivial hpending,
    fun fuel limits p => not_losesEdge (hw.pursue fuel limits p _ fuel),
    fun fuel p => not_losesEdge (hw.verify fuel p)⟩

/-- After one refinement the culprit that is kept for the masked input leads through the space. -/
theorem MaskedInput.links_refined : ReflTransGen Undisturbed start refined.2 ∧
    refined.2.space.Links [root, 2, 3] := by
  have hreport := report_refined
  simp only [report, Prod.mk.injEq] at hreport
  obtain ⟨-, -, hpending, -⟩ := hreport
  obtain ⟨⟨key, culprit⟩, hkept, rfl⟩ := Option.map_eq_some_iff.1 hpending
  have hcalls : ReflTransGen Undisturbed start refined.2 := .single (.answers answers_refined)
  exact ⟨hcalls, (links_of_undisturbed ofSystem_eq hcalls).1 key _ hkept⟩

/-- If the second state is generated again while the culprit is kept, the next step misses an edge of
    its path. -/
theorem MaskedInput.losesEdge_regenerated : ofSystem description.toSystem options = .ok start ∧
    ReflTransGen Returns start (regenerated refined).2 ∧
    Property.parse "EX![y == 1]" = .ok settable ∧
    LosesEdge ((regenerated refined).2.step 9 ⟨0, fun _ => false⟩ settable).1.result := by
  have hreport := report_refined
  simp only [report, secondReport, Prod.mk.injEq] at hreport
  obtain ⟨-, -, -, -, -, -, -, hok, hlost⟩ := hreport
  refine ⟨ofSystem_eq, .tail (.single (.answers answers_refined)) (.regenerate 9 2 ?_),
    parse_settable, "2", 3, hlost⟩
  rw [regenerated] at hok
  rw [hok]
  exact fun _ h => by cases h

end RefineCheck.Verifier
