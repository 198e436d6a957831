/-
  RefineCheck.Proofs.Verifier.Termination

  The search for a verdict ends. Three loops are nested: steps, passes of a refinement, and the
  generation of the space. Each generation explores keys, each pass tells more bits apart, and from
  its second round on each step makes a pass.
-/

import Mathlib
import RefineCheck.Proofs.Verifier.Progress

namespace RefineCheck.Verifier

open Relation (ReflTransGen)
open VerifyM (Ensures exec)

variable {system : TransitionSystem} {hsys : system.Conforms} {v w u : Verifier} {node : NodeId}
  {culprit : Culprit} {fuel inner : Nat} {stop : Stop} {c : Prop} {text : String} {p : Property}

/-! ## Orderly verifiers -/

/-- A verifier between two calls on a system that conforms to its templates. -/
structure Orderly (hsys : system.Conforms) (v : Verifier) : Prop where
  consistent : v.Consistent hsys.contract
  settled : v.Settled True
  tidy : v.Tidy system

theorem Orderly.belongs (hv : v.Orderly hsys) : v.Belongs system :=
  hv.tidy.belongs hv.consistent.toGenerated hv.settled.toGrounded

/-- How a call may stop for which the fuel suffices under a condition. -/
def Stops (hsys : system.Conforms) (c : Prop) (stop : Stop) (w : Verifier) : Prop :=
  Mild c stop ∧ (stop ≠ .exhausted → w.Orderly hsys)

theorem Orderly.stops (hv : v.Orderly hsys) (cause : Failure) : Stops hsys c (.failure cause) v :=
  ⟨mild_failure cause, fun _ => hv⟩

/-- How a computation may stop, apart from faults about the space that other arguments exclude. -/
def Leaves (system : TransitionSystem) (c : Prop) (stop : Stop) (w : Verifier) : Prop :=
  Mild c stop ∧ (stop ≠ .exhausted → w.Tidy system) ∨ stop.Spatial

/-- A failure that discards the space leaves a tidy verifier. -/
theorem ensures_guarded_leaves {α : Type} {x : VerifyM α} {post : α → Verifier → Prop}
    (h : Ensures x v post fun stop w =>
      Mild c stop ∧ (stop = .failure .incomplete → w.Tidy system) ∨ stop.Spatial) :
    Ensures (VerifyM.guarded x) v post (Leaves system c) := by
  refine h.guarded (fun {cause w} _ hstop => hstop.imp_left fun h => ?_)
    fun {stop w} hcause hstop => hstop.imp_left fun h => ?_
  · exact ⟨h.1, fun _ => tidy_invalidate w⟩
  · refine ⟨h.1, fun hne => h.2 ?_⟩
    rcases h.1 with ⟨cause, rfl⟩ | ⟨hexhausted, -⟩
    · rw [hcause cause rfl]
    · exact absurd hexhausted hne

/-- What is left by a computation is orderly if it is consistent, settled and tidy. -/
theorem stops_of_leaves (hkept : Kept hsys.contract stop w) (hfails : Fails True stop w)
    (hleaves : Leaves system c stop w) : Stops hsys c stop w := by
  rcases hleaves with ⟨hmild, htidy⟩ | hspatial
  · refine ⟨hmild, fun hne => ⟨hkept hne, hfails.2 (.inl ?_), htidy hne⟩⟩
    exact hmild.resolve_right fun h => hne h.1
  · exact absurd trivial (hfails.1 hspatial).1

/-! ## Refinement -/

/-- A refinement ends once no bit is left to tell apart. -/
theorem Refining.refine (hv : v.Refining hsys culprit) (hinner : c → generationFuel system ≤ inner)
    (hfuel : c → v.gap system < fuel) : Ensures (Verifier.refine inner culprit fuel) v
      (fun _ w => w.Tidy system ∧ Finer system v w ∧ w.gap system < v.gap system)
      (fun stop w => Mild c stop ∧ (stop = .failure .incomplete → w.Tidy system)) := by
  -- the fuel that is left exceeds the number of bits that are left
  refine (ensures_refine (I := fun n u => u.Refining hsys culprit ∧ Finer system v u ∧
      (c → u.gap system < n))
    (J := fun u => u.Tidy system ∧ Finer system v u ∧ u.gap system < v.gap system)
    (fun hu => ⟨.inr ⟨rfl, fun hc => absurd (hu.2.2 hc) (Nat.not_lt_zero _)⟩, nofun⟩)
    (fun {n u} hu => (hu.1.refineOnce inner).imp (fun {changed w} hw => ?_) fun {stop w} hstop => ?_)
    ⟨hv, finer_of_same rfl rfl, hfuel⟩).imp ?_ fun h => h
  · obtain ⟨hu, hfiner, hleft⟩ := hu
    obtain ⟨⟨-, -, htidy⟩, hnext, -, hmore, hgap⟩ := hw
    cases changed with
    | true => exact ⟨htidy, hfiner.trans hmore, hgap.trans_le hfiner.gap_le⟩
    | false =>
      refine ⟨hnext rfl, hfiner.trans hmore, fun hc => ?_⟩
      have hlt := hleft hc
      omega
  · refine ⟨hstop.1.imp hinner, fun h => ?_⟩
    rw [hstop.2 h]
    exact hu.1.tidy
  · rintro _ _ ⟨u, ⟨htidy, hfiner, hgap⟩, rfl⟩
    exact ⟨⟨htidy.fed, htidy.inputs, htidy.steps, htidy.readable⟩, ⟨hfiner.input, hfiner.step⟩, hgap⟩

/-- A culprit that is kept is one to refine along. -/
theorem Orderly.refining (hv : v.Orderly hsys) {key : String}
    (hpending : v.pending = some (key, culprit)) :
    Refining hsys culprit { v with pending := none } := by
  have hvalid : v.valid = true := by
    by_contra hinvalid
    rw [Bool.not_eq_true] at hinvalid
    rw [(hv.settled.blank hinvalid).2] at hpending
    cases hpending
  refine ⟨⟨hv.settled.toGrounded.of_same rfl rfl rfl rfl, hv.settled.total hvalid, hvalid, rfl⟩, ?_,
    ⟨hv.tidy.fed, hv.tidy.inputs, hv.tidy.steps, nofun⟩, hv.settled.pending_links trivial hpending,
    hv.tidy.readable hpending⟩
  have husable := hv.consistent.toUsable
  exact hv.consistent.usable ⟨husable.system_eq, husable.input, husable.step, husable.represents⟩
    rfl rfl

/-! ## Steps -/

/-- Whether a step for a property starts with a refinement. -/
def Primed (p : Property) (v : Verifier) : Prop :=
  v.valid = true ∧ ∃ culprit, v.pending = some (p.key, culprit)

theorem Tidy.collected (h : v.Tidy system) : v.collected.Tidy system :=
  ⟨fun hr => h.fed (Space.input?_collect hr), h.inputs, h.steps, h.readable⟩

/-- What preparing a step does to the marks. -/
theorem Orderly.prepare_tidy (hv : v.Orderly hsys)
    (hfuel : c → generationFuel system + gapBound system < fuel) (p : Property) :
    Ensures (prepare fuel p) v (fun _ w => w.Tidy system ∧ Finer system v w ∧
      (v.Primed p → w.gap system < v.gap system)) (Leaves system c) := by
  refine ensures_prepare (fun hinvalid => ?_) (fun {culprit} hvalid hpending => ?_)
    fun _ hnone => ?_
  · -- a space that is not valid is generated again; the marks stay as they are
    refine ensures_guarded_leaves ((hv.consistent.toGenerated.regenerate_ends hv.tidy.fed
      (.inl rfl) fuel).imp ?_ ?_)
    · rintro changed w ⟨hfed, hframe, -⟩
      have hin : w.inputPrecision = v.inputPrecision := by rw [hframe]
      have hstep : w.stepPrecision = v.stepPrecision := by rw [hframe]
      have hpending : w.pending = v.pending := by rw [hframe]
      refine ⟨⟨hfed, hin ▸ hv.tidy.inputs, hstep ▸ hv.tidy.steps, fun h => ?_⟩,
        finer_of_same hin hstep, fun hprimed => ?_⟩
      · exact hv.tidy.readable (hpending.symm.trans h)
      · rw [hprimed.1] at hinvalid
        cases hinvalid
    · rintro stop w (⟨hmild, hne⟩ | hspatial)
      · refine .inl ⟨hmild.imp fun hc => ?_, fun h => absurd h hne⟩
        have hlt := hfuel hc
        omega
      · exact .inr hspatial
  · -- a pending culprit is refined, which takes a bit off the gap
    have hle := gap_le_gapBound system v
    refine (ensures_guarded_leaves (((hv.refining hpending).refine
      (fun hc => ?_) fun hc => ?_).imp (fun h => h) fun h => .inl h)).imp ?_ fun h => h
    · have hlt := hfuel hc
      omega
    · have hlt := hfuel hc
      exact lt_of_le_of_lt hle (by omega)
    · rintro _ w ⟨htidy, hfiner, hgap⟩
      exact ⟨htidy.collected, ⟨hfiner.input, hfiner.step⟩, fun _ => hgap⟩
  · -- nothing to do, so that no culprit was pending
    refine ⟨hv.tidy, finer_of_same rfl rfl, ?_⟩
    rintro ⟨-, culprit, hpending⟩
    exact absurd hpending (hnone culprit)

theorem Orderly.prepare (hv : v.Orderly hsys)
    (hfuel : c → generationFuel system + gapBound system < fuel) (p : Property) :
    Ensures (Verifier.prepare fuel p) v (fun _ w => w.Orderly hsys ∧ w.valid = true ∧
      Finer system v w ∧ (v.Primed p → w.gap system < v.gap system)) (Stops hsys c) := by
  refine (((hv.consistent.prepare fuel p).and (hv.settled.prepare fuel p)).and
    (hv.prepare_tidy hfuel p)).imp ?_ ?_
  · rintro _ w ⟨⟨hconsistent, hsettled, hvalid⟩, htidy, hfiner⟩
    exact ⟨⟨hconsistent, hsettled, htidy⟩, hvalid, hfiner⟩
  · rintro stop w ⟨⟨hkept, hfails⟩, hleaves⟩
    exact stops_of_leaves hkept hfails hleaves

/-- A culprit ends where its comparison has an outcome, so what the comparison reads has a mark. -/
theorem Orderly.readable_of_concludes (hv : v.Orderly hsys) {value : Kleene}
    (h : v.space.Concludes value (.unknown culprit)) : Readable system culprit := by
  obtain ⟨_, _, _, state, hstate, hunknown⟩ := h.explained rfl
  rw [Atomic.evaluate, bind_eq_ok] at hunknown
  obtain ⟨read, hread, -⟩ := hunknown
  exact culpritMark_ok (hsys.contract.fits (hv.consistent.built.good hstate)) hread

/-- A check does not fault, and leaves a culprit with a mark if the property is unknown. -/
theorem Orderly.conclude_tidy (hv : v.Orderly hsys) (hvalid : v.valid = true)
    (hp : Property.parse text = .ok p) :
    Ensures (conclude p) v (fun k w => w.Tidy system ∧ w.valid = true ∧ Finer system v w ∧
      (k.isKnown = false → w.Primed p)) (Leaves system c) := by
  have hdecides := hv.consistent.informed.decides hp
  have htotal := (hv.settled.total hvalid).isLeftTotal hv.settled.space_valid
  rcases hcheck : v.checker.check v.space p with ⟨result, checker⟩
  rw [hcheck] at hdecides
  have htidy : Tidy system { v with checker } :=
    ⟨hv.tidy.fed, hv.tidy.inputs, hv.tidy.steps, hv.tidy.readable⟩
  refine ensures_conclude hcheck (fun {cause} hfault => ?_) (fun _ => ?_) (fun _ => ?_)
    (fun {culprit} hunknown => ?_) fun hdead => ?_
  · -- no fault: the check of an interpreted property has a value, and any other one fails
    by_cases hp : v.space.Interprets p
    · obtain ⟨k, hk, -⟩ := hdecides.value htotal hp
      rw [show result = _ from hfault] at hk
      cases hk
    · obtain ⟨cause', hcause, hnot⟩ := hdecides.failed htotal hp
      exact absurd (Except.error.inj (hcause.symm.trans hfault)) (hnot cause)
  · exact .inl ⟨mild_failure _, fun _ => htidy⟩
  · exact ⟨htidy, hvalid, finer_of_same rfl rfl, nofun⟩
  · -- the culprit of an unknown property reads fields that the shapes have
    refine ⟨⟨hv.tidy.fed, hv.tidy.inputs, hv.tidy.steps, fun {key culprit'} h => ?_⟩, hvalid,
      finer_of_same rfl rfl, fun _ => ⟨hvalid, culprit, rfl⟩⟩
    obtain ⟨-, rfl⟩ := Prod.mk.inj (Option.some.inj h)
    by_cases hp : v.space.Interprets p
    · obtain ⟨k, hk, hconcludes⟩ := hdecides.value htotal hp
      obtain rfl := Except.ok.inj (hk.symm.trans hunknown)
      exact hv.readable_of_concludes hconcludes
    · obtain ⟨cause, hcause, -⟩ := hdecides.failed htotal hp
      rw [show result = _ from hunknown] at hcause
      cases hcause
  · exact .inr trivial

theorem Orderly.conclude (hv : v.Orderly hsys) (hvalid : v.valid = true)
    (hp : Property.parse text = .ok p) : Ensures (Verifier.conclude p) v
      (fun k w => w.Orderly hsys ∧ Finer system v w ∧ (k.isKnown = false → w.Primed p))
      (Stops hsys c) := by
  refine (((hv.consistent.conclude hp).and (hv.settled.conclude hvalid p)).and
    (hv.conclude_tidy (c := c) hvalid hp)).imp ?_ ?_
  · rintro k w ⟨⟨⟨hconsistent, -⟩, hsettled⟩, htidy, -, hfiner, hprimed⟩
    exact ⟨⟨hconsistent, hsettled, htidy⟩, hfiner, hprimed⟩
  · rintro stop w ⟨⟨hkept, hfails⟩, hleaves⟩
    exact stops_of_leaves hkept hfails hleaves

/-! ## The search for a verdict -/

/-- Whether the number of rounds that are left suffices: one for each bit that is left and one to
    find that nothing is, and one more if the first round does not refine. -/
def RoundsSuffice (system : TransitionSystem) (p : Property) (rounds : Nat) (v : Verifier) : Prop :=
  v.gap system + 2 ≤ rounds ∨ v.Primed p ∧ v.gap system + 1 ≤ rounds

/-- The search ends, and unless the refinements are limited it ends with a value or a failure. -/
theorem Orderly.pursue (hv : v.Orderly hsys) (hp : Property.parse text = .ok p) (limits : Limits)
    (start : Nat) (hinner : c → generationFuel system + gapBound system < inner)
    (hfuel : c → gapBound system + 2 ≤ fuel) :
    Ensures (Verifier.pursue inner limits p start fuel) v
      (fun k w => w.Orderly hsys ∧ Finer system v w ∧ (limits.refinements < 0 → k.isKnown = true))
      (Stops hsys c) := by
  refine ensures_pursue (I := fun n u => u.Orderly hsys ∧ Finer system v u ∧
      (c → RoundsSuffice system p n u)) (fun hu => ⟨.inr ⟨rfl, fun hc => ?_⟩, fun h => absurd rfl h⟩)
    (fun hu => hu.1.stops _) (fun {n u} hu => ?_)
    ⟨hv, finer_of_same rfl rfl, fun hc => .inl ?_⟩
  · rcases hu.2.2 hc with hle | ⟨-, hle⟩ <;> omega
  · obtain ⟨hu, hfiner, hrounds⟩ := hu
    refine .bind (hu.prepare hinner p) fun {_ w} hw => ?_
    obtain ⟨hw, hvalid, hmore, hgap⟩ := hw
    refine (hw.conclude hvalid hp).imp ?_ fun h => h
    rintro k u' ⟨hu', hsame, hprimed⟩
    have hall := hfiner.trans (hmore.trans hsame)
    refine ⟨fun hend => ⟨hu', hall, fun hnegative => ?_⟩, fun hunknown => ⟨hu', hall, fun hc => ?_⟩⟩
    · exact hend.resolve_right (not_le.2 hnegative)
    · -- from now on every round refines; this one did if there was a culprit before it
      refine .inr ⟨hprimed hunknown, ?_⟩
      have hle := (hmore.trans hsame).gap_le
      rcases hrounds hc with hleft | ⟨hbefore, hleft⟩
      · omega
      · have hlt := hsame.gap_le.trans_lt (hgap hbefore)
        omega
  · have hle := gap_le_gapBound system v
    have hlt := hfuel hc
    omega

/-- The fuel that suffices for every call. -/
noncomputable def searchFuel (system : TransitionSystem) : Nat :=
  generationFuel system + gapBound system + 2

theorem Orderly.decide (hv : v.Orderly hsys) (hp : Property.parse text = .ok p)
    (hfuel : c → searchFuel system ≤ fuel) :
    Ensures (Verifier.decide fuel p) v (fun _ w => w.Orderly hsys) (Stops hsys c) := by
  refine .bind_get (.bind (hv.pursue hp {} _ (fun hc => ?_) fun hc => ?_) fun hw => .of_pure hw.1)
  · have hle := hfuel hc
    rw [searchFuel] at hle
    omega
  · have hle := hfuel hc
    rw [searchFuel] at hle
    omega

theorem Orderly.verify (hv : v.Orderly hsys) (hp : Property.parse text = .ok p)
    (hfuel : c → searchFuel system ≤ fuel) :
    Ensures (Verifier.verify fuel p) v (fun _ w => w.Orderly hsys) (Stops hsys c) :=
  ensures_verify (fun hv => hv.stops _) (fun hv => hv.stops _)
    (fun hv => hv.decide parse_inherent hfuel) (fun hv => hv.decide hp hfuel) hv

/-! ## Calls -/

theorem orderly_ofSystem {options : Options} (h : ofSystem system options = .ok v)
    (hinput : ∀ m, options.inputPrecision = some m → m.Fits system.inputTemplate.shape) :
    v.Orderly hsys := by
  refine ⟨consistent_ofSystem h hinput, settled_ofSystem h, ?_⟩
  obtain ⟨coarsest, kept, -, -, rfl⟩ := ofSystem_eq_ok h
  exact tidy_of_empty rfl rfl rfl rfl

theorem orderly_of_ensures {α : Type} {x : VerifyM α} {post : α → Verifier → Prop}
    (h : Ensures x v post (Stops hsys c)) (hpost : ∀ {a w}, post a w → w.Orderly hsys)
    (hne : (exec x v).1 ≠ .error .exhausted) : (exec x v).2.Orderly hsys := by
  rcases hrun : exec x v with ⟨r, w⟩
  rw [hrun] at hne
  cases r with
  | ok a => exact hpost (h.ok hrun)
  | error stop => exact (h.error hrun).2 fun hstop => hne (congrArg Except.error hstop)

/-- Every call that has ended leaves an orderly verifier, whatever its fuel was. -/
theorem Orderly.asks (hv : v.Orderly hsys) (h : Asks v w) : w.Orderly hsys := by
  cases h with
  | step fuel limits hp hne =>
    exact orderly_of_ensures (c := False) (hv.pursue hp limits _ False.elim False.elim) And.left hne
  | verify fuel hp hne => exact orderly_of_ensures (c := False) (hv.verify hp False.elim) id hne
  | reset =>
    exact ⟨hv.consistent.toUsable.reset, settled_reset v, tidy_of_empty rfl rfl rfl rfl⟩

theorem Orderly.run (hv : v.Orderly hsys) (h : ReflTransGen Asks v w) : w.Orderly hsys := by
  induction h with
  | refl => exact hv
  | tail _ hcall ih => exact ih.asks hcall

/-! ## Termination -/

/-- Whether a computation ends with a result or with a failure. -/
def Ends {α : Type} (r : Except Stop α) : Prop := ∀ stop, r = .error stop → ∃ cause, stop = .failure cause

theorem ends_of_ensures {α : Type} {x : VerifyM α} {post : α → Verifier → Prop}
    {stops : Stop → Verifier → Prop} (h : Ensures x v post stops)
    (hstops : ∀ {stop w}, stops stop w → Mild True stop) : Ends (exec x v).1 := by
  rintro stop hstop
  rcases hrun : exec x v with ⟨r, w⟩
  rw [hrun] at hstop
  rw [show r = _ from hstop] at hrun
  exact (hstops (h.error hrun)).resolve_right fun hexhausted => hexhausted.2 trivial

/-- A pass of a refinement that is followed by another one. -/
def Passes (culprit : Culprit) (v w : Verifier) : Prop :=
  ∃ fuel, exec (refineOnce fuel culprit) v = (.ok false, w)

theorem Refining.passes (hv : v.Refining hsys culprit) (h : ReflTransGen (Passes culprit) v w) :
    w.Refining hsys culprit := by
  induction h with
  | refl => exact hv
  | tail _ hpass ih =>
    obtain ⟨fuel, hrun⟩ := hpass
    exact ((ih.refineOnce fuel).ok hrun).2.1 rfl

/-- A step without a limit of refinements ends with a value or a failure. -/
theorem Orderly.step_ends (hv : v.Orderly hsys) (hp : Property.parse text = .ok p)
    (hfuel : searchFuel system ≤ fuel) {limits : Limits} (hlimits : limits.refinements < 0) :
    (∃ b, (v.step fuel limits p).1.result = .ok (.known b)) ∨
      ∃ cause, (v.step fuel limits p).1.result = .error (.failure cause) := by
  rw [searchFuel] at hfuel
  have hpursue := hv.pursue (c := True) hp limits v.counters.refinements
    (fun _ => by omega : True → generationFuel system + gapBound system < fuel)
    (fun _ => by omega : True → gapBound system + 2 ≤ fuel)
  rcases hrun : exec (Verifier.pursue fuel limits p v.counters.refinements fuel) v with ⟨r, w⟩
  have hresult : (v.step fuel limits p).1.result = r := congrArg Prod.fst hrun
  rw [hresult]
  cases r with
  | ok k =>
    cases k with
    | known b => exact .inl ⟨b, rfl⟩
    | unknown _ | notCheckable => cases (hpursue.ok hrun).2.2 hlimits
  | error stop =>
    obtain ⟨cause, rfl⟩ := (hpursue.error hrun).1.resolve_right fun h => h.2 trivial
    exact .inr ⟨cause, rfl⟩

/-- A step that ends with a conclusion takes nothing from the mark of any node. -/
theorem Orderly.step_keepsMarks (hv : v.Orderly hsys) (hp : Property.parse text = .ok p)
    {limits : Limits} {k : Conclusion} (h : (v.step fuel limits p).1.result = .ok k) :
    KeepsMarks v (v.step fuel limits p).2 := by
  rcases hrun : exec (Verifier.pursue fuel limits p v.counters.refinements fuel) v with ⟨r, w⟩
  obtain rfl : r = .ok k := (congrArg Prod.fst hrun).symm.trans h
  have hw : (v.step fuel limits p).2 = w := congrArg Prod.snd hrun
  -- whether the fuel suffices makes no difference for a step that has ended
  obtain ⟨horderly, hfiner, -⟩ :=
    (hv.pursue (c := False) hp limits _ False.elim False.elim).ok hrun
  rw [hw]
  exact hfiner.keepsMarks hv.belongs horderly.belongs

theorem Orderly.regenerate_ends (hv : v.Orderly hsys) (hnode : v.HasNode node)
    (hfuel : searchFuel system ≤ fuel) : Ends (exec (Verifier.regenerate fuel node) v).1 := by
  rw [searchFuel] at hfuel
  have hground := (hv.settled.toGrounded.but node).regenerate (hv.settled.dead hnode) fuel
  have hends := hv.consistent.toGenerated.regenerate_ends hv.tidy.fed hnode fuel
  refine ends_of_ensures (hground.and hends) ?_
  rintro stop w ⟨⟨hspatial, -, -⟩, ⟨hmild, -⟩ | hspatial'⟩
  · exact hmild.imp fun _ => by omega
  · exact absurd hspatial' hspatial

/-- Along a path of the space every refinement and every pass of it ends. -/
theorem Refining.ends (hv : v.Refining hsys culprit) (hfuel : searchFuel system ≤ fuel) :
    Ends (exec (Verifier.refine fuel culprit fuel) v).1 ∧
      Ends (exec (Verifier.refineOnce fuel culprit) v).1 := by
  rw [searchFuel] at hfuel
  have hgap := gap_le_gapBound system v
  constructor
  · refine ends_of_ensures (hv.refine (c := True) (fun _ => ?_) fun _ => ?_) And.left <;> omega
  · exact ends_of_ensures (hv.refineOnce fuel) fun h => h.1.imp fun _ => by omega

/-- The search for a verdict ends. Whatever calls were made before on a system that conforms to its
    templates, with a fuel that its templates determine a step without a limit of refinements ends
    with a value or a failure, and so do a verification and every generation. Along the culprit that
    is kept every refinement ends, after any number of its passes; each pass that reports no error
    enlarges the mark of some node, and no mark of a node shrinks, by a pass or by a whole step. -/
theorem search_ends {options : Options} (hsys : system.Conforms)
    (hinput : ∀ m, options.inputPrecision = some m → m.Fits system.inputTemplate.shape)
    (hstart : ofSystem system options = .ok v) (hcalls : ReflTransGen Asks v w)
    (hp : Property.parse text = .ok p) (hfuel : searchFuel system ≤ fuel) :
    (∀ limits : Limits, limits.refinements < 0 →
      (∃ b, (w.step fuel limits p).1.result = .ok (.known b)) ∨
        ∃ cause, (w.step fuel limits p).1.result = .error (.failure cause)) ∧
    Ends (exec (verify fuel p) w).1 ∧
    (∀ node, w.HasNode node → Ends (exec (regenerate fuel node) w).1) ∧
    (∀ key culprit u, w.pending = some (key, culprit) →
      ReflTransGen (Passes culprit) { w with pending := none } u →
        Ends (exec (refine fuel culprit fuel) u).1 ∧ Ends (exec (refineOnce fuel culprit) u).1 ∧
        ∀ enough changed u', exec (refineOnce enough culprit) u = (.ok changed, u') →
          KeepsMarks u u' ∧ EnlargesMark u u') ∧
    ∀ enough limits k, (w.step enough limits p).1.result = .ok k →
      KeepsMarks w (w.step enough limits p).2 := by
  have hw : w.Orderly hsys := (orderly_ofSystem hstart hinput).run hcalls
  refine ⟨fun limits hlimits => hw.step_ends hp hfuel hlimits, ?_,
    fun node hnode => hw.regenerate_ends hnode hfuel, fun key culprit u hpending hpasses => ?_,
    fun enough limits k hk => hw.step_keepsMarks hp hk⟩
  · exact ends_of_ensures (hw.verify (c := True) hp fun _ => hfuel) And.left
  · have hu := (hw.refining hpending).passes hpasses
    obtain ⟨hrefine, honce⟩ := hu.ends hfuel
    refine ⟨hrefine, honce, fun enough changed u' hrun => ?_⟩
    exact ((hu.refineOnce enough).ok hrun).2.2.1

/-- The system that echoes its input conforms to its templates. -/
theorem conforms_echo : TransitionSystem.echo.Conforms where
  init := by
    rintro input state ⟨i, hshape, hi⟩ h
    exact ⟨_, hshape, TransitionSystem.soundFor_echo.init (i := ⟨i, hshape⟩) hi h⟩
  next := by
    rintro before input state ⟨r, hbefore, hr⟩ ⟨i, hshape, hi⟩ h
    exact ⟨_, hshape, TransitionSystem.soundFor_echo.next (r := ⟨r, hbefore⟩) (i := ⟨i, hshape⟩) hr hi h⟩
  refineInit := by
    rintro input later mark - hlater h
    exact Except.ok.inj h ▸ hlater.result
  refineNext := by
    rintro before input later earlier mark - - hlater h
    have hmap : (RecordMark.unmarked .oneBit).map (·, later.result) = .ok (earlier, mark) := h
    cases hunmarked : RecordMark.unmarked .oneBit with
    | error cause =>
      rw [hunmarked] at hmap
      cases hmap
    | ok unmarked =>
      rw [hunmarked] at hmap
      obtain ⟨rfl, rfl⟩ := Prod.mk.inj (Except.ok.inj hmap)
      exact ⟨RecordMark.fits_unmarked hunmarked, hlater.result⟩

/-- Whether the echoed bit can be set in the state after the first. -/
def settableBit : Property := .next .some (.atom ⟨"bit", none, .signless, .eq, 1⟩)

/-- A step on the echo that may not refine. -/
def hesitant : Progress × Verifier := echo.step 5 ⟨0, fun _ => false⟩ settableBit

/-- The path to the state in which the bit is unknown. -/
def unknownBit : Culprit := ⟨[1], 1, ⟨"bit", none, .signless, .eq, 1⟩⟩

set_option maxRecDepth 4000 in
/-- The step keeps a culprit, and a pass along it changes the space. -/
theorem report_hesitant : (hesitant.1.result, hesitant.2.pending,
    (exec (refineOnce 5 unknownBit) { hesitant.2 with pending := none }).1) =
      (.ok (.unknown unknownBit), some (settableBit.key, unknownBit), .ok true) := by
  cbv

/-- After the step that may not refine, one without a limit ends, and the pass along the culprit that
    is kept enlarges a mark. -/
theorem search_ends_hesitant : ofSystem .echo {} = .ok echo ∧ ReflTransGen Asks echo hesitant.2 ∧
    Property.parse "EX![bit == 1]" = .ok settableBit ∧
    ((∃ b, (hesitant.2.step (searchFuel .echo) {} settableBit).1.result = .ok (.known b)) ∨
      ∃ cause, (hesitant.2.step (searchFuel .echo) {} settableBit).1.result =
        .error (.failure cause)) ∧
    ∃ w, exec (refineOnce 5 unknownBit) { hesitant.2 with pending := none } = (.ok true, w) ∧
      KeepsMarks { hesitant.2 with pending := none } w ∧
      EnlargesMark { hesitant.2 with pending := none } w := by
  have hstart : ofSystem .echo {} = .ok echo := rfl
  have hp : Property.parse "EX![bit == 1]" = .ok settableBit := by decide +kernel
  have hreport := report_hesitant
  rw [Prod.mk.injEq, Prod.mk.injEq] at hreport
  obtain ⟨hresult, hpending, hchanged⟩ := hreport
  have hcalls : ReflTransGen Asks echo hesitant.2 := by
    refine .single (.step 5 ⟨0, fun _ => false⟩ hp ?_)
    rw [hesitant] at hresult
    rw [hresult]
    exact fun h => by cases h
  obtain ⟨hstep, -, -, hpasses, -⟩ := search_ends conforms_echo
    (fun _ h => by cases h) hstart hcalls hp (le_refl (searchFuel .echo))
  obtain ⟨-, -, hpass⟩ := hpasses _ _ _ hpending .refl
  rcases hrun : exec (refineOnce 5 unknownBit) { hesitant.2 with pending := none } with ⟨r, w⟩
  obtain rfl : r = .ok true := (congrArg Prod.fst hrun).symm.trans hchanged
  exact ⟨hstart, hcalls, hp, hstep {} (by decide), w, rfl, hpass 5 true w hrun⟩

end RefineCheck.Verifier
