/-
  RefineCheck.Proofs.Verifier.Soundness

  Verdicts are right. A system over abstract values stands for one over single states if each
  result has the results for all members of the arguments as members. Every step between members of
  the nodes of a generated space then is an edge, and every edge is a step from all members of its
  source, so a verdict on the space is one on the single states.
-/

import Mathlib
import RefineCheck.Proofs.Labelling.Check
import RefineCheck.Proofs.Semantics.Embedding
import RefineCheck.Proofs.Semantics.Path
import RefineCheck.Proofs.State.Text
import RefineCheck.Proofs.Verifier.Consistency

namespace RefineCheck

open Relation (ReflTransGen)

/-! ## Systems over single states -/

namespace Concrete

/-- A record of words of a shape. -/
abbrev RecordOf (t : Shape) := {r : Record // r.shape = t}

/-- A single state with a record of a shape. -/
abbrev StateOf (t : Shape) := {s : State // s.result.shape = t}

/-- The record of a state, without the panic code. -/
def StateOf.record {t : Shape} (s : StateOf t) : RecordOf t := ⟨s.1.result, s.2⟩

/-- A transition system over single states. A state is followed by one for each input, whether it
    panics or not. -/
structure System (input state : Shape) where
  init : RecordOf input → StateOf state
  next : RecordOf state → RecordOf input → StateOf state

/-- The states with their successors and the comparisons that hold in them. -/
def System.kripke {input state : Shape} (c : System input state) : Kripke (StateOf state) Prop where
  next s := Set.range (c.next s.record)
  atom a s := a.HoldsIn s.1

/-- The initial states of the concrete system. -/
def System.initial {input state : Shape} (c : System input state) : Set (StateOf state) :=
  Set.range c.init

/-- What follows the single states that an abstract one stands for, for each input. -/
inductive System.Steps {input state : Shape} (c : System input state) :
    Option RefineCheck.State → (RecordOf input → StateOf state) → Prop
  | init : Steps c none c.init
  | next {st : RefineCheck.State} {s : StateOf state} : st.Has s.1 → Steps c (some st) (c.next s.record)

/-- A word for each kind. -/
def Datum.zero : Kind → Datum
  | .scalar width => .word ⟨width, 0⟩
  | .array indexWidth elementWidth => .array indexWidth elementWidth fun _ => 0

theorem exists_recordOf (t : Shape) : Nonempty (RecordOf t) := by
  refine ⟨⟨⟨t.map fun f => ⟨f.name, f.signedness, .zero f.kind⟩⟩, ?_⟩⟩
  rw [Record.shape, List.map_map]
  refine (List.map_congr_left fun f _ => ?_).trans (List.map_id t)
  obtain ⟨name, signedness, kind⟩ := f
  cases kind <;> rfl

end Concrete

/-! ## Sound systems -/

/-- A system whose results have the results of another one for all members of the arguments as
    members. Where it fails it need not have a result. -/
structure TransitionSystem.SoundFor (system : TransitionSystem)
    (c : Concrete.System system.inputTemplate.shape system.stateTemplate.shape) : Prop where
  init {input : Record} {i : Concrete.RecordOf system.inputTemplate.shape} {st : State} :
    input.Has i.1 → system.init input = .ok st → st.Has (c.init i).1
  next {record input : Record} {r : Concrete.RecordOf system.stateTemplate.shape}
    {i : Concrete.RecordOf system.inputTemplate.shape} {st : State} :
    record.Has r.1 → input.Has i.1 → system.next record input = .ok st → st.Has (c.next r i).1

namespace TransitionSystem.SoundFor

variable {system : TransitionSystem}
  {c : Concrete.System system.inputTemplate.shape system.stateTemplate.shape}
  {stepMark : StateMark} {current : Option State} {input : Record} {st : State}
  {i : Concrete.RecordOf system.inputTemplate.shape}
  {after : Concrete.RecordOf system.inputTemplate.shape →
    Concrete.StateOf system.stateTemplate.shape}

theorem fits_of_has {m : Concrete.StateOf system.stateTemplate.shape} (h : st.Has m.1) :
    st.Fits system.stateTemplate.shape :=
  m.2 ▸ h.fits

/-- The state after a state has what follows its members as members. -/
theorem has_of_advance (hsound : system.SoundFor c)
    (hmark : stepMark.Fits system.stateTemplate.shape) (hafter : c.Steps current after)
    (hi : input.Has i.1) (h : system.advance stepMark current input = .ok st) :
    st.Has (after i).1 := by
  cases hafter with
  | init =>
    obtain ⟨raw, hraw, hdecay⟩ := bind_eq_ok (f := stepMark.decay).1 h
    exact StateMark.has_of_decay hmark hdecay (hsound.init hi hraw)
  | @next st m hm =>
    obtain ⟨raw, hraw, hdecay⟩ := bind_eq_ok (f := stepMark.decay).1 h
    exact StateMark.has_of_decay hmark hdecay (hsound.next (r := m.record) hm.2 hi hraw)

/-- The states of a space have members, and the successors of a node are exactly the states that
    follow each of its members. -/
def contract (hsound : system.SoundFor c) : Contract system where
  Good st := ∃ m : Concrete.StateOf system.stateTemplate.shape, st.Has m.1
  Follows current targets := ∀ after, c.Steps current after →
    (∀ i, ∃ st ∈ targets, st.Has (after i).1) ∧ ∀ st ∈ targets, ∃ i, st.Has (after i).1
  fits := fun ⟨_, hm⟩ => fits_of_has hm
  nonempty := fun ⟨_, hm⟩ => hm.nonempty
  good := by
    intro stepMark current input st hmark hcurrent ⟨i, hshape, hi⟩ h
    obtain ⟨after, hafter⟩ : ∃ after, c.Steps current after := by
      cases current with
      | none => exact ⟨_, .init⟩
      | some st =>
        obtain ⟨m, hm⟩ := hcurrent rfl
        exact ⟨_, .next hm⟩
    exact ⟨_, hsound.has_of_advance (i := ⟨i, hshape⟩) hmark hafter hi h⟩
  follows := by
    intro stepMark current inputs targets hmark hcurrent hinputs htargets hreaches after hafter
    have hsame {st st' : State} {i} (htarget : st ∈ targets) (hst' : st'.Has (after i).1)
        (hkey : st.key = st'.key) : st.Has (after i).1 := by
      obtain ⟨m, hm⟩ := htargets st htarget
      exact State.has_of_key (fits_of_has hst') (fits_of_has hm) hst'.nonempty hm.nonempty hkey.symm
        hst'
    constructor
    · intro i
      obtain ⟨input, hinput, hi⟩ := hinputs.covers i.1 i.2
      obtain ⟨st, hst, state, hstate, hkey⟩ := hreaches.forth input hinput
      exact ⟨st, hst, hsame hst (hsound.has_of_advance hmark hafter hi hstate) hkey⟩
    · intro st hst
      obtain ⟨input, hinput, state, hstate, hkey⟩ := hreaches.back st hst
      obtain ⟨i, hshape, hi⟩ := hinputs.member input hinput
      exact ⟨⟨i, hshape⟩,
        hsame hst (hsound.has_of_advance (i := ⟨i, hshape⟩) hmark hafter hi hstate) hkey⟩

end TransitionSystem.SoundFor

/-! ## Verdicts -/

namespace Verifier

variable {system : TransitionSystem}
  {c : Concrete.System system.inputTemplate.shape system.stateTemplate.shape}
  {hsound : system.SoundFor c} {v w : Verifier} {text : String} {p : Property}

/-- Whether a reachable node stands for a single state. -/
def StandsFor (v : Verifier) {t : Shape} (m : Concrete.StateOf t) (n : NodeId) : Prop :=
  n ∈ v.space.reachable ∧ n ≠ root ∧ ∃ st, v.space.states[n]? = some st ∧ st.Has m.1

/-- The single states that some node stands for. -/
def covered (v : Verifier) (t : Shape) : Set (Concrete.StateOf t) := {m | ∃ n, v.StandsFor m n}

theorem Generated.mem_next {n : NodeId} (hv : v.Generated hsound.contract) {after}
    (htotal : v.space.isLeftTotal = true) (hn : n ∈ v.space.reachable)
    (hafter : c.Steps v.space.states[n]? after) :
    (∀ i, ∃ m ∈ v.space.next n, v.StandsFor (after i) m) ∧
      ∀ m ∈ v.space.next n, ∃ i, v.StandsFor (after i) m := by
  have hs := hv.built.valid
  obtain ⟨hforth, hback⟩ := hv.follows (Space.isLeftTotal_iff.1 htotal n hn) after hafter
  have hstands {m : NodeId} {st : State} (hm : m ∈ v.space.next n)
      (hst : v.space.states[m]? = some st) {i} (hi : st.Has (after i).1) :
      v.StandsFor (after i) m :=
    ⟨Space.reachable_closed hn hm, (hs.stored hst).1, st, hst, hi⟩
  constructor
  · intro i
    obtain ⟨st, ⟨m, hm, hst⟩, hi⟩ := hforth i
    exact ⟨m, hm, hstands hm hst hi⟩
  · intro m hm
    obtain ⟨st, hst⟩ := Space.contains_iff.1 (hs.target hm)
    obtain ⟨i, hi⟩ := hback st ⟨m, hm, hst⟩
    exact ⟨i, hstands hm hst hi⟩

theorem Generated.next_standsFor (hv : v.Generated hsound.contract)
    (htotal : v.space.isLeftTotal = true) {m : Concrete.StateOf system.stateTemplate.shape}
    {n : NodeId} (hm : v.StandsFor m n) :
    (∀ i, ∃ k ∈ v.space.next n, v.StandsFor (c.next m.record i) k) ∧
      ∀ k ∈ v.space.next n, ∃ i, v.StandsFor (c.next m.record i) k := by
  obtain ⟨hn, -, st, hst, hm⟩ := hm
  have hafter : c.Steps v.space.states[n]? (c.next m.record) := by
    rw [hst]
    exact .next hm
  exact hv.mem_next htotal hn hafter

/-- A generated space stands for the single states that its nodes stand for. -/
theorem Generated.abstracts (hv : v.Generated hsound.contract)
    (htotal : v.space.isLeftTotal = true) :
    Kripke.Abstracts (fun a => ∀ n ∈ v.space.reachable, n ≠ root → v.space.Evaluates a n)
      (fun m n => v.StandsFor m.1 n) (c.kripke.restrict (v.covered _)) v.space.kripke where
  forth := by
    rintro m ⟨_, _⟩ n hm ⟨i, rfl⟩
    exact (hv.next_standsFor htotal hm).1 i
  back := by
    intro m n k hm hk
    obtain ⟨i, hi⟩ := (hv.next_standsFor htotal hm).2 k hk
    exact ⟨⟨c.next m.1.record i, k, hi⟩, ⟨i, rfl⟩, hi⟩
  atom := by
    rintro a m n ha ⟨hn, hroot, st, hst, hm⟩
    obtain ⟨st', value, hst', hvalue⟩ := ha n hn hroot
    obtain rfl := Option.some.inj (hst.symm.trans hst')
    show (v.space.outcome a n).Agrees (a.HoldsIn m.1.1)
    rw [Space.outcome_of_evaluate hst hvalue]
    exact Atomic.evaluate_agrees hm hvalue

theorem Generated.covered_closed (hv : v.Generated hsound.contract)
    (htotal : v.space.isLeftTotal = true) (m : Concrete.StateOf system.stateTemplate.shape)
    (hm : m ∈ v.covered system.stateTemplate.shape) : c.kripke.next m ⊆ v.covered _ := by
  rintro _ ⟨i, rfl⟩
  obtain ⟨n, hm⟩ := hm
  obtain ⟨k, -, hk⟩ := (hv.next_standsFor htotal hm).1 i
  exact ⟨k, hk⟩

theorem complementary_restrict :
    Property.Complementary (fun a => ∀ n ∈ v.space.reachable, n ≠ root → v.space.Evaluates a n)
      (c.kripke.restrict (v.covered _)) := by
  intro a ha
  funext ⟨m, n, hn, hroot, st, hst, hm⟩
  obtain ⟨st', value, hst', hvalue⟩ := ha n hn hroot
  obtain rfl := Option.some.inj (hst.symm.trans hst')
  exact propext (Atomic.holdsIn_complement hm hvalue)

/-- A definite value in a node is the right one in all single states that it stands for. -/
theorem Generated.meaning_agrees (hv : v.Generated hsound.contract)
    (htotal : v.space.isLeftTotal = true) (hp : p.Parsed) (hinterprets : v.space.Interprets p)
    {m : Concrete.StateOf system.stateTemplate.shape} {n : NodeId} (hm : v.StandsFor m n)
    (env : String → NodeId → Kleene) (env' : String → Concrete.StateOf _ → Prop) :
    (p.meaning v.space.kripke env n).Agrees (p.meaning c.kripke env' m) := by
  have hgood {n : NodeId} {st : State} (hst : v.space.states[n]? = some st) : st.Nonempty :=
    hsound.contract.nonempty (hv.built.good hst)
  obtain ⟨f, -, hf⟩ := Formula.prepared_ofProperty hp
  have hatoms : ∀ a ∈ f.atoms, ∀ n ∈ v.space.reachable, n ≠ root → v.space.Evaluates a n :=
    (hf.atoms_iff fun a => by simp only [Space.evaluates_complement hgood]).2 hinterprets
  have hvars (_ : Nat) : Concurs (fun (m : v.covered system.stateTemplate.shape) n =>
      v.StandsFor m.1 n) (fun _ => .unknown) fun _ => False :=
    fun _ _ _ => Kleene.agrees_unknown _
  have hconcurs := Formula.meaning_concurs (hv.abstracts htotal) hatoms hvars ⟨m, n, hm⟩ n hm
  have habstract := hf.meaning_eq (Space.complementary_kripke hgood)
    (hinterprets.imp (fun _ _ => trivial) (fun _ h => h) fun _ h => h) (fun _ _ => .unknown) env
  have hconcrete := hf.meaning_eq (complementary_restrict (c := c)) hinterprets (fun _ _ => False)
    fun x => env' x ∘ (Subtype.val : v.covered _ → _)
  have hwhole := Property.meaning_embeds (Kripke.embeds_restrict (hv.covered_closed htotal)) env' p
  rw [habstract, hconcrete, ← hwhole] at hconcurs
  exact hconcurs

/-- The initial nodes stand for the initial states. -/
theorem Generated.initial_standsFor (hv : v.Generated hsound.contract)
    (htotal : v.space.isLeftTotal = true) :
    (∀ i, ∃ n ∈ v.space.initialStates, v.StandsFor (c.init i) n) ∧
      ∀ n ∈ v.space.initialStates, ∃ i, v.StandsFor (c.init i) n := by
  have hafter : c.Steps v.space.states[root]? c.init := by
    rw [hv.built.valid.states_root]
    exact .init
  exact hv.mem_next htotal (Space.mem_reachable.2 .refl) hafter

/-- A known verdict on the space is one on all initial states, or on some. -/
theorem Generated.holds_of_decides (hv : v.Generated hsound.contract) (hp : p.Parsed) {value : Bool}
    (h : Checker.Decides v.space p (.ok (.known value)))
    (env : String → Concrete.StateOf system.stateTemplate.shape → Prop) :
    (value = true → ∀ s ∈ c.initial, p.meaning c.kripke env s) ∧
      (value = false → ∃ s ∈ c.initial, ¬ p.meaning c.kripke env s) := by
  obtain ⟨htotal, hinterprets, hverdict⟩ := h.known
  have hagrees {m : Concrete.StateOf system.stateTemplate.shape} {n : NodeId}
      (hm : v.StandsFor m n) := hv.meaning_agrees htotal hp hinterprets hm (fun _ _ => ⊥) env
  obtain ⟨hforth, hback⟩ := hv.initial_standsFor htotal
  constructor
  · rintro rfl _ ⟨i, rfl⟩
    obtain ⟨n, hn, hm⟩ := hforth i
    exact (hagrees hm).1 (Kleene.iInf_eq_tt hverdict hn)
  · rintro rfl
    obtain ⟨n, hn, hff⟩ := Kleene.iInf_eq_ff hverdict
    obtain ⟨i, hm⟩ := hback n hn
    exact ⟨c.init i, ⟨i, rfl⟩, (hagrees hm).2 hff⟩

/-- Verdicts of a verifier are right for the single states that its system stands for. Whatever was
    called before, a property that a step finds to hold holds in all initial states, and one that it
    finds not to hold does not hold in some initial state. -/
theorem step_sound {options : Options} (hsound : system.SoundFor c)
    (hinput : ∀ m, options.inputPrecision = some m → m.Fits system.inputTemplate.shape)
    (hstart : ofSystem system options = .ok v) (hcalls : ReflTransGen Calls v w)
    (hp : Property.parse text = .ok p) {fuel : Nat} {limits : Limits} {value : Bool}
    (h : (w.step fuel limits p).1.result = .ok (.known value))
    (env : String → Concrete.StateOf system.stateTemplate.shape → Prop) :
    (value = true → ∀ s ∈ c.initial, p.Holds c.kripke env s) ∧
      (value = false → ∃ s ∈ c.initial, ¬ p.Holds c.kripke env s) := by
  have hconsistent : w.Consistent hsound.contract := (consistent_ofSystem hstart hinput).run hcalls
  obtain ⟨u, hu, hdecides⟩ := hconsistent.decides_step hp h
  have htotal (s : Concrete.StateOf system.stateTemplate.shape) : (c.kripke.next s).Nonempty := by
    obtain ⟨i⟩ := Concrete.exists_recordOf system.inputTemplate.shape
    exact ⟨_, i, rfl⟩
  rw [Property.holds_eq_meaning htotal]
  exact hu.holds_of_decides (Property.parsed_of_parse hp) hdecides env

end Verifier

/-! ## A system that echoes its input -/

/-- A record with one bit of which nothing is known. -/
def Record.oneBit : Record := ⟨[⟨"bit", .unsigned, .scalar ⟨1, .full 1⟩⟩]⟩

/-- The system whose state is the last input. -/
def TransitionSystem.echo : TransitionSystem where
  inputTemplate := .oneBit
  stateTemplate := .oneBit
  init input := .ok (.quiet input)
  next _ input := .ok (.quiet input)
  refineInit _ later := .ok later.result
  refineNext _ _ later := (RecordMark.unmarked .oneBit).map (·, later.result)
  panicMessage _ := ""

/-- The same system over single states. -/
def Concrete.System.echo : Concrete.System Record.oneBit.shape Record.oneBit.shape where
  init i := ⟨⟨0, i.1⟩, i.2⟩
  next _ i := ⟨⟨0, i.1⟩, i.2⟩

theorem TransitionSystem.soundFor_echo : echo.SoundFor .echo := by
  have hpanic : (Value.ofNat panicWidth noPanic).Has ⟨panicWidth, 0⟩ :=
    ⟨by decide, 0, Reduced.has_iff.1 (by decide +kernel), rfl⟩
  have hquiet {input : Record} {i : Concrete.Record} (hi : input.Has i) :
      (State.quiet input).Has ⟨0, i⟩ := ⟨hpanic, hi⟩
  refine ⟨fun hi h => ?_, fun _ hi h => ?_⟩
  · obtain rfl := Except.ok.inj h
    exact hquiet hi
  · obtain rfl := Except.ok.inj h
    exact hquiet hi

namespace Verifier

/-- A verifier that does not tell inputs apart yet. -/
def echo : Verifier where
  system := .echo
  assumeInherent := false
  inputPrecision := ⟨⟨.oneBit, [.scalar ⟨1, .unmarked 1⟩]⟩, {}⟩
  stepPrecision := ⟨⟨⟨panicWidth, .all panicWidth 0⟩, ⟨.oneBit, [.scalar ⟨1, .all 1 0⟩]⟩⟩, {}⟩

/-- The verifier after its space was generated. -/
def echoed : Verifier := (VerifyM.exec (regenerateFrom 5 root) .echo).2

theorem calls_echo : ReflTransGen Calls echo echoed := by
  refine .single (.regenerate 5 root ?_)
  have hok : (VerifyM.exec (regenerateFrom 5 root) .echo).1 = .ok true := by decide +kernel
  rw [hok]
  exact fun h => by cases h

set_option maxRecDepth 2000 in
/-- Only a refinement of the inputs decides whether the bit can be set. -/
theorem step_echoed :
    (echoed.step 5 {} (.next .some (.atom ⟨"bit", none, .signless, .eq, 1⟩))).1.result =
      .ok (.known true) := by
  cbv

/-- The bit can be set in the state after each initial one. -/
theorem step_sound_echoed : ∃ p, ofSystem .echo {} = .ok echo ∧ ReflTransGen Calls echo echoed ∧
    Property.parse "EX![bit == 1]" = .ok p ∧ (echoed.step 5 {} p).1.result = .ok (.known true) ∧
    ∀ s ∈ Concrete.System.echo.initial,
      p.Holds Concrete.System.echo.kripke (fun _ _ => False) s := by
  have hp : Property.parse "EX![bit == 1]" =
      .ok (.next .some (.atom ⟨"bit", none, .signless, .eq, 1⟩)) := by
    decide +kernel
  have hstart : ofSystem .echo {} = .ok echo := rfl
  exact ⟨_, hstart, calls_echo, hp, step_echoed, (step_sound TransitionSystem.soundFor_echo
    (fun _ h => by cases h) hstart calls_echo hp step_echoed _).1 rfl⟩

end Verifier

end RefineCheck
