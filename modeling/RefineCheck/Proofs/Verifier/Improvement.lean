/-
  RefineCheck.Proofs.Verifier.Improvement

  Refinement of a system that conforms to its templates. Whatever comparison is to blame has a mark,
  and the walk along its path meets marks of the right shapes only. So the walk fails because of the
  system alone, and a mark that it finds marks more than the one its node has.
-/

import Mathlib
import RefineCheck.Proofs.Verifier.Loop
import RefineCheck.Proofs.Verifier.Soundness

namespace RefineCheck

/-! ## Marks of one field -/

/-- Whether the values of a kind have a width that is supported. -/
def Kind.Bounded : Kind → Prop
  | .scalar width => width ≤ Word.maxWidth
  | .array _ elementWidth => elementWidth ≤ Word.maxWidth

theorem Content.WellFormed.bounded {c : Content} (h : c.WellFormed) : c.kind.Bounded := by
  cases c with
  | scalar value => exact h
  | array _ memory => exact h.width_le

theorem State.Fits.bounded {t : Shape} {st : State} (h : st.Fits t) : ∀ f ∈ t, f.kind.Bounded := by
  obtain ⟨-, rfl, hwf⟩ := h
  intro f hf
  obtain ⟨field, hfield, rfl⟩ := List.mem_map.1 hf
  exact (hwf field hfield).bounded

theorem Marking.unmarked_ok {w : Nat} (h : w ≤ Word.maxWidth) :
    unmarked w = .ok ⟨w, .unmarked w⟩ := by
  rw [unmarked, checkWidth, if_pos h]
  rfl

theorem Marking.all_ok {w : Nat} (h : w ≤ Word.maxWidth) (importance : Nat) :
    all w importance = .ok ⟨w, .all w importance⟩ := by
  rw [all, checkWidth, if_pos h]
  rfl

theorem FieldMark.unmarkedOf_ok {f : Field} (h : f.content.kind.Bounded) :
    ∃ m, unmarkedOf f = .ok m := by
  rw [unmarkedOf]
  cases hc : f.content with
  | scalar value =>
    rw [hc] at h
    exact ⟨_, by simp only [Marking.unmarked_ok h]; rfl⟩
  | array _ memory =>
    rw [hc] at h
    exact ⟨_, by simp only [MemoryMark.unmarked, Marking.unmarked_ok h]; rfl⟩

theorem RecordMark.unmarked_ok {template : Record} (h : ∀ f ∈ template.shape, f.kind.Bounded) :
    ∃ fields, unmarked template = .ok ⟨template, fields⟩ := by
  obtain ⟨fs⟩ := template
  have hall : ∃ ms, fs.mapM FieldMark.unmarkedOf = .ok ms := by
    induction fs with
    | nil => exact ⟨[], rfl⟩
    | cons f fs ih =>
      rw [Record.shape, List.map_cons, List.forall_mem_cons] at h
      obtain ⟨m, hm⟩ := FieldMark.unmarkedOf_ok h.1
      obtain ⟨ms, hms⟩ := ih h.2
      refine ⟨m :: ms, ?_⟩
      rw [List.mapM_cons, hm, ok_bind, hms]
      rfl
  obtain ⟨ms, hms⟩ := hall
  refine ⟨ms, ?_⟩
  rw [unmarked, hms]
  rfl

/-- Fields of one shape are found under the same names. -/
theorem Record.field?_of_shape {r s : Record} (h : r.shape = s.shape) {name : String} {f : Field}
    (hf : r.field? name = some f) : ∃ g, s.field? name = some g ∧ g.content.kind = f.content.kind := by
  obtain ⟨fs⟩ := r
  obtain ⟨gs⟩ := s
  simp only [field?, shape] at *
  induction fs generalizing gs with
  | nil => cases hf
  | cons a fs ih =>
    cases gs with
    | nil => cases h
    | cons b gs =>
      rw [List.map_cons, List.map_cons, List.cons.injEq] at h
      have hname : a.name = b.name := congrArg FieldShape.name h.1
      rw [List.find?_cons] at hf ⊢
      rw [← hname]
      cases hfound : a.name == name with
      | true =>
        rw [hfound] at hf
        obtain rfl := Option.some.inj hf
        exact ⟨b, rfl, (congrArg FieldShape.kind h.1).symm⟩
      | false =>
        rw [hfound] at hf
        exact ih hf gs h.2

namespace RecordMark

variable {t : Shape} {m : RecordMark} {name : String} {f : Field} {mark : FieldMark}

/-- The mark of a field is of the kind of the field. -/
theorem field_ok (hm : m.Fits t) (hf : m.template.field? name = some f) :
    ∃ mark, m.field name = .ok mark ∧ mark.kind = f.content.kind ∧ mark.WellFormed := by
  obtain ⟨⟨fs⟩, ms⟩ := m
  obtain ⟨rfl, hfit⟩ := hm
  simp only [field, Record.field?, Record.shape] at *
  induction fs generalizing ms with
  | nil => cases hf
  | cons g fs ih =>
    obtain ⟨mark, ms, rfl, hkind, hwf, hrest⟩ := FieldMark.fit_cons.1 hfit
    rw [List.find?_cons] at hf
    rw [List.zip_cons_cons, List.find?_cons]
    cases hfound : g.name == name with
    | true =>
      rw [hfound] at hf
      obtain rfl := Option.some.inj hf
      exact ⟨mark, rfl, hkind, hwf⟩
    | false =>
      rw [hfound] at hf
      exact ih ms hf hrest

theorem fits_withField (hm : m.Fits t) (hf : m.template.field? name = some f)
    (hkind : mark.kind = f.content.kind) (hwf : mark.WellFormed) : (m.withField name mark).Fits t := by
  obtain ⟨⟨fs⟩, ms⟩ := m
  obtain ⟨rfl, hfit⟩ := hm
  refine ⟨rfl, ?_⟩
  simp only [withField, Record.field?, Record.shape] at *
  induction fs generalizing ms with
  | nil => cases hf
  | cons g fs ih =>
    obtain ⟨old, ms, rfl, holdkind, holdwf, hrest⟩ := FieldMark.fit_cons.1 hfit
    rw [List.find?_cons] at hf
    rw [replace]
    cases hfound : g.name == name with
    | true =>
      rw [hfound] at hf
      obtain rfl := Option.some.inj hf
      exact FieldMark.fit_cons.2 ⟨mark, ms, rfl, hkind, hwf, hrest⟩
    | false =>
      rw [hfound] at hf
      exact FieldMark.fit_cons.2 ⟨old, _, rfl, holdkind, holdwf, ih ms hf hrest⟩

/-- Joins a mark into a field, whatever it holds. -/
def joinField (m : RecordMark) (name : String) : FieldMark → Except Fault RecordMark
  | .scalar bits => m.joinBits name bits
  | .array marks => m.joinArray name marks

theorem joinField_ok (hm : m.Fits t) (hf : m.template.field? name = some f)
    (hkind : mark.kind = f.content.kind) (hwf : mark.WellFormed) :
    ∃ r, m.joinField name mark = .ok r ∧ r.Fits t := by
  obtain ⟨old, hold, holdkind, holdwf⟩ := field_ok hm hf
  obtain ⟨joined, hjoined, hjoinedkind, hjoinedwf, -⟩ :=
    FieldMark.join_ok holdwf hwf (hkind.trans holdkind.symm)
  refine ⟨m.withField name joined, ?_,
    fits_withField hm hf (hjoinedkind.trans holdkind) hjoinedwf⟩
  have hsame := hkind.trans holdkind.symm
  cases old with
  | scalar old =>
    cases mark with
    | array _ => cases hsame
    | scalar bits =>
      obtain ⟨r, hr, hjoined⟩ := bind_eq_ok.1 hjoined
      obtain rfl := Except.ok.inj hjoined
      rw [joinField, joinBits, RecordMark.bits, hold]
      show (old.join bits >>= fun r => pure (m.withField name (.scalar r))) = _
      rw [show old.join bits = .ok r from hr]
      rfl
  | array old =>
    cases mark with
    | scalar _ => cases hsame
    | array marks =>
      obtain ⟨r, hr, hjoined⟩ := bind_eq_ok.1 hjoined
      obtain rfl := Except.ok.inj hjoined
      rw [joinField, joinArray, RecordMark.array, hold]
      show (old.join marks >>= fun r => pure (m.withField name (.array r))) = _
      rw [hr]
      rfl

end RecordMark

theorem MemoryMark.WellFormed.withElement_ok {m : MemoryMark} (hm : m.WellFormed) {i : Nat}
    (hi : i ≤ Word.last m.indexWidth) (mark : Marking) (hwidth : mark.width = m.elementWidth) :
    ∃ r, m.withElement i mark = .ok r ∧ r.WellFormed ∧ r.indexWidth = m.indexWidth ∧
      r.elementWidth = m.elementWidth := by
  have hle : i ≤ m.marks.last := hm.last_eq ▸ hi
  have hitem := hm.item_width hle
  obtain ⟨joined, hjoined, hjoinedwidth, -⟩ := Marking.join_ok (hwidth.trans hitem.symm)
  obtain ⟨marks, hset, hordered, hlast, hitems⟩ := Runs.set_ok hm.ordered hle joined
  refine ⟨{ m with marks }, ?_, ⟨hm.width_le, hordered, hlast.trans hm.last_eq, fun {j} hj => ?_⟩,
    rfl, rfl⟩
  · rw [MemoryMark.withElement, Runs.get_ok hle, ok_bind, hjoined, ok_bind, hset]
    rfl
  · rw [hitems j (hlast ▸ hj)]
    split
    · exact hjoinedwidth.trans hitem
    · exact hm.item_width (hlast ▸ hj)

/-! ## Marks of comparisons -/

/-- Whether a kind has a value at an index. -/
def Kind.Admits : Kind → Option Nat → Prop
  | .array indexWidth _, some i => i ≤ Word.last indexWidth
  | _, _ => True

/-- What a comparison reads in a state is a field, at an index that the field has. -/
theorem State.field_of_lookup {st : State} {name : String} {index : Option Nat}
    {read : Value × Signedness} (hname : name ≠ panicField) (h : st.lookup name index = .ok read) :
    ∃ f, st.result.field? name = some f ∧ f.content.kind.Admits index := by
  rw [lookup.eq_def, if_neg hname] at h
  cases hf : st.result.field? name with
  | none =>
    rw [hf] at h
    cases h
  | some f =>
    refine ⟨f, rfl, ?_⟩
    rw [hf] at h
    cases hc : f.content with
    | scalar value => exact trivial
    | array _ memory =>
      cases index with
      | none => exact trivial
      | some i =>
        simp only [hc] at h
        split at h
        · assumption
        · cases h

namespace Verifier

/-- The mark of what a comparison reads in a field. -/
def readMark : Content → Option Nat → Except Fault FieldMark
  | .scalar value, _ => return .scalar (← Marking.all value.width leastImportance)
  | .array _ memory, none =>
    return .array (← MemoryMark.all memory.indexWidth memory.elementWidth leastImportance)
  | .array _ memory, some i => do
    let unmarked ← MemoryMark.unmarked memory.indexWidth memory.elementWidth
    return .array (← unmarked.withElement i (← Marking.all memory.elementWidth leastImportance))

theorem readMark_ok {c : Content} {index : Option Nat} (hbounded : c.kind.Bounded)
    (hindex : c.kind.Admits index) :
    ∃ mark, readMark c index = .ok mark ∧ mark.kind = c.kind ∧ mark.WellFormed := by
  cases c with
  | scalar value =>
    refine ⟨.scalar ⟨value.width, .all value.width leastImportance⟩, ?_, rfl, hbounded⟩
    rw [readMark, Marking.all_ok hbounded]
    rfl
  | array _ memory =>
    have hwidth : memory.elementWidth ≤ Word.maxWidth := hbounded
    cases index with
    | none =>
      refine ⟨.array (.replicate memory.indexWidth
        ⟨memory.elementWidth, .all memory.elementWidth leastImportance⟩), ?_, rfl,
        MemoryMark.wellFormed_replicate hwidth⟩
      rw [readMark, MemoryMark.all, Marking.all_ok hwidth]
      rfl
    | some i =>
      have hunmarked : (MemoryMark.replicate memory.indexWidth
          ⟨memory.elementWidth, .unmarked memory.elementWidth⟩).WellFormed :=
        MemoryMark.wellFormed_replicate hwidth
      obtain ⟨one, hone, hwf, hindexWidth, helementWidth⟩ := hunmarked.withElement_ok hindex
        ⟨memory.elementWidth, .all memory.elementWidth leastImportance⟩ rfl
      refine ⟨.array one, ?_, ?_, hwf⟩
      · rw [readMark, MemoryMark.unmarked, Marking.unmarked_ok hwidth, Marking.all_ok hwidth]
        exact congrArg (· >>= fun one => pure (FieldMark.array one)) hone
      · rw [FieldMark.kind, hindexWidth, helementWidth]
        rfl

/-- A comparison marks what it reads and nothing else. -/
theorem culpritMark_of_field {template : Record} {a : Atomic} {m : StateMark} {g : Field}
    {mark : FieldMark} {r : RecordMark} (hname : a.name ≠ panicField)
    (hm : StateMark.unmarked template = .ok m) (hg : template.field? a.name = some g)
    (hmark : readMark g.content a.index = .ok mark) (hr : m.result.joinField a.name mark = .ok r) :
    culpritMark template a = .ok { m with result := r } := by
  have hjoined {x : Except Fault RecordMark} (hx : x = .ok r) :
      (x >>= fun r => pure { m with result := r }) = Except.ok { m with result := r } := by
    rw [hx]
    rfl
  rw [culpritMark, hm, ok_bind, if_neg hname]
  simp only [hg]
  cases hc : g.content with
  | scalar value =>
    rw [hc, readMark, bind_eq_ok] at hmark
    obtain ⟨bits, hbits, hmark⟩ := hmark
    obtain rfl := Except.ok.inj hmark
    simp only [hbits, ok_bind]
    exact hjoined hr
  | array _ memory =>
    cases hindex : a.index with
    | none =>
      rw [hc, hindex, readMark, bind_eq_ok] at hmark
      obtain ⟨all, hall, hmark⟩ := hmark
      obtain rfl := Except.ok.inj hmark
      simp only [hall, ok_bind]
      exact hjoined hr
    | some i =>
      rw [hc, hindex, readMark] at hmark
      simp only [bind_eq_ok] at hmark
      obtain ⟨unmarked, hunmarked, bits, hbits, one, hone, hmark⟩ := hmark
      obtain rfl := Except.ok.inj hmark
      simp only [hunmarked, hbits, hone, ok_bind]
      exact hjoined hr

/-- What a comparison reads in a state of the shape of a template has a mark. -/
theorem culpritMark_ok {template : Record} {st : State} {a : Atomic} {read : Value × Signedness}
    (hst : st.Fits template.shape) (hread : st.lookup a.name a.index = .ok read) :
    ∃ m, culpritMark template a = .ok m ∧ m.Fits template.shape := by
  obtain ⟨fields, hfields⟩ := RecordMark.unmarked_ok hst.bounded
  have hfits := RecordMark.fits_unmarked hfields
  have hunmarked : StateMark.unmarked template =
      .ok ⟨⟨panicWidth, .unmarked panicWidth⟩, ⟨template, fields⟩⟩ := by
    rw [StateMark.unmarked, hfields]
    rfl
  by_cases hname : a.name = panicField
  · refine ⟨⟨⟨panicWidth, .all panicWidth leastImportance⟩, ⟨template, fields⟩⟩, ?_, rfl, hfits⟩
    rw [culpritMark, hunmarked, ok_bind, if_pos hname, Marking.all_ok (by decide)]
    rfl
  · obtain ⟨f, hf, hindex⟩ := State.field_of_lookup hname hread
    obtain ⟨g, hg, hkind⟩ := Record.field?_of_shape hst.shape_eq hf
    have hbounded := (hst.wellFormed f (List.mem_of_find?_eq_some hf)).bounded
    obtain ⟨mark, hmark, hmarkkind, hwf⟩ := readMark_ok (hkind ▸ hbounded) (hkind ▸ hindex)
    obtain ⟨r, hr, hrfits⟩ := RecordMark.joinField_ok hfits hg hmarkkind hwf
    exact ⟨_, culpritMark_of_field hname hunmarked hg hmark hr, rfl, hrfits⟩

end Verifier

/-! ## Systems that conform to their templates -/

/-- A record of a shape that stands for some single record. -/
def Record.OfShape (t : Shape) (r : Record) : Prop :=
  ∃ c : Concrete.Record, c.shape = t ∧ r.Has c

/-- A state whose record has a shape and that stands for some single state. -/
def State.OfShape (t : Shape) (s : State) : Prop :=
  ∃ c : Concrete.State, c.result.shape = t ∧ s.Has c

theorem State.OfShape.result {t : Shape} {s : State} (h : s.OfShape t) : s.result.OfShape t :=
  let ⟨c, hshape, hc⟩ := h
  ⟨c.result, hshape, hc.2⟩

theorem State.OfShape.fits {t : Shape} {s : State} (h : s.OfShape t) : s.Fits t :=
  let ⟨_, hshape, hc⟩ := h
  hshape ▸ hc.fits

/-- A system that returns states of the shape of its state template, and marks of the shapes that are
    asked for. It may fail. -/
structure TransitionSystem.Conforms (system : TransitionSystem) : Prop where
  init {input : Record} {state : State} : input.OfShape system.inputTemplate.shape →
    system.init input = .ok state → state.OfShape system.stateTemplate.shape
  next {before input : Record} {state : State} : before.OfShape system.stateTemplate.shape →
    input.OfShape system.inputTemplate.shape → system.next before input = .ok state →
    state.OfShape system.stateTemplate.shape
  refineInit {input : Record} {later : StateMark} {mark : RecordMark} :
    input.OfShape system.inputTemplate.shape → later.Fits system.stateTemplate.shape →
    system.refineInit input later = .ok mark → mark.Fits system.inputTemplate.shape
  refineNext {before input : Record} {later : StateMark} {earlier mark : RecordMark} :
    before.OfShape system.stateTemplate.shape → input.OfShape system.inputTemplate.shape →
    later.Fits system.stateTemplate.shape →
    system.refineNext before input later = .ok (earlier, mark) →
    earlier.Fits system.stateTemplate.shape ∧ mark.Fits system.inputTemplate.shape

variable {system : TransitionSystem}

/-- All states of a space have the shape of the template and a member. -/
def TransitionSystem.Conforms.contract (h : system.Conforms) : Contract system where
  Good st := st.OfShape system.stateTemplate.shape
  Follows _ _ := True
  fits hst := hst.fits
  nonempty := fun ⟨_, _, hc⟩ => hc.nonempty
  good := by
    intro stepMark current input state hmark hcurrent hinput hadvance
    have hraw {raw : State} (hshape : raw.OfShape system.stateTemplate.shape)
        (hdecay : stepMark.decay raw = .ok state) : state.OfShape system.stateTemplate.shape := by
      obtain ⟨c, hc, hmember⟩ := hshape
      exact ⟨c, hc, StateMark.has_of_decay hmark hdecay hmember⟩
    cases current with
    | none =>
      obtain ⟨raw, hstep, hdecay⟩ := bind_eq_ok (f := stepMark.decay).1 hadvance
      exact hraw (h.init hinput hstep) hdecay
    | some st =>
      obtain ⟨raw, hstep, hdecay⟩ := bind_eq_ok (f := stepMark.decay).1 hadvance
      exact hraw (h.next (hcurrent rfl).result hinput hstep) hdecay
  follows _ _ _ _ _ := trivial

/-- The inputs of all edges have a shape and a member. -/
def Space.Fed (t : Shape) (s : Space) : Prop :=
  ∀ {n m : NodeId} {r : Record}, s.input? n m = some r → r.OfShape t

namespace Verifier

variable {v w : Verifier} {node : NodeId} {hsys : system.Conforms}

/-! ## The walk along a path -/

/-- A mark of the right shape that tells more apart than the one its node has. -/
inductive Sharpens (system : TransitionSystem) (v : Verifier) : Improvement → Prop
  | step {node : NodeId} {old mark : StateMark} : v.stepPrecision.get v.space node = .ok old →
    old.marked ⊂ mark.marked → mark.Fits system.stateTemplate.shape →
    Sharpens system v (.step node mark)
  | input {node : NodeId} {old mark : RecordMark} : v.inputPrecision.get v.space node = .ok old →
    old.marked ⊂ mark.marked → mark.Fits system.inputTemplate.shape →
    Sharpens system v (.input node mark)

/-- How a walk along a path ends: the system fails, or nothing is found but marks that tell more
    apart. -/
def WalkSpec (system : TransitionSystem) (v : Verifier) (r : Except Stop (Option Improvement)) : Prop :=
  (∃ cause, r = .error (.failure cause)) ∨
    ∃ found, r = .ok found ∧ ∀ i, found = some i → v.Sharpens system i

/-- The marks that a mark after a node asks for have the right shapes. -/
theorem marksAt_fits (hv : v.Generated hsys.contract) {input : Record} {later : StateMark}
    {before : Option RecordMark} {mark : RecordMark}
    (hinput : input.OfShape system.inputTemplate.shape)
    (hlater : later.Fits system.stateTemplate.shape)
    (h : v.marksAt node input later = .ok (before, mark)) :
    mark.Fits system.inputTemplate.shape ∧
      ∀ earlier, before = some earlier → earlier.Fits system.stateTemplate.shape := by
  rw [marksAt, hv.system_eq] at h
  split at h
  · obtain ⟨m, hm, h⟩ := bind_eq_ok.1 h
    obtain ⟨rfl, rfl⟩ := Prod.mk.inj (Except.ok.inj h)
    exact ⟨hsys.refineInit hinput hlater hm, fun _ h => (by cases h)⟩
  · simp only [bind_eq_ok] at h
    obtain ⟨st, hst, ⟨earlier, m⟩, hm, h⟩ := h
    obtain ⟨rfl, rfl⟩ := Prod.mk.inj (Except.ok.inj h)
    have hstored : v.space.states[node]? = some st := by
      rw [Space.state] at hst
      split at hst
      · rename_i state hstate
        rw [hstate, Except.ok.inj hst]
      · cases hst
    have hgood : st.OfShape system.stateTemplate.shape := hv.built.good hstored
    obtain ⟨hearlier, hmark⟩ := hsys.refineNext hgood.result hinput hlater hm
    exact ⟨hmark, fun _ h => Option.some.inj h ▸ hearlier⟩

/-- The walk ends with what was found so far. -/
theorem walkSpec_best {best : Option (NodeId × RecordMark)}
    (hbest : ∀ n m, best = some (n, m) → v.Sharpens system (.input n m)) :
    v.WalkSpec system (.ok (best.map fun b => .input b.1 b.2)) := by
  refine .inr ⟨_, rfl, fun i hi => ?_⟩
  obtain ⟨⟨n, m⟩, hnm, rfl⟩ := Option.map_eq_some_iff.1 hi
  exact hbest n m hnm

/-- A walk along edges of the space, from a mark of the right shape on. -/
theorem improvement?_spec (hv : v.Generated hsys.contract)
    (hfed : v.space.Fed system.inputTemplate.shape) {edges : List (NodeId × StateId)}
    (hedges : ∀ e ∈ edges, e.2 ∈ v.space.next e.1) {later : StateMark}
    (hlater : later.Fits system.stateTemplate.shape) {best : Option (NodeId × RecordMark)}
    (hbest : ∀ n m, best = some (n, m) → v.Sharpens system (.input n m)) :
    v.WalkSpec system (v.improvement? edges later best) := by
  induction edges generalizing later best with
  | nil => exact walkSpec_best hbest
  | cons edge edges ih =>
    obtain ⟨node, state⟩ := edge
    obtain ⟨hedge, hrest⟩ := List.forall_mem_cons.1 hedges
    have hnode : v.HasNode node := hv.built.valid.source hedge
    obtain ⟨stepMark, hstep, hstepfits⟩ := hv.get_ok hv.step hnode
    obtain ⟨inputMark, hin, hinfits⟩ := hv.get_ok hv.input hnode
    obtain ⟨refined, hrefined, hgrows⟩ := StateMark.refine?_ok hstepfits hlater
    rw [improvement?]
    simp only [hstep, hrefined, Except.mapError, ok_bind]
    cases refined with
    | some mark =>
      -- the step precision of the source can be refined, and the walk ends
      refine .inr ⟨_, rfl, fun i hi => ?_⟩
      obtain rfl := Option.some.inj hi
      exact .step hstep (hgrows mark rfl) (StateMark.refine?_eq_some hstepfits hrefined)
    | none =>
      -- otherwise the mark goes to the input of the edge and to the state before
      obtain ⟨input, hinput⟩ : ∃ input, v.space.input? node state = some input := by
        by_contra hnone
        have hnone' : v.space.input? node state = none := by
          rw [Option.eq_none_iff_forall_ne_some]
          exact fun r hr => hnone ⟨r, hr⟩
        exact Space.not_mem_next_of_input? hnone' hedge
      simp only [hinput, pure_ok, ok_bind]
      cases hmarks : v.marksAt node input later with
      | error cause => exact .inl ⟨.system node cause, rfl⟩
      | ok marks =>
        obtain ⟨before, offer⟩ := marks
        obtain ⟨hofferfits, hbefore⟩ := marksAt_fits hv (hfed hinput) hlater hmarks
        obtain ⟨refined, hrefined, hgrows⟩ := RecordMark.refine?_ok hinfits hofferfits
        simp only [ok_bind, hin, hrefined]
        -- the input that is kept for the end is a refinement as well
        have hbest' : ∀ n m, afterEdge best node refined = some (n, m) →
            v.Sharpens system (.input n m) := by
          intro n m hnm
          rcases afterEdge_eq_some hnm with hnm | ⟨rfl, rfl⟩
          · exact hbest n m hnm
          · exact .input hin (hgrows m rfl) (RecordMark.refine?_eq_some hinfits hrefined)
        cases before with
        | none => exact walkSpec_best hbest'
        | some earlier => exact ih hrest ⟨rfl, hbefore earlier rfl⟩ hbest'

end Verifier

end RefineCheck
