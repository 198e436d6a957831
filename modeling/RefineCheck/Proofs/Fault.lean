/-
  RefineCheck.Proofs.Fault

  Which faults an operation can raise. The faults about a space (a node without a successor, a
  culprit path without an edge) are raised by the operations on whole spaces only. Values, marks,
  precisions and the parts of a check raise others, whatever they are given.
-/

import RefineCheck.Checker
import RefineCheck.Proofs.Result
import RefineCheck.Verifier.Refinement

namespace RefineCheck

variable {α β γ : Type}

/-- Whether a fault says that a space is not what a generation makes it. -/
def Fault.Spatial : Fault → Prop
  | .deadEnd _ | .culpritEdge _ _ | .notLeftTotal _ => True
  | _ => False

/-- A computation that raises no fault about a space. -/
def Tame (x : Except Fault α) : Prop := ∀ cause, x = .error cause → ¬ cause.Spatial

@[simp] theorem tame_ok (a : α) : Tame (.ok a) := fun _ h => by cases h

@[simp] theorem tame_pure (a : α) : Tame (pure a) := tame_ok a

@[simp] theorem tame_error {cause : Fault} :
    Tame (.error cause : Except Fault α) ↔ ¬ cause.Spatial :=
  ⟨fun h => h cause rfl, fun h _ hcause => Except.error.inj hcause ▸ h⟩

@[simp] theorem tame_throw {cause : Fault} :
    Tame (throw cause : Except Fault α) ↔ ¬ cause.Spatial :=
  tame_error

theorem Tame.bind {x : Except Fault α} {f : α → Except Fault β} (hx : Tame x)
    (hf : ∀ a, Tame (f a)) : Tame (x >>= f) := by
  cases x with
  | ok a => exact hf a
  | error cause => exact fun _ h => hx _ (congrArg Except.error (Except.error.inj h))

/-- A computation whose result is only put into another form. -/
theorem Tame.map {x : Except Fault α} (hx : Tame x) (f : α → β) : Tame (x >>= fun a => pure (f a)) :=
  hx.bind fun _ => tame_pure _

theorem tame_mapM {f : α → Except Fault β} (hf : ∀ a, Tame (f a)) (xs : List α) :
    Tame (xs.mapM f) := by
  induction xs with
  | nil => exact tame_pure _
  | cons x xs ih =>
    rw [List.mapM_cons]
    exact (hf x).bind fun _ => ih.map _

theorem tame_foldlM {f : β → α → Except Fault β} (hf : ∀ b a, Tame (f b a)) (xs : List α) (b : β) :
    Tame (xs.foldlM f b) := by
  induction xs generalizing b with
  | nil => exact tame_pure _
  | cons x xs ih =>
    rw [List.foldlM_cons]
    exact (hf b x).bind ih

/-! ## Values and arrays -/

theorem tame_checkWidth (w : Nat) : Tame (checkWidth w) := by
  rw [checkWidth]
  split <;> simp [Fault.Spatial]

theorem Sized.tame_zipWith {F G : Nat → Type} (f : {w : Nat} → F w → G w → α) (a : Sized F)
    (b : Sized G) : Tame (zipWith f a b) := by
  rw [zipWith]
  split <;> simp [Fault.Spatial]

namespace Runs

theorem tame_checkIndex (l : Runs α) (i : Nat) : Tame (l.checkIndex i) := by
  rw [checkIndex]
  split <;> simp [Fault.Spatial]

theorem tame_get (l : Runs α) (i : Nat) : Tame (l.get i) := (l.tame_checkIndex i).map _

theorem tame_zip (l : Runs α) (k : Runs β) : Tame (l.zip k) := by
  rw [zip]
  split <;> simp [Fault.Spatial]

theorem tame_mapRunsM {f : Nat → α → Except Fault β} (hf : ∀ i a, Tame (f i a)) (first : Nat)
    (runs : List (Run α)) : Tame (mapRunsM f first runs) := by
  induction runs generalizing first with
  | nil => exact tame_pure _
  | cons r runs ih =>
    rw [mapRunsM]
    exact (hf first r.value).bind fun _ => (ih _).bind fun _ => tame_pure _

theorem tame_mapFromM [DecidableEq β] {f : Nat → α → Except Fault β} (hf : ∀ i a, Tame (f i a))
    (l : Runs α) : Tame (l.mapFromM f) :=
  (tame_mapRunsM hf 0 l.runs).bind fun _ => (hf _ _).map _

theorem tame_set [DecidableEq α] (l : Runs α) (i : Nat) (value : α) : Tame (l.set i value) := by
  rw [set, mapRangeM]
  refine (l.tame_checkIndex i).bind fun _ => ?_
  rw [if_neg (Nat.lt_irrefl i)]
  refine tame_mapFromM (fun start old => ?_) _
  split <;> exact tame_ok _

theorem tame_zipWithM [DecidableEq γ] {f : α → β → Except Fault γ} (hf : ∀ a b, Tame (f a b))
    (l : Runs α) (k : Runs β) : Tame (l.zipWithM f k) := by
  refine (l.tame_zip k).bind fun pairs => ?_
  exact tame_mapFromM (fun _ (p : α × β) => hf p.1 p.2) pairs

theorem tame_allM {p : α → β → Except Fault Bool} (hp : ∀ a b, Tame (p a b)) (l : Runs α)
    (k : Runs β) : Tame (l.allM p k) := by
  refine (l.tame_zip k).bind fun pairs => Tame.map (tame_mapM ?_ pairs.segments) _
  exact fun s : Segment (α × β) => hp s.value.1 s.value.2

end Runs

/-! ## Records and states -/

theorem Field.tame_bits (f : Field) : Tame f.bits := by
  rw [bits]
  split <;> simp [Fault.Spatial]

theorem Field.tame_withBits (f : Field) (value : Value) : Tame (f.withBits value) := by
  rw [withBits]
  split
  · split <;> exact tame_ok _
  · simp [Fault.Spatial]

theorem Record.tame_checkShape (r s : Record) : Tame (r.checkShape s) := by
  rw [checkShape]
  split
  · split <;> simp [Fault.Spatial]
  · simp [Fault.Spatial]

theorem Record.tame_containsFields (fs gs : List Field) : Tame (containsFields fs gs) := by
  induction fs generalizing gs with
  | nil => exact tame_pure _
  | cons f fs ih =>
    cases gs with
    | nil => exact tame_pure _
    | cons g gs =>
      have hrest (inside : Bool) : Tame (if inside then containsFields fs gs else return false) := by
        split
        · exact ih gs
        · exact tame_pure _
      rw [containsFields]
      dsimp only
      split
      · exact (Runs.tame_allM (fun a b => Sized.tame_zipWith _ a b) _ _).bind hrest
      · exact f.tame_bits.bind fun a => g.tame_bits.bind fun b =>
          (Sized.tame_zipWith _ a b).bind hrest

theorem State.tame_contains (s t : State) : Tame (s.contains t) := by
  refine (Sized.tame_zipWith _ s.panic t.panic).bind fun inside => ?_
  split
  · exact (Record.tame_checkShape _ _).bind fun _ => Record.tame_containsFields _ _
  · exact tame_pure _

/-! ## Marks -/

namespace MemoryMark

theorem tame_unmarked (indexWidth elementWidth : Nat) : Tame (unmarked indexWidth elementWidth) :=
  ((tame_checkWidth elementWidth).map _).map _

theorem tame_all (indexWidth elementWidth importance : Nat) :
    Tame (all indexWidth elementWidth importance) :=
  ((tame_checkWidth elementWidth).map _).map _

theorem tame_withElement (m : MemoryMark) (i : Nat) (mark : Marking) :
    Tame (m.withElement i mark) :=
  (Runs.tame_get _ _).bind fun old => (Sized.tame_zipWith _ old mark).bind fun _ =>
    (Runs.tame_set _ _ _).map _

theorem tame_join (m n : MemoryMark) : Tame (m.join n) :=
  (Runs.tame_zipWithM (fun a b => Sized.tame_zipWith _ a b) _ _).map _

theorem tame_findRefinement (segments : List (Segment (Marking × Marking))) :
    Tame (findRefinement segments) := by
  induction segments with
  | nil => exact tame_pure _
  | cons s segments ih =>
    rw [findRefinement]
    refine (Sized.tame_zipWith _ s.value.1 s.value.2).bind fun refined => ?_
    split
    · exact tame_pure _
    · exact ih

theorem tame_refine? (m offer : MemoryMark) : Tame (m.refine? offer) := by
  refine (Runs.tame_zip _ _).bind fun pairs => (tame_findRefinement _).bind fun found => ?_
  split
  · exact tame_pure _
  · exact (Runs.tame_set _ _ _).map _

theorem tame_advanceRun (mark : Marking) (count i : Nat) (elements : Runs Value) :
    Tame (advanceRun mark count i elements) := by
  induction count generalizing i elements with
  | zero => exact tame_pure _
  | succ count ih =>
    rw [advanceRun]
    refine (Runs.tame_get _ _).bind fun value => (Runs.tame_set _ _ _).bind fun elements => ?_
    split
    · exact tame_pure _
    · exact ih _ _

theorem tame_advanceSegments (segments : List (Segment Marking)) (elements : Runs Value) :
    Tame (advanceSegments segments elements) := by
  induction segments generalizing elements with
  | nil => exact tame_pure _
  | cons s segments ih =>
    rw [advanceSegments]
    split
    · refine (tame_advanceRun _ _ _ _).bind fun (advanced, elements) => ?_
      dsimp only
      split
      · exact tame_pure _
      · exact ih _
    · exact ih _

theorem tame_advance (m : MemoryMark) (a : Memory) : Tame (m.advance a) :=
  (tame_advanceSegments _ _).bind fun _ => tame_pure _

end MemoryMark

namespace FieldMark

theorem tame_unmarkedOf (f : Field) : Tame (unmarkedOf f) := by
  rw [unmarkedOf]
  split
  · exact ((tame_checkWidth _).map _).map _
  · exact (MemoryMark.tame_unmarked _ _).map _

theorem tame_join (m n : FieldMark) : Tame (m.join n) := by
  rw [join.eq_def]
  split
  · exact (MemoryMark.tame_join _ _).map _
  · exact (Sized.tame_zipWith _ m.bits n.bits).map _

theorem tame_refine? (m n : FieldMark) : Tame (m.refine? n) := by
  rw [refine?.eq_def]
  split
  · exact (MemoryMark.tame_refine? _ _).map _
  · exact (Sized.tame_zipWith _ m.bits n.bits).map _

theorem tame_first (m : FieldMark) (f : Field) : Tame (m.first f) := by
  rw [first.eq_def]
  split
  · exact tame_pure _
  · exact f.tame_withBits _

theorem tame_advance (m : FieldMark) (f : Field) : Tame (m.advance f) := by
  rw [advance.eq_def]
  split
  · exact (MemoryMark.tame_advance _ _).bind fun _ => tame_pure _
  · exact f.tame_bits.bind fun _ => (f.tame_withBits _).map _

end FieldMark

namespace RecordMark

theorem tame_unmarked (template : Record) : Tame (unmarked template) :=
  (tame_mapM FieldMark.tame_unmarkedOf _).map _

theorem tame_field (m : RecordMark) (name : String) : Tame (m.field name) := by
  rw [field]
  split <;> simp [Fault.Spatial]

theorem tame_joinBits (m : RecordMark) (name : String) (mark : Marking) :
    Tame (m.joinBits name mark) := by
  have hbits : Tame (m.bits name) := by
    refine (m.tame_field name).bind fun old => ?_
    split <;> simp [Fault.Spatial]
  exact hbits.bind fun old => (Sized.tame_zipWith _ old mark).map _

theorem tame_joinArray (m : RecordMark) (name : String) (mark : MemoryMark) :
    Tame (m.joinArray name mark) := by
  have harray : Tame (m.array name) := by
    refine (m.tame_field name).bind fun old => ?_
    split <;> simp [Fault.Spatial]
  exact harray.bind fun old => (old.tame_join mark).map _

theorem tame_checkShape (m n : RecordMark) : Tame (m.checkShape n) := by
  rw [checkShape]
  split <;> simp [Fault.Spatial]

theorem tame_join (m n : RecordMark) : Tame (m.join n) :=
  (m.tame_checkShape n).bind fun _ =>
    (tame_mapM (fun p : FieldMark × FieldMark => p.1.tame_join p.2) _).map _

theorem tame_refineFields (ms ns : List FieldMark) : Tame (refineFields ms ns) := by
  induction ms generalizing ns with
  | nil => exact tame_pure _
  | cons m ms ih =>
    cases ns with
    | nil => exact tame_pure _
    | cons n ns =>
      rw [refineFields]
      refine (m.tame_refine? n).bind fun refined => ?_
      split
      · exact tame_pure _
      · exact (ih ns).map _

theorem tame_refine? (m offer : RecordMark) : Tame (m.refine? offer) :=
  (m.tame_checkShape offer).bind fun _ => (tame_refineFields _ _).map _

theorem tame_first (m : RecordMark) : Tame m.first :=
  (tame_mapM (fun p : FieldMark × Field => p.1.tame_first p.2) _).map Record.mk

theorem tame_advanceFields (ms : List FieldMark) (fs : List Field) : Tame (advanceFields ms fs) := by
  induction ms generalizing fs with
  | nil => exact tame_pure _
  | cons m ms ih =>
    cases fs with
    | nil => exact tame_pure _
    | cons f fs =>
      rw [advanceFields]
      refine (m.tame_advance f).bind fun (advanced, f) => ?_
      dsimp only
      split
      · exact tame_pure _
      · exact (ih fs).bind fun _ => tame_pure _

theorem tame_advance (m : RecordMark) (r : Record) : Tame (m.advance r) :=
  (Record.tame_checkShape _ _).bind fun _ => (tame_advanceFields _ _).bind fun _ => tame_pure _

end RecordMark

namespace StateMark

theorem tame_join (m n : StateMark) : Tame (m.join n) :=
  (Sized.tame_zipWith _ m.panic n.panic).bind fun _ => (m.result.tame_join n.result).map _

theorem tame_refine? (m offer : StateMark) : Tame (m.refine? offer) := by
  refine (Sized.tame_zipWith _ m.panic offer.panic).bind fun panic => ?_
  split
  · exact tame_pure _
  · exact (m.result.tame_refine? offer.result).map _

end StateMark

/-! ## Spaces and precisions -/

theorem Space.tame_state (s : Space) (n : StateId) : Tame (s.state n) := by
  rw [state]
  split <;> simp [Fault.Spatial]

namespace Precision

variable {M : Type}

theorem tame_get [Refinable M] (hjoin : ∀ m n : M, Tame (Refinable.join m n)) (p : Precision M)
    (s : Space) (n : NodeId) : Tame (p.get s n) := by
  rw [get]
  split
  · exact tame_pure _
  · refine (s.tame_state n).bind fun state => tame_foldlM (fun mark (other, e) => ?_) _ _
    dsimp only
    split
    · exact tame_pure _
    · split
      · exact tame_pure _
      · refine (State.tame_contains _ state).bind fun inside => ?_
        split
        · exact hjoin _ _
        · exact tame_pure _

end Precision

/-! ## Formulas -/

theorem Property.tame_positive (complement : Bool) (bindings : List (String × Bool))
    (p : Property) : Tame (positive complement bindings p) := by
  induction p generalizing complement bindings with
  | const _ | atom _ => exact tame_pure _
  | not p ih => exact ih _ _
  | next _ p ih | eventually _ p ih | always _ p ih | fix _ _ p ih => exact (ih _ _).map _
  | and p q ihp ihq | or p q ihp ihq | holdUntil _ p q ihp ihq | release _ p q ihp ihq =>
    exact (ihp _ _).bind fun _ => (ihq _ _).map _
  | var name =>
    rw [positive]
    split
    · split <;> simp [Fault.Spatial]
    · exact tame_ok _

theorem Property.tame_pnf (p : Property) : Tame p.pnf := by
  refine (p.tame_positive _ _).bind fun q => ?_
  split
  · exact tame_error.2 id
  · exact tame_ok _

namespace Formula

theorem tame_share {p : Property} {fresh : StateT Numbering (Except Fault) Formula}
    (hfresh : ∀ n, Tame (fresh.run n)) (n : Numbering) : Tame ((share p fresh).run n) := by
  rw [share]
  split
  · exact hfresh n
  · simp only [StateT.run_bind, StateT.run_get, pure_bind]
    split
    · exact tame_pure _
    · exact (hfresh n).bind fun _ => tame_pure _

theorem tame_number (bindings : List (String × Nat)) (p : Property) (n : Numbering) :
    Tame ((number bindings p).run n) := by
  induction p generalizing bindings n with
  | const _ | atom _ => exact tame_share (fun _ => tame_pure _) n
  | and p q ihp ihq | or p q ihp ihq =>
    exact tame_share (fun _ => (ihp _ _).bind fun _ => (ihq _ _).bind fun _ => tame_pure _) n
  | next _ p ih => exact tame_share (fun _ => (ih _ _).bind fun _ => tame_pure _) n
  | fix _ _ p ih => exact tame_share (fun _ => (ih _ _).bind fun _ => tame_pure _) n
  | var name =>
    rw [number]
    split
    · exact tame_pure _
    · exact tame_error.2 id
  | not _ _ | eventually _ _ _ | always _ _ _ | holdUntil _ _ _ _ _ | release _ _ _ _ _ =>
    exact tame_error.2 id

theorem tame_ofProperty (p : Property) : Tame (ofProperty p) :=
  p.tame_pnf.bind fun _ => (tame_number _ _ _).bind fun _ => tame_pure _

end Formula

namespace Labelling

variable {s : Space} {l : Labelling}

theorem tame_entryBefore (l : Labelling) (id bound : Nat) (state : StateId) :
    Tame (l.entryBefore id bound state) := by
  rw [entryBefore]
  split <;> simp [Fault.Spatial]

theorem tame_valueBefore (s : Space) (l : Labelling) (bound : Nat) (f : Formula)
    (state : StateId) : Tame (l.valueBefore s bound f state) := by
  induction f generalizing state with
  | const _ => exact tame_pure _
  | atom a =>
    refine (s.tame_state state).bind fun _ => ?_
    split <;> simp [Fault.Spatial]
  | and f g ihf ihg | or f g ihf ihg => exact (ihf _).bind fun _ => (ihg _).map _
  | next _ f ih => exact (tame_mapM ih _).map _
  | fix id _ _ _ _ | var id _ => exact (l.tame_entryBefore id bound state).map _
  | shared id f ih =>
    rw [valueBefore]
    split
    · exact tame_pure _
    · exact ih state

theorem tame_findM? {holds : α → Except Fault Bool} (h : ∀ a, Tame (holds a)) (xs : List α) :
    Tame (findM? holds xs) := by
  induction xs with
  | nil => exact tame_pure _
  | cons a xs ih =>
    rw [findM?]
    refine (h a).bind fun found => ?_
    split
    · exact tame_pure _
    · exact ih

theorem tame_deduce (s : Space) (l : Labelling) (bound : Nat) (f : Formula)
    (earlier : List StateId) (state : StateId) : Tame (l.deduce s bound f earlier state) := by
  have hunknown (bound : Nat) (g : Formula) (n : StateId) :
      Tame (do return (← l.valueBefore s bound g n).isUnknown) := (tame_valueBefore _ _ _ _ _).map _
  fun_induction deduce s l bound f earlier state with
  | case1 => exact tame_error.2 id
  | case2 => exact tame_pure _
  | case3 bound earlier n isUnknown f g refuse ihf ihg
  | case4 bound earlier n isUnknown f g refuse ihf ihg =>
    refine (hunknown _ _ _).bind fun left => ?_
    split
    · exact ihf
    · refine (hunknown _ _ _).bind fun right => ?_
      split
      · exact ihg
      · exact tame_error.2 id
  | case5 bound earlier n isUnknown paths f refuse ih =>
    refine (tame_findM? (hunknown _ _) _).bind fun found => ?_
    split
    · exact ih _
    · exact tame_error.2 id
  | case6 bound earlier n id kind name f ih =>
    exact (tame_entryBefore _ _ _ _).bind fun entry => ih entry.1 entry.2
  | case7 bound earlier n id name refuse ih =>
    refine (tame_entryBefore _ _ _ _).bind fun entry => ?_
    obtain ⟨e, he⟩ := entry
    dsimp only
    split
    · exact ih e he _
    · exact tame_error.2 fun h => h
  | case8 bound earlier n id f ih => exact ih

theorem tame_conclude (s : Space) (l : Labelling) (labels : Labels) : Tame (l.conclude s labels) := by
  rw [conclude]
  split
  · exact tame_pure _
  · split
    · exact (tame_deduce _ _ _ _ _ _).map _
    · exact tame_error.2 id

end Labelling

/-! ## Generation and refinement -/

/-- Whether a computation stops because of a fault about a space. -/
def Stop.Spatial : Stop → Prop
  | .fault cause => cause.Spatial
  | .failure _ | .exhausted => False

namespace Verifier

variable {v : Verifier} {stop : Stop} {node : NodeId} {fuel : Nat}

theorem not_spatial_of_lift {x : Except Fault α} (hx : Tame x)
    (h : x.mapError Stop.fault = .error stop) : ¬ stop.Spatial := by
  obtain ⟨cause, hcause, rfl⟩ := mapError_eq_error h
  exact hx cause hcause

theorem tame_culpritMark (template : Record) (a : Atomic) : Tame (culpritMark template a) := by
  refine ((RecordMark.tame_unmarked template).map _).bind fun mark => ?_
  split
  · exact ((tame_checkWidth panicWidth).map _).map _
  · split
    · exact tame_error.2 id
    · split
      · exact ((tame_checkWidth _).map _).bind fun _ => (RecordMark.tame_joinBits _ _ _).map _
      · exact (MemoryMark.tame_all _ _ _).bind fun _ => (RecordMark.tame_joinArray _ _ _).map _
      · exact (MemoryMark.tame_unmarked _ _).bind fun _ => ((tame_checkWidth _).map _).bind fun _ =>
          (MemoryMark.tame_withElement _ _ _).bind fun _ => (RecordMark.tame_joinArray _ _ _).map _

/-- A walk along edges of the space raises no fault about it. -/
theorem culpritEdge_of_improvement? {edges : List (NodeId × StateId)} {later : StateMark}
    {best : Option (NodeId × RecordMark)} (h : v.improvement? edges later best = .error stop)
    (hspatial : stop.Spatial) : ∃ edge ∈ edges, v.space.input? edge.1 edge.2 = none ∧
      stop = .fault (.culpritEdge (NodeId.text edge.1) edge.2) := by
  induction edges generalizing later best with
  | nil => cases h
  | cons edge edges ih =>
    obtain ⟨node, state⟩ := edge
    rw [improvement?] at h
    simp only [bind_eq_error] at h
    -- the marks themselves raise no fault about the space
    rcases h with h | ⟨old, -, h | ⟨refined, -, h⟩⟩
    · exact absurd hspatial (not_spatial_of_lift (Precision.tame_get StateMark.tame_join _ _ _) h)
    · exact absurd hspatial (not_spatial_of_lift (old.tame_refine? later) h)
    · cases refined with
      | some mark => cases h
      | none =>
        cases hinput : v.space.input? node state with
        | none =>
          simp only [hinput] at h
          obtain rfl := Except.error.inj h
          exact ⟨(node, state), List.mem_cons_self, hinput, rfl⟩
        | some input =>
          simp only [hinput, pure_ok, ok_bind, bind_eq_error] at h
          rcases h with h | ⟨⟨before, offer⟩, -, h | ⟨old, -, h | ⟨refined, -, h⟩⟩⟩
          · obtain ⟨cause, -, rfl⟩ := mapError_eq_error h
            exact hspatial.elim
          · exact absurd hspatial (not_spatial_of_lift (Precision.tame_get RecordMark.tame_join _ _ _) h)
          · exact absurd hspatial (not_spatial_of_lift (old.tame_refine? offer) h)
          · cases before with
            | none => cases h
            | some before =>
              obtain ⟨edge, hedge, hmissing⟩ := ih h
              exact ⟨edge, List.mem_cons_of_mem _ hedge, hmissing⟩

end Verifier

end RefineCheck
