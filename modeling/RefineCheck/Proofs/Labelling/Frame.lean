/-
  RefineCheck.Proofs.Labelling.Frame

  What labelling leaves as it is. Labels are only added, and entries of histories are only
  recorded at new times, so values that were traced stay traced.
-/

import RefineCheck.Proofs.Labelling.Trace

namespace RefineCheck

open Formula (Tables)

/-- The numbers of the shared parts. -/
def Formula.sharedIds : Formula → Set Nat
  | .const _ | .atom _ | .var _ _ => ∅
  | .and f g | .or f g => f.sharedIds ∪ g.sharedIds
  | .next _ f | .fix _ _ _ f => f.sharedIds
  | .shared id f => insert id f.sharedIds

/-- The shared parts of a formula are smaller than the formula. -/
theorem Formula.Agree.shares_lt {T : Tables} {f : Formula} (hf : f.Agree T) {id : Nat}
    (hid : id ∈ f.sharedIds) : ∃ g, T.shares id = some g ∧ sizeOf g < sizeOf f := by
  have within {f g : Formula} (hlt : sizeOf f < sizeOf g)
      (h : ∃ b, T.shares id = some b ∧ sizeOf b < sizeOf f) :
      ∃ b, T.shares id = some b ∧ sizeOf b < sizeOf g :=
    h.imp fun _ hb => ⟨hb.1, hb.2.trans hlt⟩
  induction f with
  | const _ | atom _ | var _ _ => exact hid.elim
  | and f g ihf ihg | or f g ihf ihg =>
    rcases hid with hid | hid
    · exact within (by simp +arith) (ihf hf.1 hid)
    · exact within (by simp +arith) (ihg hf.2 hid)
  | next _ f ih => exact within (by simp +arith) (ih hf hid)
  | fix _ _ _ f ih => exact within (by simp +arith) (ih hf.2 hid)
  | shared i f ih =>
    rcases hid with rfl | hid
    · exact ⟨f, hf.1, by simp +arith⟩
    · exact within (by simp +arith) (ih hf.2 hid)

/-- A shared part does not contain itself. -/
theorem Formula.Tables.Lawful.not_mem_sharedIds {T : Tables} (hT : T.Lawful) {id : Nat}
    {f : Formula} (h : T.shares id = some f) : id ∉ f.sharedIds := by
  intro hid
  obtain ⟨g, hg, hlt⟩ := (hT.agree h).shares_lt hid
  obtain rfl := Option.some.inj (h.symm.trans hg)
  exact absurd hlt (lt_irrefl _)

theorem Formula.Flat.live_eq {f : Formula} (h : f.Flat)
    (hf : ∀ id kind name g, f ≠ .fix id kind name g) : f.live = ∅ := by
  cases f with
  | fix id kind name g => exact absurd rfl (hf id kind name g)
  | const _ | atom _ | and _ _ | or _ _ | next _ _ | var _ _ | shared _ _ => exact h

namespace Labelling

/-! ## Later labellings -/

/-- Whether a state has the same entries in the history of a fixed point. -/
def SameEntries (l l' : Labelling) (id : Nat) (n : NodeId) : Prop :=
  (l'.history id).entries n = (l.history id).entries n

/-- Labels stay, and the entries of the past stay the last ones of their time. -/
structure Later (l l' : Labelling) : Prop where
  property_eq : l'.property = l.property
  formula_eq : l'.formula = l.formula
  changed_eq : l'.changed = l.changed
  time_le : l.time ≤ l'.time
  label {id : Nat} {n : NodeId} {label : Label} :
    (l.labelsOf id)[n]? = some label → (l'.labelsOf id)[n]? = some label
  before {bound id : Nat} {n : NodeId} : bound ≤ l.time + 1 →
    (l'.history id).before? bound n = (l.history id).before? bound n

theorem Later.refl (l : Labelling) : Later l l :=
  ⟨rfl, rfl, rfl, le_rfl, id, fun _ => rfl⟩

theorem Later.trans {l l₁ l₂ : Labelling} (h : Later l l₁) (h' : Later l₁ l₂) : Later l l₂ where
  property_eq := h'.property_eq.trans h.property_eq
  formula_eq := h'.formula_eq.trans h.formula_eq
  changed_eq := h'.changed_eq.trans h.changed_eq
  time_le := h.time_le.trans h'.time_le
  label e := h'.label (h.label e)
  before hb := (h'.before (hb.trans (Nat.succ_le_succ h.time_le))).trans (h.before hb)

/-- The fixed points of labelled shared parts, in the labelled states. Their entries there are
    not touched until the label is forgotten. -/
def Settled (T : Tables) (l : Labelling) (id : Nat) (n : NodeId) : Prop :=
  ∃ share kind name body label, T.shares share = some (.fix id kind name body) ∧
    (l.labelsOf share)[n]? = some label

theorem Settled.later {T : Tables} {l l' : Labelling} {id : Nat} {n : NodeId}
    (h : Settled T l id n) (hl : Later l l') : Settled T l' id n := by
  obtain ⟨share, kind, name, body, label, hshare, hlabel⟩ := h
  exact ⟨share, kind, name, body, label, hshare, hl.label hlabel⟩

/-- A later labelling in which only the labels of some shared parts and the histories of some fixed
    points differ. -/
structure Extended (T : Tables) (shares fixes : Set Nat) (l l' : Labelling) : Prop
    extends Later l l' where
  labels_other {id : Nat} : id ∉ shares → l'.labelsOf id = l.labelsOf id
  untouched {id : Nat} {n : NodeId} : id ∉ fixes → SameEntries l l' id n
  settled {id : Nat} {n : NodeId} : Settled T l id n → SameEntries l l' id n

namespace Extended

variable {T : Tables} {shares fixes : Set Nat} {l l₁ l₂ : Labelling}

theorem refl (T : Tables) (shares fixes : Set Nat) (l : Labelling) : Extended T shares fixes l l :=
  ⟨.refl l, fun _ => rfl, fun _ => rfl, fun _ => rfl⟩

theorem trans (h : Extended T shares fixes l l₁) (h' : Extended T shares fixes l₁ l₂) :
    Extended T shares fixes l l₂ where
  toLater := h.toLater.trans h'.toLater
  labels_other hid := (h'.labels_other hid).trans (h.labels_other hid)
  untouched hid := (h'.untouched hid).trans (h.untouched hid)
  settled hs := (h'.settled (hs.later h.toLater)).trans (h.settled hs)

theorem mono {shares' fixes' : Set Nat} (h : Extended T shares fixes l l₁)
    (hs : shares ⊆ shares') (hf : fixes ⊆ fixes') : Extended T shares' fixes' l l₁ :=
  { h with
    labels_other := fun hid => h.labels_other fun hi => hid (hs hi)
    untouched := fun hid => h.untouched fun hi => hid (hf hi) }

end Extended

/-! ## Traces stay -/

variable {s : Space} {T : Tables} {l l' : Labelling} {f : Formula} {n : NodeId} {v : Valuation}

/-- A value that was traced in the past is traced later. -/
theorem Traced.past {bound : Nat} (h : Traced s T l bound f n v) (hl : Later l l')
    (hb : bound ≤ l.time + 1) : Traced s T l' bound f n v := by
  induction h with
  | const => exact .const
  | atom hstate hv => exact .atom hstate hv
  | and _ _ ihf ihg => exact .and (ihf hb) (ihg hb)
  | or _ _ ihf ihg => exact .or (ihf hb) (ihg hb)
  | next values _ ih => exact .next values fun m hm => ih m hm hb
  | fix he _ ih =>
    have ht := History.time_lt_of_before? he
    exact .fix ((hl.before hb).trans he) fun hv => ih hv (by omega)
  | var hbody he _ ih =>
    have ht := History.time_lt_of_before? he
    exact .var hbody ((hl.before hb).trans he) fun hv => ih hv (by omega)
  | shared hlabel _ ih => exact .shared (hl.label hlabel) (ih hb)

theorem Traced.of_shared {bound id : Nat} (h : Traced s T l bound (.shared id f) n v) :
    Traced s T l bound f n v := by
  cases h with
  | shared _ hf => exact hf

/-- All entries are of the past. -/
def Timed (l : Labelling) : Prop := ∀ id, (l.history id).Older (l.time + 1)

/-- The last entry of a fixed point in a state, and how it was computed. -/
structure Recorded (s : Space) (T : Tables) (l : Labelling) (id : Nat) (n : NodeId)
    (v : Valuation) : Prop where
  entry : ∃ e, ((l.history id).entries n).getLast? = some e ∧ e.label.valuation = v ∧
    ∀ {f}, T.bodies id = some f → v = .unknown → Traced s T l e.time f n .unknown

theorem Recorded.later {id : Nat} (h : Recorded s T l id n v) (ht : Timed l) (hl : Later l l')
    (hsame : SameEntries l l' id n) : Recorded s T l' id n v := by
  obtain ⟨e, he, hv, htraced⟩ := h.entry
  refine ⟨e, by rw [hsame, he], hv, fun hbody hu => (htraced hbody hu).past hl ?_⟩
  have := ht id n e (List.mem_of_getLast? he)
  omega

theorem before?_now {id : Nat} (ht : Timed l) :
    (l.history id).before? (l.time + 1) n = ((l.history id).entries n).getLast? :=
  History.before?_of_older (ht id n)

theorem Recorded.traced_fix {id : Nat} {kind : Extremum} {name : String} (ht : Timed l)
    (hbody : T.bodies id = some f) (h : Recorded s T l id n v) :
    Traced s T l (l.time + 1) (.fix id kind name f) n v := by
  obtain ⟨e, he, rfl, htraced⟩ := h.entry
  exact .fix ((before?_now ht).trans he) fun hu => htraced hbody hu

theorem Recorded.traced_var {id : Nat} {name : String} (ht : Timed l)
    (hbody : T.bodies id = some f) (h : Recorded s T l id n v) :
    Traced s T l (l.time + 1) (.var id name) n v := by
  obtain ⟨e, he, rfl, htraced⟩ := h.entry
  exact .var hbody ((before?_now ht).trans he) fun hu => htraced hbody hu

theorem Traced.recorded_fix {id : Nat} {kind : Extremum} {name : String} (ht : Timed l)
    (hbody : T.bodies id = some f) (h : Traced s T l (l.time + 1) (.fix id kind name f) n v) :
    Recorded s T l id n v := by
  cases h with
  | @fix _ _ _ _ _ _ e he htraced =>
    refine ⟨e, (before?_now ht).symm.trans he, rfl, fun hb hu => ?_⟩
    obtain rfl := Option.some.inj (hbody.symm.trans hb)
    exact htraced hu

theorem Traced.recorded_var {id : Nat} {name : String} (ht : Timed l)
    (h : Traced s T l (l.time + 1) (.var id name) n v) :
    (∃ f, T.bodies id = some f) ∧ Recorded s T l id n v := by
  cases h with
  | @var _ _ _ f _ e hbody he htraced =>
    refine ⟨⟨f, hbody⟩, e, (before?_now ht).symm.trans he, rfl, fun hb hu => ?_⟩
    obtain rfl := Option.some.inj (hbody.symm.trans hb)
    exact htraced hu

/-- A value that is traced now is traced later, if the histories that it is read from are not
    touched. Those of shared parts are settled. -/
theorem Traced.later (hT : T.Lawful) (ht : Timed l) (ht' : Timed l') (hl : Later l l')
    (hsettled : ∀ {id n}, Settled T l id n → SameEntries l l' id n) (ha : f.Agree T)
    (hlive : ∀ id ∈ f.live, ∀ n, SameEntries l l' id n)
    (h : Traced s T l (l.time + 1) f n v) : Traced s T l' (l'.time + 1) f n v := by
  induction f generalizing n v with
  | const _ =>
    cases h
    exact .const
  | atom _ =>
    cases h with
    | atom hstate hv => exact .atom hstate hv
  | and f g ihf ihg =>
    cases h with
    | and hf hg =>
      exact .and (ihf ha.1 (fun id hid => hlive id (.inl hid)) hf)
        (ihg ha.2 (fun id hid => hlive id (.inr hid)) hg)
  | or f g ihf ihg =>
    cases h with
    | or hf hg =>
      exact .or (ihf ha.1 (fun id hid => hlive id (.inl hid)) hf)
        (ihg ha.2 (fun id hid => hlive id (.inr hid)) hg)
  | next _ f ih =>
    cases h with
    | next values hvalues => exact .next values fun m hm => ih ha hlive (hvalues m hm)
  | fix id _ _ f _ =>
    exact ((h.recorded_fix ht ha.1).later ht hl (hlive id (Set.mem_insert id _) n)).traced_fix ht' ha.1
  | var id _ =>
    obtain ⟨⟨f, hbody⟩, hr⟩ := h.recorded_var ht
    exact (hr.later ht hl (hlive id rfl n)).traced_var ht' hbody
  | shared id f ih =>
    cases h with
    | shared hlabel hf =>
      refine .shared (hl.label hlabel) ?_
      -- a shared fixed point is settled by its label; any other shared part reads no history
      by_cases hfix : ∃ i kind name g, f = .fix i kind name g
      · obtain ⟨i, kind, name, g, rfl⟩ := hfix
        have hsame := hsettled ⟨id, kind, name, g, _, ha.1, hlabel⟩
        exact ((hf.recorded_fix ht ha.2.1).later ht hl hsame).traced_fix ht' ha.2.1
      · have hnone := (hT.flat ha.1).live_eq fun i kind name g e => hfix ⟨i, kind, name, g, e⟩
        exact ih ha.2 (fun j hj => by rw [hnone] at hj; exact hj.elim) hf

end Labelling

end RefineCheck
