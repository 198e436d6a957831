/-
  RefineCheck.Proofs.Labelling.Numbering

  Numbering a closed property in canonical form succeeds, and the numbered formula is the
  property again: parts that share a number have the same text and hence are equal.
-/

import Mathlib
import RefineCheck.Proofs.Labelling.Formula
import RefineCheck.Proofs.Property.Parsed

namespace RefineCheck.Formula

open Property (WellNamed)

/-! ## Closed parts of open formulas -/

theorem lookup_append_left {inner outer : List (String × Nat)} {name : String}
    (h : name ∈ inner.map Prod.fst) : (inner ++ outer).lookup name = inner.lookup name := by
  rw [List.lookup_append]
  obtain ⟨id, hid⟩ := Property.lookup_isSome h
  rw [hid]
  rfl

/-- A part depends on the bindings of its free variables only. -/
theorem Scoped.restrict {f : Formula} {inner outer : List (String × Nat)}
    (h : f.Scoped (inner ++ outer)) (hp : f.toProperty.closedUnder (inner.map Prod.fst) = true) :
    f.Scoped inner := by
  induction f generalizing inner with
  | const _ | atom _ => trivial
  | and f g ihf ihg | or f g ihf ihg =>
    rw [toProperty, Property.closedUnder, Bool.and_eq_true] at hp
    exact ⟨ihf h.1 hp.1, ihg h.2 hp.2⟩
  | next _ f ih => exact ih h hp
  | fix id _ name f ih =>
    refine ⟨fun hid => h.1 ?_, @ih ((name, id) :: inner) h.2 hp⟩
    rw [List.map_append]
    exact List.mem_append_left _ hid
  | var id name =>
    have hname : name ∈ inner.map Prod.fst := List.contains_iff_mem.1 hp
    exact (lookup_append_left hname).symm.trans h
  | shared _ f _ => exact h

/-! ## The state of the numbering -/

/-- A closed formula as it is kept under its text. -/
structure Kept (T : Tables) (key : String) (g : Formula) : Prop where
  key_eq : g.toProperty.key = key
  wellNamed : g.toProperty.WellNamed
  inScope : g.Scoped []
  regular : g.Regular
  agree : g.Agree T
  isShared : ∃ id f, g = .shared id f

theorem Kept.scoped_any {T : Tables} {key : String} {g : Formula} (h : Kept T key g)
    (bindings : List (String × Nat)) : g.Scoped bindings := by
  obtain ⟨id, f, rfl⟩ := h.isShared
  exact h.inScope

theorem Kept.openFixes_eq {T : Tables} {key : String} {g : Formula} (h : Kept T key g) :
    g.openFixes = ∅ := by
  obtain ⟨id, f, rfl⟩ := h.isShared
  rfl

theorem Kept.fixes_subset {T : Tables} {key : String} {g : Formula} (h : Kept T key g) :
    g.fixes ⊆ T.used := by
  obtain ⟨id, f, rfl⟩ := h.isShared
  exact fun i hi => ⟨id, f, h.agree.1, hi⟩

theorem Kept.extend {T T' : Tables} (h : T.Extends T') {key : String} {g : Formula}
    (hg : Kept T key g) : Kept T' key g :=
  { hg with agree := hg.agree.extend h }

/-- Whether a number has an entry in the tables. -/
def Tables.Has (T : Tables) (id : Nat) : Prop :=
  (∃ f, T.bodies id = some f) ∨ ∃ f, T.shares id = some f

/-- Closed formulas are kept well, and all numbers in use are below the next one. -/
structure Numbering.Valid (T : Tables) (st : Numbering) : Prop where
  lawful : T.Lawful
  kept {key : String} {g : Formula} : st.closed[key]? = some g → Kept T key g
  used_lt {i : Nat} : i ∈ T.used → i < st.next
  has_lt {i : Nat} : T.Has i → i < st.next

/-- What numbering a part adds. Its open fixed points have fresh numbers that no kept formula
    uses, so they are not iterated while a kept formula is labelled. -/
structure Numbered (bindings : List (String × Nat)) (p : Property) (T : Tables) (st : Numbering)
    (f : Formula) (T' : Tables) (st' : Numbering) : Prop where
  valid : st'.Valid T'
  extends_tables : T.Extends T'
  has_fresh {i : Nat} : T'.Has i → T.Has i ∨ st.next ≤ i
  body_known {i : Nat} {g : Formula} : T'.bodies i = some g → T.bodies i = some g ∨ i ∈ f.fixes
  next_le : st.next ≤ st'.next
  used_subset : T'.used ⊆ T.used ∪ Set.Ico st.next st'.next
  toProperty_eq : f.toProperty = p
  inScope : f.Scoped bindings
  regular : f.Regular
  agree : f.Agree T'
  fixes_subset : f.fixes ⊆ T.used ∪ Set.Ico st.next st'.next
  openFixes_subset : f.openFixes ⊆ Set.Ico st.next st'.next
  openFixes_unused : Disjoint f.openFixes T'.used

/-- The numbers of the enclosing fixed points are taken, but not by shared parts. -/
def Numbering.Outer (bindings : List (String × Nat)) (T : Tables) (st : Numbering) : Prop :=
  ∀ i ∈ bindings.map Prod.snd, i < st.next ∧ i ∉ T.used

/-- A computation that numbers a property. If the property is closed, its formula has a given
    shape. -/
def Numbers (shape : Formula → Prop) (bindings : List (String × Nat)) (p : Property)
    (m : StateT Numbering (Except Fault) Formula) : Prop :=
  ∀ T st, st.Valid T → st.Outer bindings T →
    ∃ f T' st', m st = .ok (f, st') ∧ Numbered bindings p T st f T' st' ∧
      (p.isClosed = true → shape f)

theorem Numbered.outer {bindings bindings' : List (String × Nat)} {p : Property}
    {T T' : Tables} {st st' : Numbering} {f : Formula} (h : Numbered bindings' p T st f T' st')
    (hout : st.Outer bindings T) : st'.Outer bindings T' := by
  intro i hi
  obtain ⟨hlt, hunused⟩ := hout i hi
  refine ⟨lt_of_lt_of_le hlt h.next_le, fun hused => ?_⟩
  rcases h.used_subset hused with hu | hu
  · exact hunused hu
  · exact absurd hu.1 (by omega)

/-- A part that needs no number of its own. -/
theorem Numbered.leaf {bindings : List (String × Nat)} {T : Tables} {st : Numbering} {f : Formula}
    (hv : st.Valid T) (hs : f.Scoped bindings) (hr : f.Regular) (ha : f.Agree T)
    (hf : f.fixes = ∅) : Numbered bindings f.toProperty T st f T st where
  valid := hv
  extends_tables := .refl T
  has_fresh := .inl
  body_known := .inl
  next_le := le_rfl
  used_subset := Set.subset_union_left
  toProperty_eq := rfl
  inScope := hs
  regular := hr
  agree := ha
  fixes_subset := hf ▸ Set.empty_subset _
  openFixes_subset := fun _ hi => absurd (f.openFixes_subset hi) (hf ▸ id)
  openFixes_unused :=
    Set.disjoint_left.2 fun _ hi => absurd (f.openFixes_subset hi) (hf ▸ id)

/-! ## Sharing -/

theorem share_run (p : Property) (fresh : StateT Numbering (Except Fault) Formula)
    (st : Numbering) :
    share p fresh st =
      if p.isClosed then
        match st.closed[p.key]? with
        | some f => .ok (f, st)
        | none => fresh st >>= fun (f, st') =>
          .ok (.shared st'.next f,
            { next := st'.next + 1, closed := st'.closed.insert p.key (.shared st'.next f) })
      else fresh st := by
  rw [share]
  cases p.isClosed with
  | false => rfl
  | true =>
    cases h : st.closed[p.key]? with
    | some f =>
      simp [h, StateT.bind, bind, Except.bind, get, getThe, MonadStateOf.get, StateT.get, pure,
        Except.pure, StateT.pure]
    | none =>
      simp [h, StateT.bind, bind, Except.bind, get, getThe, MonadStateOf.get, StateT.get, pure,
        Except.pure, StateT.pure, modify, modifyGet, MonadStateOf.modifyGet, StateT.modifyGet]

/-- The tables with one more shared part. -/
def Tables.addShare (T : Tables) (id : Nat) (f : Formula) : Tables :=
  { T with shares := Function.update T.shares id (some f) }

/-- The tables with one more body. -/
def Tables.addBody (T : Tables) (id : Nat) (f : Formula) : Tables :=
  { T with bodies := Function.update T.bodies id (some f) }

theorem Tables.extends_addShare {T : Tables} {id : Nat} (h : ¬ T.Has id) (f : Formula) :
    T.Extends (T.addShare id f) where
  bodies e := e
  shares {j g} e := by
    have hj : j ≠ id := fun hj => h (.inr ⟨g, hj ▸ e⟩)
    exact (Function.update_of_ne hj _ _).trans e

theorem Tables.extends_addBody {T : Tables} {id : Nat} (h : ¬ T.Has id) (f : Formula) :
    T.Extends (T.addBody id f) where
  bodies {j g} e := by
    have hj : j ≠ id := fun hj => h (.inl ⟨g, hj ▸ e⟩)
    exact (Function.update_of_ne hj _ _).trans e
  shares e := e

theorem Tables.has_addShare {T : Tables} {id j : Nat} {f : Formula} (h : (T.addShare id f).Has j) :
    T.Has j ∨ j = id := by
  by_cases hj : j = id
  · exact .inr hj
  · left
    rcases h with ⟨g, hg⟩ | ⟨g, hg⟩
    · exact .inl ⟨g, hg⟩
    · exact .inr ⟨g, (Function.update_of_ne hj _ _).symm.trans hg⟩

theorem Tables.has_addBody {T : Tables} {id j : Nat} {f : Formula} (h : (T.addBody id f).Has j) :
    T.Has j ∨ j = id := by
  by_cases hj : j = id
  · exact .inr hj
  · left
    rcases h with ⟨g, hg⟩ | ⟨g, hg⟩
    · exact .inl ⟨g, (Function.update_of_ne hj _ _).symm.trans hg⟩
    · exact .inr ⟨g, hg⟩

/-- A kept formula is used again as it is. -/
theorem Numbered.again {bindings : List (String × Nat)} {T : Tables} {st : Numbering} {p : Property}
    {f : Formula} (hv : st.Valid T) (hp : p.WellNamed) (hf : st.closed[p.key]? = some f) :
    Numbered bindings p T st f T st := by
  have hk := hv.kept hf
  refine ⟨hv, .refl T, .inl, .inl, le_rfl, Set.subset_union_left,
    Property.key_injective hk.wellNamed hp hk.key_eq, hk.scoped_any bindings, hk.regular, hk.agree,
    fun i hi => .inl (hk.fixes_subset hi), ?_, ?_⟩
  · rw [hk.openFixes_eq]
    exact Set.empty_subset _
  · rw [hk.openFixes_eq]
    exact Set.empty_disjoint _

theorem Tables.used_addShare {T : Tables} {id : Nat} {f : Formula} :
    (T.addShare id f).used ⊆ T.used ∪ f.fixes := by
  rintro i ⟨j, g, hg, hi⟩
  by_cases hj : j = id
  · obtain rfl : f = g := by simpa [addShare, hj] using hg
    exact .inr hi
  · exact .inl ⟨j, g, (Function.update_of_ne hj _ _).symm.trans hg, hi⟩

/-- A closed and flat part may be added, if no other part iterates its open fixed points. -/
theorem Tables.Lawful.addShare {T : Tables} (hT : T.Lawful) {id : Nat} (hid : ¬ T.Has id)
    {f : Formula} (ha : f.Agree T) (hs : f.Scoped []) (hr : f.Regular) (hf : f.Flat)
    (hun : Disjoint f.openFixes T.used) : (T.addShare id f).Lawful := by
  have hext := T.extends_addShare hid f
  have hcases {j : Nat} {g : Formula} (h : (T.addShare id f).shares j = some g) :
      (j = id ∧ g = f) ∨ (j ≠ id ∧ T.shares j = some g) := by
    by_cases hj : j = id
    · obtain rfl : f = g := by simpa [Tables.addShare, hj] using h
      exact .inl ⟨hj, rfl⟩
    · exact .inr ⟨hj, (Function.update_of_ne hj _ _).symm.trans h⟩
  have hused {j : Nat} {g : Formula} (h : T.shares j = some g) : g.openFixes ⊆ T.used :=
    fun i hi => ⟨j, g, h, g.openFixes_subset hi⟩
  refine ⟨fun h => ?_, fun h => ?_, fun h => ?_, fun h => ?_, fun h h' hne => ?_⟩
  · rcases hcases h with ⟨-, rfl⟩ | ⟨-, h⟩
    · exact ha.extend hext
    · exact (hT.agree h).extend hext
  · rcases hcases h with ⟨-, rfl⟩ | ⟨-, h⟩
    · exact hs
    · exact hT.inScope h
  · rcases hcases h with ⟨-, rfl⟩ | ⟨-, h⟩
    · exact hr
    · exact hT.regular h
  · rcases hcases h with ⟨-, rfl⟩ | ⟨-, h⟩
    · exact hf
    · exact hT.flat h
  · rcases hcases h with ⟨rfl, rfl⟩ | ⟨-, h₁⟩ <;> rcases hcases h' with ⟨rfl, rfl⟩ | ⟨-, h₂⟩
    · exact absurd rfl hne
    · exact hun.mono_right (hused h₂)
    · exact (hun.mono_right (hused h₁)).symm
    · exact hT.separate h₁ h₂ hne

theorem Tables.Lawful.addBody {T : Tables} (hT : T.Lawful) {id : Nat} (hid : ¬ T.Has id)
    (f : Formula) : (T.addBody id f).Lawful where
  agree h := (hT.agree h).extend (T.extends_addBody hid f)
  inScope := hT.inScope
  regular := hT.regular
  flat := hT.flat
  separate := hT.separate

section Keep

variable {bindings : List (String × Nat)} {p : Property} {T T' : Tables} {st st' : Numbering}
  {f : Formula}

/-- The next number is in no table. -/
theorem Numbering.Valid.not_has (hv : st.Valid T) : ¬ T.Has st.next :=
  fun hhas => absurd (hv.has_lt hhas) (lt_irrefl _)

theorem Numbered.inScope_of_closed (h : Numbered bindings p T st f T' st')
    (hclosed : p.isClosed = true) : f.Scoped [] := by
  refine @Scoped.restrict f [] bindings h.inScope ?_
  rw [h.toProperty_eq]
  exact hclosed

theorem Numbered.fixes_subset_succ (h : Numbered bindings p T st f T' st') :
    f.fixes ⊆ T.used ∪ Set.Ico st.next (st'.next + 1) :=
  h.fixes_subset.trans
    (Set.union_subset_union_right _ (Set.Ico_subset_Ico_right (Nat.le_succ _)))

theorem Numbered.used_addShare (h : Numbered bindings p T st f T' st') :
    (T'.addShare st'.next f).used ⊆ T.used ∪ Set.Ico st.next (st'.next + 1) :=
  Tables.used_addShare.trans (Set.union_subset
    (h.used_subset.trans
      (Set.union_subset_union_right _ (Set.Ico_subset_Ico_right (Nat.le_succ _))))
    h.fixes_subset_succ)

theorem Numbered.agree_addShare (h : Numbered bindings p T st f T' st') :
    (Formula.shared st'.next f).Agree (T'.addShare st'.next f) :=
  ⟨Function.update_self _ _ _, h.agree.extend (T'.extends_addShare h.valid.not_has f)⟩

theorem Numbered.valid_keep (hv : st.Valid T) (h : Numbered bindings p T st f T' st')
    (hp : p.WellNamed) (hclosed : p.isClosed = true) (hflat : f.Flat) :
    Numbering.Valid (T'.addShare st'.next f)
      { next := st'.next + 1, closed := st'.closed.insert p.key (.shared st'.next f) } where
  lawful := h.valid.lawful.addShare h.valid.not_has h.agree (h.inScope_of_closed hclosed) h.regular
    hflat h.openFixes_unused
  kept {key g} hg := by
    rw [Std.TreeMap.getElem?_insert] at hg
    split at hg
    · rename_i hkey
      obtain rfl : p.key = key := by simpa using hkey
      obtain rfl := Option.some.inj hg
      exact ⟨congrArg Property.key h.toProperty_eq, h.toProperty_eq ▸ hp,
        h.inScope_of_closed hclosed, h.regular, h.agree_addShare, ⟨_, _, rfl⟩⟩
    · exact (h.valid.kept hg).extend (T'.extends_addShare h.valid.not_has f)
  used_lt {i} hi := by
    show i < st'.next + 1
    rcases h.used_addShare hi with hi | hi
    · exact lt_of_lt_of_le (hv.used_lt hi) (h.next_le.trans (by omega))
    · exact hi.2
  has_lt {i} hi := by
    rcases T'.has_addShare hi with hi | rfl
    · exact lt_trans (h.valid.has_lt hi) (by simp)
    · exact Nat.lt_succ_self _

/-- A closed formula is kept under the next number. -/
theorem Numbered.keep (hv : st.Valid T) (h : Numbered bindings p T st f T' st')
    (hp : p.WellNamed) (hclosed : p.isClosed = true) (hflat : f.Flat) :
    Numbered bindings p T st (.shared st'.next f) (T'.addShare st'.next f)
      { next := st'.next + 1, closed := st'.closed.insert p.key (.shared st'.next f) } where
  valid := h.valid_keep hv hp hclosed hflat
  extends_tables := h.extends_tables.trans (T'.extends_addShare h.valid.not_has f)
  has_fresh {i} hi := by
    rcases T'.has_addShare hi with hi | rfl
    · exact h.has_fresh hi
    · exact .inr h.next_le
  body_known := h.body_known
  next_le := h.next_le.trans (Nat.le_succ _)
  used_subset := h.used_addShare
  toProperty_eq := h.toProperty_eq
  inScope := h.inScope_of_closed hclosed
  regular := h.regular
  agree := h.agree_addShare
  fixes_subset := h.fixes_subset_succ
  -- a kept part has no open fixed points of its own
  openFixes_subset := Set.empty_subset _
  openFixes_unused := Set.empty_disjoint _

end Keep

theorem numbers_share {bindings : List (String × Nat)} {p : Property}
    {fresh : StateT Numbering (Except Fault) Formula} (hp : p.WellNamed)
    (h : Numbers Flat bindings p fresh) :
    Numbers (fun f => f.live = ∅) bindings p (share p fresh) := by
  intro T st hv hout
  rw [share_run]
  split
  · rename_i hclosed
    split
    · rename_i f hf
      obtain ⟨id, g, rfl⟩ := (hv.kept hf).isShared
      exact ⟨_, T, st, rfl, Numbered.again hv hp hf, fun _ => rfl⟩
    · obtain ⟨f, T', st', hrun, hf, hflat⟩ := h T st hv hout
      rw [hrun]
      exact ⟨_, _, _, rfl, hf.keep hv hp hclosed (hflat hclosed), fun _ => rfl⟩
  · rename_i hopen
    obtain ⟨f, T', st', hrun, hf, -⟩ := h T st hv hout
    exact ⟨f, T', st', hrun, hf, fun hclosed => absurd hclosed hopen⟩

/-! ## Numbering -/

section Pair

variable {bindings : List (String × Nat)} {p q : Property} {T T₁ T₂ : Tables}
  {st st₁ st₂ : Numbering} {f g : Formula}

theorem Numbered.ico_subset (hf : Numbered bindings p T st f T₁ st₁)
    (hg : Numbered bindings q T₁ st₁ g T₂ st₂) :
    Set.Ico st.next st₁.next ⊆ Set.Ico st.next st₂.next ∧
      Set.Ico st₁.next st₂.next ⊆ Set.Ico st.next st₂.next :=
  ⟨Set.Ico_subset_Ico_right hg.next_le, Set.Ico_subset_Ico_left hf.next_le⟩

/-- What is known or fresh for the second part is known or fresh for both. -/
theorem Numbered.subset_of_second (hf : Numbered bindings p T st f T₁ st₁)
    (hg : Numbered bindings q T₁ st₁ g T₂ st₂) {S : Set Nat}
    (h : S ⊆ T₁.used ∪ Set.Ico st₁.next st₂.next) : S ⊆ T.used ∪ Set.Ico st.next st₂.next := by
  obtain ⟨hleft, hright⟩ := hf.ico_subset hg
  have hused : T₁.used ⊆ T.used ∪ Set.Ico st.next st₂.next :=
    hf.used_subset.trans (Set.union_subset_union_right _ hleft)
  exact h.trans (Set.union_subset hused (hright.trans Set.subset_union_right))

/-- The second part iterates fixed points of kept formulas and fresh ones. Neither of them is open
    in the first part. -/
theorem Numbered.openFixes_disjoint (hf : Numbered bindings p T st f T₁ st₁) {S : Set Nat} {n : Nat}
    (h : S ⊆ T₁.used ∪ Set.Ico st₁.next n) : Disjoint f.openFixes S := by
  refine Set.disjoint_left.2 fun i hi hS => ?_
  rcases h hS with hS | hS
  · exact Set.disjoint_left.1 hf.openFixes_unused hi hS
  · exact absurd (hf.openFixes_subset hi).2 (not_lt_of_ge hS.1)

theorem Numbered.live_disjoint (hout : st.Outer bindings T)
    (hf : Numbered bindings p T st f T₁ st₁) (hg : Numbered bindings q T₁ st₁ g T₂ st₂) :
    Disjoint f.live g.fixes := by
  refine Set.disjoint_left.2 fun i hi hfix => ?_
  rcases hf.inScope.live_subset hi with hi | hi
  · exact Set.disjoint_left.1 (hf.openFixes_disjoint hg.fixes_subset) hi hfix
  · -- a variable of an enclosing fixed point
    have h₁ := hf.next_le
    obtain ⟨hlt, hunused⟩ := hf.outer hout i hi
    rcases hg.fixes_subset hfix with hfix | hfix
    · exact hunused hfix
    · exact absurd hfix.1 (by omega)

/-- A formula of two parts that are numbered one after the other. -/
theorem Numbered.pair (hf : Numbered bindings p T st f T₁ st₁)
    (hg : Numbered bindings q T₁ st₁ g T₂ st₂) {h : Formula} {r : Property}
    (hproperty : h.toProperty = r) (hscoped : h.Scoped bindings) (hregular : h.Regular)
    (hagree : f.Agree T₂ → h.Agree T₂) (hfixes : h.fixes = f.fixes ∪ g.fixes)
    (hopen : h.openFixes = f.openFixes ∪ g.openFixes) : Numbered bindings r T st h T₂ st₂ where
  valid := hg.valid
  extends_tables := hf.extends_tables.trans hg.extends_tables
  has_fresh hi := by
    rcases hg.has_fresh hi with hi | hi
    · exact hf.has_fresh hi
    · exact .inr (hf.next_le.trans hi)
  body_known hb := by
    rw [hfixes]
    rcases hg.body_known hb with hb | hb
    · exact (hf.body_known hb).imp_right .inl
    · exact .inr (.inr hb)
  next_le := hf.next_le.trans hg.next_le
  used_subset := hf.subset_of_second hg hg.used_subset
  toProperty_eq := hproperty
  inScope := hscoped
  regular := hregular
  agree := hagree (hf.agree.extend hg.extends_tables)
  fixes_subset := by
    rw [hfixes]
    exact Set.union_subset
      (hf.fixes_subset.trans (Set.union_subset_union_right _ (hf.ico_subset hg).1))
      (hf.subset_of_second hg hg.fixes_subset)
  openFixes_subset := by
    rw [hopen]
    exact Set.union_subset (hf.openFixes_subset.trans (hf.ico_subset hg).1)
      (hg.openFixes_subset.trans (hf.ico_subset hg).2)
  openFixes_unused := by
    rw [hopen]
    exact Set.disjoint_union_left.2 ⟨hf.openFixes_disjoint hg.used_subset, hg.openFixes_unused⟩

end Pair

/-- The next number may be taken. -/
theorem Numbering.Valid.succ {T : Tables} {st : Numbering} (hv : st.Valid T) :
    ({ st with next := st.next + 1 } : Numbering).Valid T where
  lawful := hv.lawful
  kept := hv.kept
  used_lt hi := lt_trans (hv.used_lt hi) (Nat.lt_succ_self _)
  has_lt hi := lt_trans (hv.has_lt hi) (Nat.lt_succ_self _)

/-- Inside of a fixed point that took the next number, it is one of the enclosing ones. -/
theorem Numbering.Outer.succ {bindings : List (String × Nat)} {T : Tables} {st : Numbering}
    (hout : st.Outer bindings T) (hv : st.Valid T) (name : String) :
    ({ st with next := st.next + 1 } : Numbering).Outer ((name, st.next) :: bindings) T := by
  intro i hi
  rcases List.mem_cons.1 hi with rfl | hi
  · exact ⟨Nat.lt_succ_self _, fun hu => absurd (hv.used_lt hu) (lt_irrefl _)⟩
  · exact ⟨lt_trans (hout i hi).1 (Nat.lt_succ_self _), (hout i hi).2⟩

/-- A fixed point takes the next number before its body is numbered. -/
theorem Numbered.fix {bindings : List (String × Nat)} {p : Property} {T T' : Tables}
    {st st' : Numbering} {f : Formula} {kind : Extremum} {name : String} (hv : st.Valid T)
    (hout : st.Outer bindings T)
    (h : Numbered ((name, st.next) :: bindings) p T { st with next := st.next + 1 } f T' st') :
    Numbered bindings (.fix kind name p) T st (.fix st.next kind name f) (T'.addBody st.next f)
      st' := by
  have hle : st.next + 1 ≤ st'.next := h.next_le
  have hunused : st.next ∉ T.used := fun hi => absurd (hv.used_lt hi) (lt_irrefl _)
  -- the number was taken before the body was numbered, so that the body has only larger ones
  have hself : st.next ∉ T.used ∪ Set.Ico (st.next + 1) st'.next := by
    rintro (hi | hi)
    · exact hunused hi
    · exact absurd hi.1 (by simp)
  have hnew : ¬ T'.Has st.next := by
    intro hhas
    rcases h.has_fresh hhas with hhas | hhas
    · exact hv.not_has hhas
    · exact absurd hhas (by simp)
  have hext : T'.Extends (T'.addBody st.next f) := T'.extends_addBody hnew f
  have hIco : Set.Ico (st.next + 1) st'.next ⊆ Set.Ico st.next st'.next :=
    Set.Ico_subset_Ico_left (by omega)
  have hmem : st.next ∈ Set.Ico st.next st'.next := ⟨le_rfl, by omega⟩
  exact {
    valid := {
      lawful := h.valid.lawful.addBody hnew f
      kept := fun hg => (h.valid.kept hg).extend hext
      used_lt := h.valid.used_lt
      has_lt := fun {i} hi => by
        rcases T'.has_addBody hi with hi | rfl
        · exact h.valid.has_lt hi
        · omega }
    extends_tables := h.extends_tables.trans hext
    has_fresh := fun {i} hi => by
      rcases T'.has_addBody hi with hi | rfl
      · exact (h.has_fresh hi).imp_right fun hi => (Nat.le_succ _).trans hi
      · exact .inr le_rfl
    body_known := fun {i g} hg => by
      by_cases hi : i = st.next
      · exact .inr (.inl hi)
      · exact (h.body_known ((Function.update_of_ne hi _ _).symm.trans hg)).imp_right .inr
    next_le := by omega
    used_subset := h.used_subset.trans (Set.union_subset_union_right _ hIco)
    toProperty_eq := congrArg (Property.fix kind name) h.toProperty_eq
    inScope := ⟨fun hi => absurd (hout _ hi).1 (lt_irrefl _), h.inScope⟩
    regular := ⟨h.regular, fun hi => hself (h.fixes_subset hi)⟩
    agree := ⟨Function.update_self _ _ _, h.agree.extend hext⟩
    fixes_subset := Set.insert_subset (.inr hmem)
      (h.fixes_subset.trans (Set.union_subset_union_right _ hIco))
    openFixes_subset := Set.insert_subset hmem (h.openFixes_subset.trans hIco)
    openFixes_unused := Set.disjoint_insert_left.2
      ⟨fun hi => hself (h.used_subset hi), h.openFixes_unused⟩ }

theorem bind_run {α β : Type} {m : StateT Numbering (Except Fault) α}
    {k : α → StateT Numbering (Except Fault) β} {st st' : Numbering} {a : α}
    (h : m st = .ok (a, st')) : (m >>= k) st = k a st' := by
  show (m st >>= fun (a, st') => k a st') = _
  rw [h]
  rfl

theorem Numbering.valid_empty : Numbering.Valid ⟨fun _ => none, fun _ => none⟩ {} where
  lawful := ⟨nofun, nofun, nofun, nofun, nofun⟩
  kept h := by simp at h
  used_lt := fun ⟨_, _, h, _⟩ => by cases h
  has_lt := fun h => by rcases h with ⟨g, hg⟩ | ⟨g, hg⟩ <;> cases hg

/-- Two parts are numbered one after the other, and the formula of both is made of theirs. -/
theorem numbers_pair {bindings : List (String × Nat)} {p q r : Property}
    {first second : StateT Numbering (Except Fault) Formula} {both : Formula → Formula → Formula}
    (hp : Numbers (fun f => f.live = ∅) bindings p first)
    (hq : Numbers (fun g => g.live = ∅) bindings q second)
    (hclosed : r.isClosed = true → p.isClosed = true ∧ q.isClosed = true)
    (hpair : ∀ {T T₁ T₂ : Tables} {st st₁ st₂ : Numbering} {f g : Formula},
      Numbered bindings p T st f T₁ st₁ → Numbered bindings q T₁ st₁ g T₂ st₂ →
      Disjoint f.live g.fixes → Numbered bindings r T st (both f g) T₂ st₂)
    (hflat : ∀ {f g : Formula}, f.live = ∅ → g.live = ∅ → (both f g).Flat) :
    Numbers Flat bindings r (do
      let f ← first
      return both f (← second)) := by
  intro T st hv hout
  obtain ⟨f, T₁, st₁, hrun₁, hf, hlf⟩ := hp T st hv hout
  obtain ⟨g, T₂, st₂, hrun₂, hg, hlg⟩ := hq T₁ st₁ hf.valid (hf.outer hout)
  refine ⟨both f g, T₂, st₂, ?_, hpair hf hg (hf.live_disjoint hout hg), fun hr => ?_⟩
  · rw [bind_run hrun₁, bind_run hrun₂]
    rfl
  · exact hflat (hlf (hclosed hr).1) (hlg (hclosed hr).2)

/-- Numbering a closed property in canonical form succeeds. -/
theorem numbers_number {p : Property} {bindings : List (String × Nat)} (hc : p.IsCanonical)
    (hn : p.WellNamed) (hp : p.closedUnder (bindings.map Prod.fst) = true) :
    Numbers (fun f => f.live = ∅) bindings p (number bindings p) := by
  induction p generalizing bindings with
  | const value =>
    exact numbers_share hn fun T st hv _ =>
      ⟨.const value, T, st, rfl, .leaf (f := .const value) hv trivial trivial trivial rfl, fun _ => rfl⟩
  | atom a =>
    exact numbers_share hn fun T st hv _ =>
      ⟨.atom a, T, st, rfl, .leaf (f := .atom a) hv trivial trivial trivial rfl, fun _ => rfl⟩
  | var name =>
    intro T st hv hout
    -- a variable has the number of the fixed point that binds it
    obtain ⟨id, hid⟩ := Property.lookup_isSome (List.contains_iff_mem.1 hp)
    refine ⟨.var id name, T, st, ?_, .leaf (f := .var id name) hv hid trivial trivial rfl,
      fun hclosed => by cases hclosed⟩
    rw [number, hid]
    rfl
  | and p q ihp ihq | or p q ihp ihq =>
    rw [Property.closedUnder, Bool.and_eq_true] at hp
    refine numbers_share hn (numbers_pair (ihp hc.1 hn.1 hp.1) (ihq hc.2 hn.2 hp.2)
      (fun hclosed => ?_) (fun hf hg hdisjoint => hf.pair hg ?_ ⟨hf.inScope, hg.inScope⟩
        ⟨hf.regular, hg.regular, hdisjoint⟩ (fun ha => ⟨ha, hg.agree⟩) rfl rfl) fun hf hg => ?_)
    · rwa [Property.isClosed, Property.closedUnder, Bool.and_eq_true] at hclosed
    · rw [toProperty, hf.toProperty_eq, hg.toProperty_eq]
    · rw [Flat, live, hf, hg, Set.union_empty]
      simp
  | next paths p ih =>
    refine numbers_share hn fun T st hv hout => ?_
    obtain ⟨f, T', st', hrun, hf, hlive⟩ := ih hc hn hp T st hv hout
    refine ⟨.next paths f, T', st', ?_,
      { hf with toProperty_eq := congrArg (Property.next paths) hf.toProperty_eq }, hlive⟩
    rw [bind_run hrun]
    rfl
  | fix kind name p ih =>
    refine numbers_share hn fun T st hv hout => ?_
    obtain ⟨f, T', st', hrun, hf, -⟩ :=
      @ih ((name, st.next) :: bindings) hc hn.2 hp T _ hv.succ (hout.succ hv name)
    refine ⟨.fix st.next kind name f, _, st', ?_, .fix hv hout hf, fun _ => trivial⟩
    rw [bind_run (m := get) rfl, bind_run (m := modify _) rfl, bind_run hrun]
    rfl
  | not _ _ | eventually _ _ _ | always _ _ _ | holdUntil _ _ _ _ _ | release _ _ _ _ _ => exact hc.elim

/-! ## Formulas of properties -/

theorem atomsIn_toProperty {P : Atomic → Prop} {f : Formula} :
    f.toProperty.AtomsIn P ↔ ∀ a ∈ f.atoms, P a := by
  induction f with
  | const _ | var _ _ => simp [toProperty, Property.Uses, atoms]
  | atom a => simp [toProperty, Property.Uses, atoms]
  | and f g ihf ihg | or f g ihf ihg =>
    rw [atoms, List.forall_mem_append, ← ihf, ← ihg]
    rfl
  | next _ f ih | shared _ f ih => exact ih
  | fix _ _ _ f ih => exact (and_iff_right trivial).trans ih

/-- What is known of the formula that a property is labelled with. -/
structure Prepared (p : Property) (f : Formula) : Prop where
  inScope : f.Scoped []
  regular : f.Regular
  live_eq : f.live = ∅
  tables : ∃ T : Tables, T.Lawful ∧ f.Agree T ∧
    ∀ {id : Nat} {g : Formula}, T.bodies id = some g → f.body? id = some g
  meaning_eq {σ A : Type} [TruthValue A] {K : Kripke σ A} {P : Atomic → Prop}
    (hK : Property.Complementary P K) (hp : p.AtomsIn P) (env : Nat → σ → A)
    (names : String → σ → A) : f.meaning K env = p.meaning K names
  atoms_iff {P : Atomic → Prop} (hP : ∀ a, P a.complement ↔ P a) :
    (∀ a ∈ f.atoms, P a) ↔ p.AtomsIn P
  normal : ∃ q, p.pnf = .ok q ∧ f.toProperty = q.canonical

theorem generatedName_ne {word : String} (h : word.toList.head? ≠ some '_') (depth : Nat) :
    Property.generatedName depth ≠ word := by
  rintro rfl
  rw [Property.toList_generatedName] at h
  exact h rfl

theorem isWord_generatedName (depth : Nat) : Property.IsWord (Property.generatedName depth) := by
  rw [Property.IsWord, Property.toList_generatedName]
  refine ⟨List.cons_ne_nil _ _, ?_⟩
  simp only [List.forall_mem_cons]
  refine ⟨by decide, by decide, by decide, fun c hc => ?_⟩
  rw [Nat.toString_eq_repr, Nat.toList_repr] at hc
  exact (Property.isWordChar_of_isDigit (Nat.isDigit_of_mem_toDigits (by decide) (by decide) hc)).1

/-- Every property that is read from a text has a formula. -/
theorem prepared_ofProperty {p : Property} (hp : p.Parsed) :
    ∃ f, Formula.ofProperty p = .ok f ∧ Prepared p f := by
  obtain ⟨q, hq⟩ := Property.positive_ok hp.polarity
  obtain ⟨hnames, hneg, hclosed⟩ := Property.positive_shape (fun _ h => h) hq hp.wellNamed
  obtain ⟨hunreserved, -, -⟩ := Property.positive_shape (fun _ h => h) hq hp.unreserved
  have hqc : q.isClosed = true := hclosed [] hp.closed
  have hnamed : q.canonical.WellNamed :=
    Property.uses_canonicalAt isWord_generatedName
      (fun depth => ⟨isWord_generatedName depth, generatedName_ne (by decide) depth,
        generatedName_ne (by decide) depth⟩) 0 hnames
  obtain ⟨f, T, st, hrun, hf, hlive⟩ := @numbers_number _ []
    (Property.isCanonical_canonicalAt 0 hneg) hnamed (Property.closedUnder_canonicalAt 0 hqc)
    _ _ Numbering.valid_empty (fun i hi => by cases hi)
  refine ⟨f, ?_, hf.inScope, hf.regular, hlive (Property.closedUnder_canonicalAt 0 hqc),
    ⟨T, hf.valid.lawful, hf.agree, fun {id g} hg => ?_⟩, fun hK hu env names => ?_,
    fun {P} hP => ?_, q, p.pnf_eq_positive.trans hq, hf.toProperty_eq⟩
  · rw [ofProperty, p.pnf_eq_positive, hq]
    show (number [] (Property.canonicalAt 0 q) {} >>= _) = _
    rw [hrun]
    rfl
  · rcases hf.body_known hg with h | h
    · cases h
    · rw [hf.agree.body? h, hg]
  · rw [← hf.inScope.meaning_eq (fun x _ h => show names x = _ by cases h), hf.toProperty_eq,
      Property.canonicalAt_meaning 0 (List.forall_mem_nil _) hqc hunreserved]
    exact Property.positive_meaning hK hq hu hp.closed fun _ _ h => by cases h
  · rw [← atomsIn_toProperty, hf.toProperty_eq]
    exact (Property.atomsIn_canonicalAt 0).trans (Property.atomsIn_positive hP hq)

end RefineCheck.Formula
