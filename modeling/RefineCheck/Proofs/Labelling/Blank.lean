/-
  RefineCheck.Proofs.Labelling.Blank

  Labellings that know nothing yet. A cleared labelling differs from a new one only in the states
  that are declared to it before its first check, and a check forgets those first. So checks on
  the two conclude the same and leave the same labels.
-/

import Mathlib
import RefineCheck.Proofs.Checker.Fresh
import RefineCheck.Proofs.Labelling.Check

namespace RefineCheck

open Std (TreeMap)

namespace Labelling

variable {α β : Type} {s : Space} {l l' : Labelling}

/-! ## What labelling is for

Nothing but the labels, the histories and the clock changes while states are labelled. -/

/-- A computation that leaves the property and the formula. -/
def Keeps (m : LabelM α) : Prop := ∀ l, (exec m l).2.clear = l.clear

theorem keeps_pure (a : α) : Keeps (pure a) := fun _ => rfl

theorem Keeps.bind {m : LabelM α} {k : α → LabelM β} (hm : Keeps m) (hk : ∀ a, Keeps (k a)) :
    Keeps (m >>= k) := by
  intro l
  have hl := hm l
  rcases hrun : exec m l with ⟨r, l'⟩
  rw [hrun] at hl
  cases r with
  | ok a =>
    rw [exec_bind_ok hrun]
    exact (hk a l').trans hl
  | error cause =>
    rw [exec_bind_error hrun]
    exact hl

theorem keeps_throw (cause : CheckError) : Keeps (throw cause : LabelM α) := fun _ => rfl

theorem keeps_get : Keeps (get : LabelM Labelling) := fun _ => rfl

theorem keeps_modify {g : Labelling → Labelling} (h : ∀ l, (g l).clear = l.clear) :
    Keeps (modify g : LabelM PUnit) := h

theorem keeps_raise (r : Except Fault α) : Keeps (raise r) := by
  cases r with
  | ok a => exact keeps_pure a
  | error cause => exact keeps_throw _

theorem keeps_tick : Keeps tick := fun _ => rfl

theorem keeps_record (id time : Nat) (labels : List (StateId × Label)) :
    Keeps (record id time labels) := keeps_modify fun _ => rfl

theorem keeps_remember (id : Nat) (labels : Labels) : Keeps (remember id labels) :=
  keeps_modify fun _ => rfl

theorem keeps_foldlM {f : β → α → LabelM β} (h : ∀ b x, Keeps (f b x)) (xs : List α) (b : β) :
    Keeps (xs.foldlM f b) := by
  induction xs generalizing b with
  | nil => exact keeps_pure b
  | cons x xs ih =>
    rw [List.foldlM_cons]
    exact (h b x).bind ih

theorem keeps_forM {f : α → LabelM PUnit} (h : ∀ x, Keeps (f x)) (xs : List α) :
    Keeps (xs.forM f) := by
  induction xs with
  | nil => exact keeps_pure _
  | cons x xs ih => exact (h x).bind fun _ => ih

theorem keeps_iterate {id : Nat} {targets : List StateId} {body : Labels → LabelM Labels}
    (hbody : ∀ labels, Keeps (body labels)) (fuel : Nat) (approximation : Labels) :
    Keeps (iterate id targets body fuel approximation) := by
  induction fuel generalizing approximation with
  | zero => exact keeps_throw _
  | succ fuel ih =>
    refine (hbody _).bind fun values => keeps_tick.bind fun time =>
      (keeps_record _ _ _).bind fun _ => ?_
    split
    · exact keeps_pure _
    · exact ih _

theorem keeps_label (s : Space) (region : List StateId) (f : Formula) (env : TreeMap Nat Labels)
    (targets : List StateId) (known : Labels) : Keeps (label s region f env targets known) := by
  induction f generalizing env targets known with
  | const value => exact keeps_pure _
  | atom a =>
    refine keeps_foldlM (fun labels n => (keeps_raise _).bind fun state => ?_) _ _
    cases a.evaluate state with
    | ok value => exact keeps_pure _
    | error cause => exact keeps_throw _
  | and f g ihf ihg | or f g ihf ihg =>
    exact (ihf env _ {}).bind fun _ => (ihg env _ {}).bind fun _ => keeps_pure _
  | next paths f ih => exact (ih env _ {}).bind fun _ => keeps_pure _
  | fix id kind name f ih =>
    exact keeps_tick.bind fun _ => (keeps_record _ _ _).bind fun _ =>
      (keeps_iterate (fun labels => ih (env.insert id labels) _ {}) _ _).bind fun _ => keeps_pure _
  | var id name => exact keeps_pure _
  | shared id f ih =>
    refine keeps_get.bind fun l => ?_
    dsimp only
    split
    · exact keeps_pure _
    · exact (ih env _ _).bind fun _ => (keeps_remember _ _).bind fun _ => keeps_pure _

theorem keeps_validate (s : Space) (f : Formula) (n : StateId) : Keeps (validate s f n) := by
  refine keeps_forM (fun a => (keeps_raise _).bind fun state => ?_) f.atoms
  cases a.evaluate state with
  | ok value => exact keeps_pure _
  | error cause => exact keeps_throw _

theorem keeps_check (s : Space) : Keeps (check s) := by
  intro l
  cases h : s.isLeftTotal with
  | false => rw [exec_check_of_not_total h]
  | true =>
    rw [exec_check_of_total h]
    have hkeeps := (keeps_forM (keeps_validate s l.formula) (s.initialStates.take 1)).bind
      fun _ => (keeps_label s (regionOf s) l.formula {} (regionOf s) {}).bind fun labels =>
        keeps_get.bind fun l => keeps_raise (l.conclude s labels)
    exact hkeeps (settle s l)

/-! ## Blank labellings -/

/-- A labelling that knows nothing yet. States may have been declared to it. -/
structure Blank (l : Labelling) : Prop where
  labels_eq : l.labels = {}
  histories_eq : l.histories = {}
  time_eq : l.time = 0

theorem blank_clear (l : Labelling) : l.clear.Blank := ⟨rfl, rfl, rfl⟩

theorem Blank.declare (h : l.Blank) (states : List StateId) : (l.declare states).Blank :=
  ⟨h.labels_eq, h.histories_eq, h.time_eq⟩

theorem Blank.removeStates (h : l.Blank) (states : List StateId) : (l.removeStates states).Blank := by
  refine ⟨?_, ?_, h.time_eq⟩
  · show l.labels.map _ = {}
    rw [h.labels_eq]
    rfl
  · show l.histories.map _ = {}
    rw [h.histories_eq]
    rfl

/-- A check forgets what was declared to a blank labelling. -/
theorem Blank.settle (h : l.Blank) (s : Space) : l.settle s = l.clear := by
  obtain ⟨property, formula, labels, histories, changed, time⟩ := l
  obtain ⟨rfl, rfl, rfl⟩ := h
  rfl

/-- Labellings of one property that are the same, up to declared states if they are blank. -/
def Alike (l l' : Labelling) : Prop := l = l' ∨ l.Blank ∧ l'.Blank ∧ l.clear = l'.clear

theorem Alike.clear_eq (h : l.Alike l') : l.clear = l'.clear := by
  rcases h with rfl | ⟨-, -, h⟩
  · rfl
  · exact h

theorem Alike.declare (h : l.Alike l') (states : List StateId) :
    (l.declare states).Alike (l'.declare states) := by
  rcases h with rfl | ⟨hl, hl', h⟩
  · exact .inl rfl
  · exact .inr ⟨hl.declare states, hl'.declare states, h⟩

theorem Alike.removeStates (h : l.Alike l') (states : List StateId) :
    (l.removeStates states).Alike (l'.removeStates states) := by
  rcases h with rfl | ⟨hl, hl', h⟩
  · exact .inl rfl
  · exact .inr ⟨hl.removeStates states, hl'.removeStates states, h⟩

theorem Alike.clear (h : l.Alike l') : l.clear.Alike l'.clear := .inl h.clear_eq

/-- Labellings that are alike lead to the same conclusion and stay alike. -/
theorem Alike.check (h : l.Alike l') (s : Space) :
    (exec (check s) l).1 = (exec (check s) l').1 ∧
      (exec (check s) l).2.Alike (exec (check s) l').2 := by
  rcases h with rfl | ⟨hl, hl', h⟩
  · exact ⟨rfl, .inl rfl⟩
  · cases htotal : s.isLeftTotal with
    | false =>
      rw [exec_check_of_not_total htotal, exec_check_of_not_total htotal]
      exact ⟨rfl, .inr ⟨hl, hl', h⟩⟩
    | true =>
      have hformula : l.formula = l'.formula := by
        show l.clear.formula = l'.clear.formula
        rw [h]
      -- settling forgets the declared states, the only difference that blank labellings have
      rw [exec_check_of_total htotal, exec_check_of_total htotal, hl.settle, hl'.settle, h,
        hformula]
      exact ⟨rfl, .inl rfl⟩

end Labelling

/-! ## Checkers -/

namespace Checker

variable {S : Set Property} {c c' : Checker}

/-- A checker that knows of some properties, and one that knows no others: their labellings are
    alike, and those that only the first one has are blank. -/
structure Alike (S : Set Property) (c c' : Checker) : Prop where
  origin {key : String} {l : Labelling} : c.labellings[key]? = some l →
    ∃ p ∈ S, p.key = key ∧ Labelling.ofProperty p = .ok l.clear
  common {key : String} {l' : Labelling} : c'.labellings[key]? = some l' →
    ∃ l, c.labellings[key]? = some l ∧ l.Alike l'
  blank {key : String} {l : Labelling} : c.labellings[key]? = some l →
    c'.labellings[key]? = none → l.Blank

theorem getElem?_map {f : Labelling → Labelling} {key : String} :
    (c.map f).labellings[key]? = (c.labellings[key]?).map f := TreeMap.getElem?_map

/-- Checkers stay alike if all labellings change in a way that forgets nothing else. -/
theorem Alike.map {f : Labelling → Labelling} (h : c.Alike S c') (hclear : ∀ l, (f l).clear = l.clear)
    (hblank : ∀ {l : Labelling}, l.Blank → (f l).Blank)
    (halike : ∀ {l l' : Labelling}, l.Alike l' → (f l).Alike (f l')) :
    (c.map f).Alike S (c'.map f) := by
  refine ⟨fun {key l} hl => ?_, fun {key l'} hl' => ?_, fun {key l} hl hnone => ?_⟩
  · rw [getElem?_map, Option.map_eq_some_iff] at hl
    obtain ⟨l, hl, rfl⟩ := hl
    rw [hclear]
    exact h.origin hl
  · rw [getElem?_map, Option.map_eq_some_iff] at hl'
    obtain ⟨l', hl', rfl⟩ := hl'
    obtain ⟨l, hl, hl'⟩ := h.common hl'
    exact ⟨f l, by rw [getElem?_map, hl, Option.map_some], halike hl'⟩
  · rw [getElem?_map, Option.map_eq_some_iff] at hl
    obtain ⟨l, hl, rfl⟩ := hl
    rw [getElem?_map, Option.map_eq_none_iff] at hnone
    exact hblank (h.blank hl hnone)

theorem Alike.declareRegeneration (h : c.Alike S c') (new : List StateId) (changed : List NodeId) :
    (c.declareRegeneration new changed).Alike S (c'.declareRegeneration new changed) :=
  h.map (fun _ => rfl) (fun hl => hl.declare _) fun hl => hl.declare _

theorem Alike.removeStates (h : c.Alike S c') (states : List StateId) :
    (c.removeStates states).Alike S (c'.removeStates states) :=
  h.map (fun _ => rfl) (fun hl => hl.removeStates _) fun hl => hl.removeStates _

theorem Alike.purge (h : c.Alike S c') : c.purge.Alike S c'.purge :=
  h.map (fun _ => rfl) (fun _ => Labelling.blank_clear _) fun hl => hl.clear

/-- A purged checker is like one that was never asked. -/
theorem Alike.purge_empty (h : c.purge.Alike S c') : c.purge.Alike S .empty := by
  refine ⟨h.origin, fun {key l'} hl' => ?_, fun {key l} hl _ => ?_⟩
  · simp [empty] at hl'
  · rw [Checker.purge, getElem?_map, Option.map_eq_some_iff] at hl
    obtain ⟨l, -, rfl⟩ := hl
    exact Labelling.blank_clear l

theorem Alike.insert {key : String} {l l' : Labelling} (h : c.Alike S c') (hl : l.Alike l')
    {p : Property} (hp : p ∈ S) (hkey : p.key = key) (hnew : Labelling.ofProperty p = .ok l.clear) :
    Alike S ⟨c.labellings.insert key l⟩ ⟨c'.labellings.insert key l'⟩ := by
  refine ⟨fun {k m} hm => ?_, fun {k m'} hm' => ?_, fun {k m} hm hnone => ?_⟩
  · rw [TreeMap.getElem?_insert] at hm
    split at hm
    · rename_i hk
      obtain rfl := Option.some.inj hm
      exact ⟨p, hp, hkey.trans (compare_eq_iff_eq.1 hk), hnew⟩
    · exact h.origin hm
  · rw [TreeMap.getElem?_insert] at hm'
    simp only [TreeMap.getElem?_insert]
    split at hm'
    · rename_i hk
      obtain rfl := Option.some.inj hm'
      exact ⟨l, if_pos hk, hl⟩
    · rename_i hk
      obtain ⟨m, hm, halike⟩ := h.common hm'
      exact ⟨m, (if_neg hk).trans hm, halike⟩
  · rw [TreeMap.getElem?_insert] at hm hnone
    split at hnone
    · cases hnone
    · rename_i hk
      rw [if_neg hk] at hm
      exact h.blank hm hnone

/-- A check on checkers that are alike concludes the same and leaves them alike, if no other property
    has the key of the checked one. -/
theorem Alike.check (h : c.Alike S c') (hkeys : Set.InjOn Property.key S) {p : Property} (hp : p ∈ S)
    {s s' : Space} (hs : s = s') :
    (c.check s p).1 = (c'.check s' p).1 ∧ (c.check s p).2.Alike S (c'.check s' p).2 := by
  subst hs
  have hnext {l l' : Labelling} (hl : l.Alike l') (hnew : Labelling.ofProperty p = .ok l.clear) :
      (Labelling.exec (Labelling.check s) l).1 = (Labelling.exec (Labelling.check s) l').1 ∧
        Alike S ⟨c.labellings.insert p.key (Labelling.exec (Labelling.check s) l).2⟩
          ⟨c'.labellings.insert p.key (Labelling.exec (Labelling.check s) l').2⟩ := by
    obtain ⟨hresult, hafter⟩ := hl.check s
    refine ⟨hresult, h.insert hafter hp rfl ?_⟩
    rw [Labelling.keeps_check s l]
    exact hnew
  cases hl' : c'.labellings[p.key]? with
  | some l' =>
    -- the labelling that is found was made for a property with this key, which is no other one
    obtain ⟨l, hl, halike⟩ := h.common hl'
    obtain ⟨q, hq, hkey, hnew⟩ := h.origin hl
    obtain rfl := hkeys hq hp hkey
    rw [check_of_known hl, check_of_known hl']
    exact hnext halike hnew
  | none =>
    cases hl : c.labellings[p.key]? with
    | some l =>
      -- one checker uses a blank labelling again where the other makes a new one
      obtain ⟨q, hq, hkey, hnew⟩ := h.origin hl
      obtain rfl := hkeys hq hp hkey
      rw [check_of_known hl, check_of_new hl' hnew]
      exact hnext (.inr ⟨h.blank hl hl', Labelling.blank_clear l, rfl⟩) hnew
    | none =>
      cases hnew : Labelling.ofProperty p with
      | error cause =>
        simp only [Checker.check, hl, hl', hnew]
        exact ⟨trivial, h⟩
      | ok l =>
        have hclear : l.clear = l := by
          obtain ⟨f, -, hl⟩ := bind_eq_ok.1 hnew
          obtain rfl := Except.ok.inj hl
          rfl
        rw [check_of_new hl hnew, check_of_new hl' hnew]
        exact hnext (.inl rfl) (hclear.symm ▸ hnew)

end Checker

end RefineCheck
