/-
  RefineCheck.Proofs.Labelling.Tame

  Labelling raises no fault about a space. A state that is not stored, a comparison without an
  outcome and rounds that do not suffice are reported as such, whatever is labelled.
-/

import RefineCheck.Proofs.Fault
import RefineCheck.Proofs.Labelling.Coherent

namespace RefineCheck.Labelling.LabelM

open Std (TreeMap)

variable {α β : Type}

/-- A computation that raises no fault about a space, whatever it starts with. -/
def Tame (m : LabelM α) : Prop :=
  ∀ l cause, (exec m l).1 = .error (.fault cause) → ¬ cause.Spatial

theorem tame_pure (a : α) : Tame (pure a) := nofun

theorem tame_get : Tame (get : LabelM Labelling) := nofun

theorem tame_modify (g : Labelling → Labelling) : Tame (modify g : LabelM PUnit) := nofun

theorem tame_tick : Tame tick := nofun

theorem tame_throw {cause : CheckError} (h : ∀ fault, cause = .fault fault → ¬ fault.Spatial) :
    Tame (throw cause : LabelM α) := fun _ fault hrun => h fault (Except.error.inj hrun)

theorem tame_raise {x : Except Fault α} (hx : RefineCheck.Tame x) : Tame (raise x) := by
  cases x with
  | ok a => exact tame_pure a
  | error cause =>
    exact tame_throw fun fault h => CheckError.fault.inj h ▸ tame_error.1 hx

theorem Tame.bind {m : LabelM α} {k : α → LabelM β} (hm : m.Tame) (hk : ∀ a, (k a).Tame) :
    Tame (m >>= k) := by
  intro l cause
  rcases hrun : exec m l with ⟨r, l'⟩
  cases r with
  | ok a =>
    rw [exec_bind_ok hrun]
    exact hk a l' cause
  | error e =>
    rw [exec_bind_error hrun]
    intro h
    obtain rfl := Except.error.inj h
    exact hm l cause (congrArg Prod.fst hrun)

theorem tame_foldlM {f : β → α → LabelM β} (h : ∀ b x, (f b x).Tame) (xs : List α) (b : β) :
    Tame (xs.foldlM f b) := by
  induction xs generalizing b with
  | nil => exact tame_pure b
  | cons x xs ih =>
    rw [List.foldlM_cons]
    exact (h b x).bind ih

theorem tame_forM {f : α → LabelM PUnit} (h : ∀ x, (f x).Tame) (xs : List α) :
    Tame (xs.forM f) := by
  induction xs with
  | nil => exact tame_pure _
  | cons x xs ih => exact (h x).bind fun _ => ih

/-- Rounds that do not suffice are a fault of their own. -/
theorem tame_iterate {id : Nat} {targets : List StateId} {body : Labels → LabelM Labels}
    (hbody : ∀ labels, (body labels).Tame) (fuel : Nat) (approximation : Labels) :
    Tame (iterate id targets body fuel approximation) := by
  induction fuel generalizing approximation with
  | zero => exact tame_throw fun _ h => CheckError.fault.inj h ▸ not_false
  | succ fuel ih =>
    refine (hbody _).bind fun values => tame_tick.bind fun time =>
      (tame_modify _).bind fun _ => ?_
    split
    · exact tame_pure _
    · exact ih _

theorem tame_label {s : Space} {region : List StateId} (f : Formula) (env : TreeMap Nat Labels)
    (targets : List StateId) (known : Labels) : Tame (label s region f env targets known) := by
  induction f generalizing env targets known with
  | const value => exact tame_pure _
  | atom a =>
    refine tame_foldlM (fun labels n => (tame_raise (s.tame_state n)).bind fun state => ?_) _ _
    cases a.evaluate state with
    | ok value => exact tame_pure _
    | error cause => exact tame_throw nofun
  | and f g ihf ihg | or f g ihf ihg =>
    exact (ihf env _ {}).bind fun _ => (ihg env _ {}).bind fun _ => tame_pure _
  | next paths f ih => exact (ih env _ {}).bind fun _ => tame_pure _
  | fix id kind name f ih =>
    exact tame_tick.bind fun _ => (tame_modify _).bind fun _ =>
      (tame_iterate (fun labels => ih (env.insert id labels) _ {}) _ _).bind fun _ => tame_pure _
  | var id name => exact tame_pure _
  | shared id f ih =>
    refine tame_get.bind fun l => ?_
    dsimp only
    split
    · exact tame_pure _
    · exact (ih env _ _).bind fun _ => (tame_modify _).bind fun _ => tame_pure _

theorem tame_validate (s : Space) (f : Formula) (n : StateId) : Tame (validate s f n) := by
  refine tame_forM (fun a => (tame_raise (s.tame_state n)).bind fun state => ?_) f.atoms
  cases a.evaluate state with
  | ok value => exact tame_pure _
  | error cause => exact tame_throw nofun

end RefineCheck.Labelling.LabelM
