import Mathlib

/-!
States that permitted steps reach: the rule for what holds of all of them, runs over given items
that are checked step by step, and runs that come to rest.
-/

namespace Machine

variable {σ ι ε : Type}

inductive Reaches (step : σ → ι → Except ε σ) (allowed : σ → ι → Prop) (begun : σ) : σ → Prop where
  | start : Reaches step allowed begun begun
  | step {state next : σ} {item : ι} (reached : Reaches step allowed begun state)
      (permitted : allowed state item) (stepped : step state item = .ok next) :
      Reaches step allowed begun next

theorem Reaches.invariant {step : σ → ι → Except ε σ} {allowed : σ → ι → Prop} {inv : σ → Prop}
    {begun state : σ} (reached : Reaches step allowed begun state) (initial : inv begun)
    (preserved : ∀ state item next, inv state → allowed state item → step state item = .ok next →
      inv next) : inv state := by
  induction reached with
  | start => exact initial
  | step _ permitted stepped ih => exact preserved _ _ _ ih permitted stepped

/-- A step that is taken when it is permitted. -/
def checked (step : σ → ι → Except ε σ) (allowed : σ → ι → Prop)
    [∀ state item, Decidable (allowed state item)] (state : σ) (item : ι) : Option σ :=
  if allowed state item then (step state item).toOption else none

section Checked

variable {step : σ → ι → Except ε σ} {allowed : σ → ι → Prop}
  [∀ state item, Decidable (allowed state item)] {begun state final : σ}

theorem Reaches.of_checked {items : List ι} (reached : Reaches step allowed begun state)
    (ran : items.foldlM (checked step allowed) state = some final) :
    Reaches step allowed begun final := by
  induction items generalizing state with
  | nil =>
      cases ran
      exact reached
  | cons item rest ih =>
      rw [List.foldlM_cons] at ran
      obtain ⟨next, taken, later⟩ := Option.bind_eq_some_iff.mp ran
      unfold checked at taken
      split at taken
      · rename_i permitted
        cases result : step state item with
        | error fault =>
            rw [result] at taken
            cases taken
        | ok value =>
            rw [result] at taken
            cases taken
            exact ih (reached.step permitted result) later
      · cases taken

theorem Reaches.any (items : List ι) {property : σ → Prop} [DecidablePred property]
    (ran : (items.foldlM (checked step allowed) begun).any (fun state => decide (property state)) =
      true) : ∃ state, Reaches step allowed begun state ∧ property state := by
  obtain ⟨state, final, holds⟩ := (Option.any_eq_true _ _).mp ran
  exact ⟨state, .of_checked .start final, of_decide_eq_true holds⟩

end Checked

end Machine
