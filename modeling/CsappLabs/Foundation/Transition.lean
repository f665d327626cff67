import Mathlib.Data.Option.Basic

/-!
# Runs of a transition system

`step` is a partial function on states and actions: `none` where the action is
not enabled.  A run takes enabled actions only, each of them meeting `ok` in
the state it is taken in; `ok` is where the condition of a conditional result
goes.  `replay` computes the end of a given list of actions.
-/

namespace CsappLabs.Foundation

variable {σ α : Type*} {step : σ → α → Option σ} {ok ok' : σ → α → Prop} {s₀ s s' : σ}

inductive Run (step : σ → α → Option σ) (ok : σ → α → Prop) (s₀ : σ) : σ → Prop where
  | start : Run step ok s₀ s₀
  | next {s s' : σ} {a : α} (h : Run step ok s₀ s) (hok : ok s a)
      (hstep : step s a = some s') : Run step ok s₀ s'

namespace Run

theorem invariant (Inv : σ → Prop) (hrun : Run step ok s₀ s) (h₀ : Inv s₀)
    (hstep : ∀ s a s', Inv s → ok s a → step s a = some s' → Inv s') : Inv s := by
  induction hrun with
  | start => exact h₀
  | next _ hok hs ih => exact hstep _ _ _ ih hok hs

theorem mono (hrun : Run step ok s₀ s) (h : ∀ s a, ok s a → ok' s a) :
    Run step ok' s₀ s := by
  induction hrun with
  | start => exact .start
  | next _ hok hs ih => exact ih.next (h _ _ hok) hs

theorem trans (hrun : Run step ok s₀ s) (hrest : Run step ok s s') : Run step ok s₀ s' := by
  induction hrest with
  | start => exact hrun
  | next _ hok hs ih => exact ih.next hok hs

/-- A run is one of another system when each of its steps is a step there or
changes nothing. -/
theorem simulated {τ β : Type*} {fine : τ → β → Option τ} {okFine : τ → β → Prop} {t₀ t : τ}
    (f : τ → σ) (hrun : Run fine okFine t₀ t)
    (hstep : ∀ t b t', Run fine okFine t₀ t → okFine t b → fine t b = some t' →
      f t' = f t ∨ ∃ a, ok (f t) a ∧ step (f t) a = some (f t')) :
    Run step ok (f t₀) (f t) := by
  induction hrun with
  | start => exact .start
  | next hprev hok hs ih =>
      rcases hstep _ _ _ hprev hok hs with hsame | ⟨a, ha, hs'⟩
      · rwa [hsame]
      · exact ih.next ha hs'

end Run

def replay (step : σ → α → Option σ) (ok : σ → α → Prop) [∀ s a, Decidable (ok s a)] (s : σ) :
    List α → Option σ
  | [] => some s
  | a :: as => if ok s a then (step s a).bind fun s' => replay step ok s' as else none

theorem Run.of_replay [∀ s a, Decidable (ok s a)] {as : List α} (h : Run step ok s₀ s)
    (hr : replay step ok s as = some s') : Run step ok s₀ s' := by
  induction as generalizing s with
  | nil =>
      obtain rfl : s = s' := by simpa [replay] using hr
      exact h
  | cons a as ih =>
      by_cases hok : ok s a
      · simp only [replay, if_pos hok] at hr
        obtain ⟨s₁, hs, hrest⟩ := Option.bind_eq_some_iff.mp hr
        exact ih (h.next hok hs) hrest
      · simp [replay, hok] at hr

end CsappLabs.Foundation
