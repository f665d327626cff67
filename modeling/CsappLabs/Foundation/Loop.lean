import Mathlib.Data.Option.Basic

/-!
# Counted loops

`for (i = lo; i < hi; i += step)` with a counter of type `int`.  The body may
fault, and so does a sum that is not in the range of `int`.  A loop is used
through an invariant, which also gives its end, or through what a loop that
ends says about each of its turns.
-/

namespace CsappLabs.Foundation

variable {σ : Type} {s s' : σ} {body : Nat → σ → Option σ} {lo hi step fuel i k : Nat}

def intMax : Nat := 2147483647

def int (n : Nat) : Option Nat := if n ≤ intMax then some n else none

theorem int_eq_some {n m : Nat} : int n = some m ↔ n ≤ intMax ∧ n = m := by
  unfold int
  by_cases hn : n ≤ intMax
  · simp [hn]
  · simp [hn]

def turns (hi step : Nat) (body : Nat → σ → Option σ) : Nat → Nat → σ → Option σ
  | 0, _, _ => none
  | fuel + 1, i, s =>
      if i < hi then do
        let s ← body i s
        turns hi step body fuel (← int (i + step)) s
      else some s

def forLoop (lo hi step : Nat) (body : Nat → σ → Option σ) (s : σ) : Option σ :=
  turns hi step body (hi - lo + 1) lo s

theorem turns_inv (Inv : Nat → σ → Prop) (hpos : 0 < step) (hlo : lo ≤ i) (hdvd : step ∣ i - lo)
    (hfuel : hi - i < fuel) (h : Inv i s)
    (hbody : ∀ i s, lo ≤ i → i < hi → step ∣ i - lo → Inv i s →
      i + step ≤ intMax ∧ ∃ s', body i s = some s' ∧ Inv (i + step) s') :
    ∃ j s', turns hi step body fuel i s = some s' ∧ hi ≤ j ∧ lo ≤ j ∧ step ∣ j - lo ∧ Inv j s' := by
  induction fuel generalizing i s with
  | zero => omega
  | succ fuel ih =>
      by_cases hlt : i < hi
      · obtain ⟨hint, s', hs, hinv⟩ := hbody i s hlo hlt hdvd h
        have hnext : i + step - lo = i - lo + step := by omega
        have hdvd' : step ∣ i + step - lo := by
          rw [hnext]
          exact Nat.dvd_add hdvd (Nat.dvd_refl step)
        obtain ⟨j, t, ht, hj⟩ := ih (by omega) hdvd' (by omega) hinv
        refine ⟨j, t, ?_, hj⟩
        simp only [turns, if_pos hlt, hs, int, if_pos hint, bind, Option.bind]
        exact ht
      · exact ⟨i, s, by rw [turns, if_neg hlt], Nat.not_lt.mp hlt, hlo, hdvd, h⟩

/-- The loop ends in a state that meets the invariant, and the counter is the
first one that is not below `hi`. -/
theorem forLoop_inv (body : Nat → σ → Option σ) (Inv : Nat → σ → Prop) (hpos : 0 < step)
    (h : Inv lo s)
    (hbody : ∀ i s, lo ≤ i → i < hi → step ∣ i - lo → Inv i s →
      i + step ≤ intMax ∧ ∃ s', body i s = some s' ∧ Inv (i + step) s') :
    ∃ j s', forLoop lo hi step body s = some s' ∧ hi ≤ j ∧ lo ≤ j ∧ step ∣ j - lo ∧ Inv j s' :=
  turns_inv Inv hpos (Nat.le_refl lo) (by simp) (Nat.lt_succ_self _) h hbody

theorem forLoop_exact (body : Nat → σ → Option σ) (Inv : Nat → σ → Prop) (hpos : 0 < step)
    (hle : lo ≤ hi) (hdvd : step ∣ hi - lo) (hint : hi ≤ intMax) (h : Inv lo s)
    (hbody : ∀ i s, lo ≤ i → i + step ≤ hi → step ∣ i - lo → Inv i s →
      ∃ s', body i s = some s' ∧ Inv (i + step) s') :
    ∃ s', forLoop lo hi step body s = some s' ∧ Inv hi s' := by
  have hloop := forLoop_inv body (fun i s => i ≤ hi ∧ Inv i s) hpos ⟨hle, h⟩
    (fun i s hlo (hlt : i < hi) hdvd' hinv => by
      have hsub : step ∣ hi - lo - (i - lo) := Nat.dvd_sub hdvd hdvd'
      have hroom : step ≤ hi - lo - (i - lo) := Nat.le_of_dvd (by omega) hsub
      obtain ⟨s', hs, hnext⟩ := hbody i s hlo (by omega) hdvd' hinv.2
      exact ⟨by omega, s', hs, by omega, hnext⟩)
  obtain ⟨j, s', hs, hge, -, -, hle, hinv⟩ := hloop
  obtain rfl := Nat.le_antisymm hle hge
  exact ⟨s', hs, hinv⟩

/-- Two nested loops over the pairs of counters with `i < j`.  `T i j` is the
state in front of the pair. -/
theorem forLoop_pairs (body : Nat → Nat → σ → Option σ) (T : Nat → Nat → σ) (hle : lo ≤ hi)
    (hint : hi ≤ intMax) (hnext : ∀ i, lo ≤ i → i < hi → T i hi = T (i + 1) (i + 2))
    (hbody : ∀ i j, lo ≤ i → i < j → j < hi → body i j (T i j) = some (T i (j + 1))) :
    forLoop lo hi 1 (fun i => forLoop (i + 1) hi 1 (body i)) (T lo (lo + 1)) =
      some (T hi (hi + 1)) := by
  have houter := forLoop_exact (s := T lo (lo + 1))
    (fun i => forLoop (i + 1) hi 1 (body i)) (fun i t => t = T i (i + 1)) Nat.one_pos hle
    (Nat.one_dvd _) hint rfl (by
      rintro i t hlo hlt - rfl
      have hinner := forLoop_exact (s := T i (i + 1)) (body i) (fun j t => t = T i j)
        Nat.one_pos hlt (Nat.one_dvd _) hint rfl (by
          rintro j t hij hj - rfl
          exact ⟨_, hbody i j hlo hij hj, rfl⟩)
      obtain ⟨t, ht, rfl⟩ := hinner
      exact ⟨_, ht, hnext i hlo hlt⟩)
  obtain ⟨t, ht, rfl⟩ := houter
  exact ht

theorem turns_ok (h : turns hi step body fuel i s = some s') (hlt : i + k * step < hi) :
    i + k * step + step ≤ intMax ∧ ∃ t t', body (i + k * step) t = some t' := by
  induction fuel generalizing i s k with
  | zero => cases h
  | succ fuel ih =>
      have hi : i < hi := Nat.lt_of_le_of_lt (Nat.le_add_right _ _) hlt
      rw [turns, if_pos hi] at h
      obtain ⟨t, ht, hrest⟩ := Option.bind_eq_some_iff.mp h
      obtain ⟨next, hint, hturns⟩ := Option.bind_eq_some_iff.mp hrest
      obtain ⟨hle, rfl⟩ := int_eq_some.mp hint
      cases k with
      | zero =>
          rw [Nat.zero_mul, Nat.add_zero]
          exact ⟨hle, s, t, ht⟩
      | succ k =>
          have hsum : i + (k + 1) * step = i + step + k * step := by
            rw [Nat.succ_mul]
            omega
          rw [hsum] at hlt ⊢
          exact ih hturns hlt

theorem forLoop_ok (h : forLoop lo hi step body s = some s') (hlt : lo + k * step < hi) :
    lo + k * step + step ≤ intMax ∧ ∃ t t', body (lo + k * step) t = some t' := turns_ok h hlt

end CsappLabs.Foundation
