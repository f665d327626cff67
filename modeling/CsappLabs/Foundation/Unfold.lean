import Mathlib.Data.List.Basic

/-!
# Lists of results

The results of a call that is made until there are none.  Where a measure of
the state decreases with every result, the list does not depend on the fuel.
-/

namespace CsappLabs.Foundation

variable {σ ρ : Type*} {next : σ → Option (ρ × σ)} {m : σ → Nat} {s s' : σ} {r : ρ}
  {fuel fuel' : Nat}

def unfold (next : σ → Option (ρ × σ)) : Nat → σ → List ρ
  | 0, _ => []
  | fuel + 1, s =>
      match next s with
      | none => []
      | some (r, s) => r :: unfold next fuel s

def results (next : σ → Option (ρ × σ)) (m : σ → Nat) (s : σ) : List ρ := unfold next (m s + 1) s

theorem unfold_fuel (hdec : ∀ s r s', next s = some (r, s') → m s' < m s) (h : m s < fuel)
    (h' : m s < fuel') : unfold next fuel s = unfold next fuel' s := by
  induction fuel generalizing fuel' s with
  | zero => exact absurd h (Nat.not_lt_zero _)
  | succ fuel ih =>
      cases fuel' with
      | zero => exact absurd h' (Nat.not_lt_zero _)
      | succ fuel' =>
          simp only [unfold]
          cases hnext : next s with
          | none => rfl
          | some p =>
              have hless := hdec s p.1 p.2 hnext
              have hrest : unfold next fuel p.2 = unfold next fuel' p.2 :=
                ih (by omega) (by omega)
              simp only [hrest]

theorem results_none (h : next s = none) : results next m s = [] := by
  simp only [results, unfold, h]

theorem results_some (hdec : ∀ s r s', next s = some (r, s') → m s' < m s)
    (h : next s = some (r, s')) : results next m s = r :: results next m s' := by
  have hless := hdec s r s' h
  have hfuel : unfold next (m s) s' = unfold next (m s' + 1) s' :=
    unfold_fuel hdec hless (Nat.lt_succ_self _)
  simp only [results, unfold, h, hfuel]

end CsappLabs.Foundation
