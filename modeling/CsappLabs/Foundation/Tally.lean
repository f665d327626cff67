import Mathlib.Algebra.BigOperators.Fin
import Mathlib.Data.Fintype.Card

/-!
# Counting threads by where they stand

A step of one thread changes the value of a function at one point.  The number
of threads in a class of positions is then the number of the others plus one
or zero, before the step and after it.
-/

namespace CsappLabs.Foundation

variable {ι β : Type*} [Fintype ι] {p q : β → Bool} {f : ι → β} {t u : ι}

def tally (p : β → Bool) (f : ι → β) : Nat := (Finset.univ.filter fun t => p (f t)).card

theorem tally_le (h : ∀ b, p b → q b) (f : ι → β) : tally p f ≤ tally q f :=
  Finset.card_le_card (Finset.monotone_filter_right _ fun u _ => h (f u))

theorem tally_pos (h : p (f t)) : 0 < tally p f :=
  Finset.card_pos.mpr ⟨t, by simpa using h⟩

theorem exists_of_tally_pos (h : 0 < tally p f) : ∃ t, p (f t) := by
  obtain ⟨t, ht⟩ := Finset.card_pos.mp h
  exact ⟨t, by simpa using ht⟩

theorem tally_eq_zero (h : ∀ t, p (f t) = false) : tally p f = 0 := by
  rw [tally, Finset.card_eq_zero, Finset.filter_eq_empty_iff]
  intro t _
  simp [h t]

theorem eq_of_tally_le_one (h : tally p f ≤ 1) (ht : p (f t)) (hu : p (f u)) : t = u :=
  Finset.card_le_one.mp h t (by simpa using ht) u (by simpa using hu)

theorem tally_or (h : ∀ b, p b → q b = false) (f : ι → β) :
    tally (fun b => p b || q b) f = tally p f + tally q f := by
  simp only [tally, Finset.card_filter]
  rw [← Finset.sum_add_distrib]
  apply Finset.sum_congr rfl
  intro t _
  cases hp : p (f t) with
  | false => simp
  | true => simp [h _ hp]

/-! ## A step of one thread -/

variable [DecidableEq ι]

def others (p : β → Bool) (f : ι → β) (t : ι) : Nat :=
  ((Finset.univ.erase t).filter fun u => p (f u)).card

theorem tally_eq (p : β → Bool) (f : ι → β) (t : ι) :
    tally p f = others p f t + (p (f t)).toNat := by
  simp only [tally, others, Finset.card_filter]
  rw [← Finset.sum_erase_add _ _ (Finset.mem_univ t)]
  cases p (f t) <;> rfl

theorem others_update (p : β → Bool) (f : ι → β) (t : ι) (b : β) :
    others p (Function.update f t b) t = others p f t := by
  unfold others
  congr 1
  apply Finset.filter_congr
  intro u hu
  rw [Function.update_of_ne (Finset.ne_of_mem_erase hu)]

theorem tally_update (p : β → Bool) (f : ι → β) (t : ι) (b : β) :
    tally p (Function.update f t b) = others p f t + (p b).toNat := by
  rw [tally_eq p _ t, others_update, Function.update_self]

theorem others_le (h : ∀ b, p b → q b) (f : ι → β) (t : ι) : others p f t ≤ others q f t :=
  Finset.card_le_card (Finset.monotone_filter_right _ fun u _ => h (f u))

/-! ## Threads in a list -/

theorem exists_countP_rest {l : List β} {i : Nat} {b : β} (p : β → Bool) (h : l[i]? = some b) :
    ∃ rest, l.countP p = rest + (p b).toNat ∧
      ∀ a, (l.set i a).countP p = rest + (p a).toNat := by
  obtain ⟨hi, rfl⟩ := List.getElem?_eq_some_iff.mp h
  have hpos : (p l[i]).toNat ≤ l.countP p := by
    cases hp : p l[i] with
    | false => exact Nat.zero_le _
    | true => exact List.countP_pos_iff.mpr ⟨l[i], List.getElem_mem hi, hp⟩
  refine ⟨l.countP p - (p l[i]).toNat, (Nat.sub_add_cancel hpos).symm, fun a => ?_⟩
  rw [List.countP_set hi]
  cases p l[i] <;> cases p a <;> rfl

end CsappLabs.Foundation
