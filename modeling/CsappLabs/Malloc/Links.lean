import CsappLabs.Foundation.Linked
import CsappLabs.Malloc.Stores

/-!
# Link words

A node of a free list keeps its predecessor in the word at its address and its
successor in the next word.  Two nodes are the same or at least eight bytes
apart, so that a store to one link leaves all others alone.
-/

namespace CsappLabs.Malloc

open CsappLabs.Foundation

/-- The link words of `a` and of `u` are the same two words or disjoint. -/
def Spaced (a u : Nat) : Prop := u = a ∨ a + 8 ≤ u ∨ u + 8 ≤ a

theorem Spaced.symm {a u : Nat} (h : Spaced a u) : Spaced u a := by
  rcases h with h | h | h
  · exact .inl h.symm
  · exact .inr (.inr h)
  · exact .inr (.inl h)

def NodeOf (F : Block → Prop) (p : Nat) : Prop := ∃ b, F b ∧ b.ptr = p

variable {m : Mem} {a u v w : Nat}

theorem getPredecessor_setPredecessor (h : Spaced a u) (hv : v < 2 ^ 32) :
    getPredecessor (store m a v) u = if u = a then v else getPredecessor m u := by
  unfold getPredecessor
  rcases h with rfl | h | h
  · rw [if_pos rfl, load_store_same, Nat.mod_eq_of_lt hv]
  · rw [if_neg (by omega), load_store_of_apart _ _ (by omega)]
  · rw [if_neg (by omega), load_store_of_apart _ _ (by omega)]

theorem getSuccessor_setSuccessor (h : Spaced a u) (hv : v < 2 ^ 32) :
    getSuccessor (store m (succPtr a) v) u = if u = a then v else getSuccessor m u := by
  unfold getSuccessor succPtr
  rcases h with rfl | h | h
  · rw [if_pos rfl, load_store_same, Nat.mod_eq_of_lt hv]
  · rw [if_neg (by omega), load_store_of_apart _ _ (by omega)]
  · rw [if_neg (by omega), load_store_of_apart _ _ (by omega)]

theorem getSuccessor_setPredecessor (v : Nat) (h : Spaced a u) :
    getSuccessor (store m a v) u = getSuccessor m u := by
  unfold getSuccessor succPtr
  rcases h with rfl | h | h <;> exact load_store_of_apart _ _ (by omega)

theorem getPredecessor_setSuccessor (v : Nat) (h : Spaced a u) :
    getPredecessor (store m (succPtr a) v) u = getPredecessor m u := by
  unfold getPredecessor succPtr
  rcases h with rfl | h | h <;> exact load_store_of_apart _ _ (by omega)

theorem load_setPredecessor (v : Nat) (h : w + 4 ≤ a ∨ a + 8 ≤ w) :
    load (store m a v) w = load m w := load_store_of_apart _ _ (by omega)

theorem load_setSuccessor (v : Nat) (h : w + 4 ≤ a ∨ a + 8 ≤ w) :
    load (store m (succPtr a) v) w = load m w := by
  unfold succPtr
  exact load_store_of_apart _ _ (by omega)

theorem getPredecessor_storeApart (v : Nat) (h : w + 4 ≤ u ∨ u + 8 ≤ w) :
    getPredecessor (store m w v) u = getPredecessor m u :=
  load_store_of_apart _ _ (by omega)

theorem getSuccessor_storeApart (v : Nat) (h : w + 4 ≤ u ∨ u + 8 ≤ w) :
    getSuccessor (store m w v) u = getSuccessor m u := by
  unfold getSuccessor succPtr
  exact load_store_of_apart _ _ (by omega)

end CsappLabs.Malloc
