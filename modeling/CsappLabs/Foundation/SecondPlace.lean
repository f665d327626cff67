import Mathlib.Data.List.Chain

/-!
# Insertion behind the head of a list

A list that is sorted by a transitive relation stays sorted under an insertion
at the second place exactly if the two neighbours of that place agree.
-/

namespace CsappLabs.Foundation

variable {α β : Type*} {r : α → α → Prop} {a x y : α} {xs : List α} {p : α → Bool}

def insertSecond (a : α) : List α → List α
  | [] => [a]
  | x :: xs => x :: a :: xs

def SecondFits (r : α → α → Prop) (a : α) : List α → Prop
  | [] => True
  | [x] => r x a
  | x :: y :: _ => r x a ∧ r a y

instance [DecidableRel r] (a : α) : (xs : List α) → Decidable (SecondFits r a xs)
  | [] => isTrue trivial
  | [x] => inferInstanceAs (Decidable (r x a))
  | x :: y :: _ => inferInstanceAs (Decidable (r x a ∧ r a y))

@[simp] theorem mem_insertSecond : x ∈ insertSecond a xs ↔ x = a ∨ x ∈ xs := by
  cases xs with
  | nil => simp [insertSecond]
  | cons y ys =>
      simp only [insertSecond, List.mem_cons]
      exact or_left_comm

theorem map_insertSecond (f : α → β) :
    (insertSecond a xs).map f = insertSecond (f a) (xs.map f) := by
  cases xs <;> rfl

theorem filter_insertSecond (ha : p a = false) :
    (insertSecond a xs).filter p = xs.filter p := by
  cases xs with
  | nil => simp [insertSecond, ha]
  | cons y ys => simp [insertSecond, List.filter_cons, ha]

theorem pairwise_insertSecond [IsTrans α r] :
    (insertSecond a xs).Pairwise r ↔ xs.Pairwise r ∧ SecondFits r a xs := by
  simp only [← List.isChain_iff_pairwise]
  match xs with
  | [] => simp [insertSecond, SecondFits]
  | [x] => simp [insertSecond, SecondFits]
  | x :: y :: ys =>
      simp only [insertSecond, SecondFits, List.isChain_cons_cons]
      constructor
      · rintro ⟨hxa, hay, hys⟩
        exact ⟨⟨IsTrans.trans _ _ _ hxa hay, hys⟩, hxa, hay⟩
      · rintro ⟨⟨-, hys⟩, hxa, hay⟩
        exact ⟨hxa, hay, hys⟩

theorem find?_least (hs : xs.Pairwise r) (hx : xs.find? p = some x) (hy : y ∈ xs)
    (hp : p y = true) : x = y ∨ r x y := by
  obtain ⟨-, us, vs, rfl, hus⟩ := List.find?_eq_some_iff_append.mp hx
  simp only [List.mem_append, List.mem_cons] at hy
  obtain ⟨-, htail, -⟩ := List.pairwise_append.mp hs
  rcases hy with hy | rfl | hy
  · have hnot := hus y hy
    simp [hp] at hnot
  · exact .inl rfl
  · exact .inr ((List.pairwise_cons.mp htail).1 y hy)

end CsappLabs.Foundation
