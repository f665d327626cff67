import Mathlib.Data.List.Nodup
import Mathlib.Data.List.TakeDrop

/-!
# Recency of use

A history of uses lists the used keys, the newest use first.  `recency` lists
each of them once in the order of their last uses, and the first `n` of these
are what a cache of `n` entries holds when it evicts the least recently used.
-/

namespace CsappLabs.Foundation

variable {α : Type*} [DecidableEq α] {x y : α} {l us vs : List α} {n : Nat}

def touch (x : α) (l : List α) : List α := x :: l.erase x

theorem mem_touch : y ∈ touch x l ↔ y = x ∨ y ∈ l := by
  by_cases hyx : y = x
  · simp [touch, hyx]
  · simp [touch, hyx, List.mem_erase_of_ne hyx]

theorem nodup_touch (h : l.Nodup) : (touch x l).Nodup :=
  List.nodup_cons.mpr ⟨h.not_mem_erase, h.erase x⟩

theorem touch_perm (h : x ∈ l) : l.Perm (touch x l) := List.perm_cons_erase h

theorem touch_middle (h : x ∉ us) : touch x (us ++ x :: vs) = x :: (us ++ vs) := by
  rw [touch, List.erase_append_right _ h, List.erase_cons_head]

theorem map_touch {β : Type*} [DecidableEq β] {f : α → β} (h : ∀ y ∈ l, f y = f x → y = x) :
    (touch x l).map f = touch (f x) (l.map f) := by
  have herase : (l.erase x).map f = (l.map f).erase (f x) := by
    induction l with
    | nil => rfl
    | cons y l ih =>
        have hl : ∀ z ∈ l, f z = f x → z = x := fun z hz => h z (List.mem_cons_of_mem _ hz)
        by_cases hyx : y = x
        · simp [hyx]
        · have hf : f y ≠ f x := fun e => hyx (h y List.mem_cons_self e)
          rw [List.erase_cons_tail (by simpa using hyx), List.map_cons, List.map_cons,
            List.erase_cons_tail (by simpa using hf), ih hl]
  rw [touch, touch, List.map_cons, herase]

theorem take_erase_of_mem (h : x ∈ l.take (n + 1)) :
    (l.erase x).take n = (l.take (n + 1)).erase x := by
  induction l generalizing n with
  | nil => simp at h
  | cons y l ih =>
      by_cases hyx : y = x
      · simp [hyx]
      · have hx : x ∈ l.take n := by simpa [Ne.symm hyx] using h
        cases n with
        | zero => simp at hx
        | succ n =>
            rw [List.erase_cons_tail (by simpa using hyx), List.take_succ_cons, ih hx,
              List.take_succ_cons, List.erase_cons_tail (by simpa using hyx)]

theorem take_erase_of_notMem (h : x ∉ l.take n) : (l.erase x).take n = l.take n := by
  induction l generalizing n with
  | nil => rfl
  | cons y l ih =>
      cases n with
      | zero => simp
      | succ n =>
          simp only [List.take_succ_cons, List.mem_cons, not_or] at h
          rw [List.erase_cons_tail (by simpa using Ne.symm h.1), List.take_succ_cons, ih h.2,
            List.take_succ_cons]

theorem take_touch_of_mem (h : x ∈ l.take n) : (touch x l).take n = touch x (l.take n) := by
  cases n with
  | zero => simp at h
  | succ n => rw [touch, touch, List.take_succ_cons, take_erase_of_mem h]

theorem take_touch_of_notMem (h : x ∉ l.take (n + 1)) :
    (touch x l).take (n + 1) = x :: l.take n := by
  have hn : x ∉ l.take n := fun hx => h (List.take_subset_take_left l (Nat.le_succ n) hx)
  rw [touch, List.take_succ_cons, take_erase_of_notMem hn]

/-! ## Histories -/

def recency : List α → List α
  | [] => []
  | x :: us => touch x (recency us)

def lastUse (us : List α) (x : α) : Nat := us.length - us.idxOf x

theorem nodup_recency (us : List α) : (recency us).Nodup := by
  induction us with
  | nil => exact List.nodup_nil
  | cons x us ih => exact nodup_touch ih

theorem mem_recency : x ∈ recency us ↔ x ∈ us := by
  induction us with
  | nil => simp [recency]
  | cons y us ih => simp [recency, mem_touch, ih]

theorem lastUse_cons_self : lastUse (x :: us) x = us.length + 1 := by simp [lastUse]

theorem lastUse_cons_of_ne (h : y ≠ x) : lastUse (x :: us) y = lastUse us y := by
  simp [lastUse, List.idxOf_cons_ne _ h.symm]

theorem lastUse_le (us : List α) (x : α) : lastUse us x ≤ us.length := Nat.sub_le _ _

theorem pairwise_recency (us : List α) :
    (recency us).Pairwise fun x y => lastUse us y < lastUse us x := by
  induction us with
  | nil => exact List.Pairwise.nil
  | cons x us ih =>
      refine List.pairwise_cons.mpr ⟨fun y hy => ?_, ?_⟩
      · have hyx : y ≠ x := fun e => (nodup_recency us).not_mem_erase (e ▸ hy)
        rw [lastUse_cons_self, lastUse_cons_of_ne hyx]
        exact Nat.lt_succ_of_le (lastUse_le us y)
      · refine (ih.sublist List.erase_sublist).imp_of_mem fun {y z} hy hz hyz => ?_
        have hyx : y ≠ x := fun e => (nodup_recency us).not_mem_erase (e ▸ hy)
        have hzx : z ≠ x := fun e => (nodup_recency us).not_mem_erase (e ▸ hz)
        rwa [lastUse_cons_of_ne hyx, lastUse_cons_of_ne hzx]

/-! ## A map that forgets -/

/-- The history of a map whose entries are read and stored: the uses, the
newest first, and the value that was last stored under each key. -/
structure Usage (κ ν : Type*) where
  uses : List κ
  latest : κ → Option ν

namespace Usage

variable {κ ν : Type*} [DecidableEq κ]

def empty : Usage κ ν := ⟨[], fun _ => none⟩

/-- What a map answers that keeps the `n` most recently used keys. -/
def answer (n : Nat) (u : Usage κ ν) (k : κ) : Option ν :=
  if k ∈ (recency u.uses).take n then u.latest k else none

def store (u : Usage κ ν) (k : κ) (v : ν) : Usage κ ν :=
  ⟨k :: u.uses, fun k' => if k' = k then some v else u.latest k'⟩

def read (n : Nat) (u : Usage κ ν) (k : κ) : Usage κ ν :=
  if (u.answer n k).isSome then { u with uses := k :: u.uses } else u

end Usage

end CsappLabs.Foundation
