import Mathlib.Data.List.Nodup
import Mathlib.Data.List.Perm.Subperm

/-!
# Doubly linked lists over a pair of link functions

`Linked next prev a f xs l b` says that the nodes of `xs` form a doubly linked
segment.  It is entered by the pointer `f`, its first node has predecessor
`a`, its last node (or `a`, when `xs` is empty) is `l`, and the walk along
`next` leaves it at `b`.  With `a` and `b` two sentinels, `f = next a` and
`l = prev b`, it is a list between sentinels; with `a = b = 0` and `f` a head
word it is a list that ends in a null pointer.
-/

namespace CsappLabs.Foundation

variable {α : Type*}

def Linked (next prev : α → α) : α → α → List α → α → α → Prop
  | a, f, [], l, b => f = b ∧ l = a
  | a, f, x :: xs, l, b => f = x ∧ prev x = a ∧ Linked next prev x (next x) xs l b

variable {next prev next' prev' : α → α} {a b f l x : α} {us vs xs ys : List α}

@[simp] theorem linked_nil :
    Linked next prev a f [] l b ↔ f = b ∧ l = a := Iff.rfl

@[simp] theorem linked_cons :
    Linked next prev a f (x :: xs) l b ↔
      f = x ∧ prev x = a ∧ Linked next prev x (next x) xs l b := Iff.rfl

theorem linked_append :
    Linked next prev a f (xs ++ ys) l b ↔
      ∃ m g, Linked next prev a f xs m g ∧ Linked next prev m g ys l b := by
  induction xs generalizing a f with
  | nil =>
      constructor
      · intro h
        exact ⟨a, f, ⟨rfl, rfl⟩, h⟩
      · rintro ⟨m, g, ⟨rfl, rfl⟩, h⟩
        exact h
  | cons x xs ih =>
      simp only [List.cons_append, linked_cons, ih]
      constructor
      · rintro ⟨hf, hp, m, g, h₁, h₂⟩
        exact ⟨m, g, ⟨hf, hp, h₁⟩, h₂⟩
      · rintro ⟨m, g, ⟨hf, hp, h₁⟩, h₂⟩
        exact ⟨hf, hp, m, g, h₁, h₂⟩

namespace Linked

theorem congr (h : Linked next prev a f xs l b)
    (hn : ∀ u ∈ xs, next' u = next u) (hp : ∀ u ∈ xs, prev' u = prev u) :
    Linked next' prev' a f xs l b := by
  induction xs generalizing a f with
  | nil => exact h
  | cons x xs ih =>
      obtain ⟨hf, hx, htail⟩ := h
      refine ⟨hf, (hp x (by simp)).trans hx, ?_⟩
      rw [hn x (by simp)]
      exact ih htail (fun u hu => hn u (by simp [hu]))
        (fun u hu => hp u (by simp [hu]))

theorem first (h : Linked next prev a f xs l b) : f = xs.head?.getD b := by
  cases xs with
  | nil => exact h.1
  | cons x xs => exact h.1

theorem last (h : Linked next prev a f xs l b) : l = xs.getLast?.getD a := by
  induction xs generalizing a f with
  | nil => exact h.2
  | cons x xs ih =>
      rw [ih h.2.2, List.getLast?_cons]
      rfl

theorem first_mem (h : Linked next prev a f xs l b) : f ∈ xs ∨ f = b := by
  cases xs with
  | nil => exact .inr h.1
  | cons x xs => exact .inl (by simp [h.1])

theorem last_mem (h : Linked next prev a f xs l b) : l ∈ xs ∨ l = a := by
  induction xs generalizing a f with
  | nil => exact .inr h.2
  | cons x xs ih =>
      rcases ih h.2.2 with hl | hl
      · exact .inl (by simp [hl])
      · exact .inl (by simp [hl])

theorem middle (h : Linked next prev a f (us ++ x :: vs) l b) :
    Linked next prev a f us (prev x) x ∧ Linked next prev x (next x) vs l b := by
  obtain ⟨m, g, hus, hg, hm, hvs⟩ := linked_append.mp h
  subst hg
  subst hm
  exact ⟨hus, hvs⟩

variable [DecidableEq α]

/-- Send the exit of a segment elsewhere by rewriting its last link. -/
theorem redirectExit {g c f' : α} (h : Linked next prev a f us l g)
    (hnd : us.Nodup) (ha : a ∉ us)
    (hn : ∀ u ∈ us, next' u = if u = l then c else next u)
    (hp : ∀ u ∈ us, prev' u = prev u)
    (hf : f' = if l = a then c else f) :
    Linked next' prev' a f' us l c := by
  induction us generalizing a f f' with
  | nil => exact ⟨by rw [hf, if_pos h.2], h.2⟩
  | cons x us ih =>
      obtain ⟨hfx, hpx, htail⟩ := h
      obtain ⟨hx, hnd'⟩ := List.nodup_cons.mp hnd
      have hla : l ≠ a := by
        intro e
        rcases htail.last_mem with hl | hl
        · exact ha (by simp [← e, hl])
        · exact ha (by simp [← e, hl])
      refine ⟨by rw [hf, if_neg hla, hfx], (hp x (by simp)).trans hpx, ?_⟩
      refine ih htail hnd' hx (fun u hu => hn u (by simp [hu]))
        (fun u hu => hp u (by simp [hu])) ?_
      rw [hn x (by simp)]
      simp only [eq_comm]

/-- Enter a segment from elsewhere by rewriting its first back link. -/
theorem redirectEntry {c l' : α} (h : Linked next prev a f vs l b)
    (hnd : vs.Nodup) (hb : b ∉ vs) (ha : a ∉ vs)
    (hn : ∀ u ∈ vs, next' u = next u)
    (hp : ∀ u ∈ vs, prev' u = if u = f then c else prev u)
    (hl : l' = if f = b then c else l) :
    Linked next' prev' c f vs l' b := by
  cases vs with
  | nil => exact ⟨h.1, by rw [hl, if_pos h.1]⟩
  | cons x vs =>
      obtain ⟨hfx, hpx, htail⟩ := h
      subst hfx
      obtain ⟨hx, -⟩ := List.nodup_cons.mp hnd
      have hfb : f ≠ b := fun e => hb (by simp [e])
      refine ⟨rfl, by rw [hp f (by simp), if_pos rfl], ?_⟩
      rw [hn f (by simp), hl, if_neg hfb]
      refine htail.congr (fun u hu => hn u (by simp [hu])) fun u hu => ?_
      have huf : u ≠ f := fun e => hx (e ▸ hu)
      rw [hp u (by simp [hu]), if_neg huf]

/-- Unlink a node: its neighbours are joined, whichever of them are nodes. -/
theorem remove {f' l' : α} (h : Linked next prev a f (us ++ x :: vs) l b)
    (hnd : (us ++ x :: vs).Nodup) (ha : a ∉ us ++ x :: vs) (hb : b ∉ us ++ x :: vs)
    (hn : ∀ u ∈ us ++ vs, next' u = if u = prev x then next x else next u)
    (hp : ∀ u ∈ us ++ vs, prev' u = if u = next x then prev x else prev u)
    (hf : f' = if prev x = a then next x else f)
    (hl : l' = if next x = b then prev x else l) :
    Linked next' prev' a f' (us ++ vs) l' b := by
  obtain ⟨hus, hvs⟩ := h.middle
  simp only [List.mem_append, List.mem_cons, not_or] at ha hb
  obtain ⟨hndu, hndv, hdisj⟩ := List.nodup_append.mp hnd
  obtain ⟨hxv, hndv⟩ := List.nodup_cons.mp hndv
  refine linked_append.mpr ⟨prev x, next x, ?_, ?_⟩
  · refine hus.redirectExit hndu ha.1 (fun u hu => hn u (by simp [hu])) ?_ hf
    intro u hu
    have hux : u ≠ next x := by
      intro e
      rcases hvs.first_mem with hv | hv
      · exact hdisj u hu u (by simp [e, hv]) rfl
      · exact hb.1 (by rw [← hv, ← e]; exact hu)
    rw [hp u (by simp [hu]), if_neg hux]
  · refine hvs.redirectEntry hndv hb.2.2 hxv ?_ (fun u hu => hp u (by simp [hu])) hl
    intro u hu
    have hux : u ≠ prev x := by
      intro e
      rcases hus.last_mem with hm | hm
      · exact hdisj (prev x) hm u (by simp [hu]) e.symm
      · exact ha.2.2 (by rw [← hm, ← e]; exact hu)
    rw [hn u (by simp [hu]), if_neg hux]

theorem push {f' l' : α} (h : Linked next prev a f xs l b)
    (hnd : xs.Nodup) (ha : a ∉ xs) (hb : b ∉ xs)
    (hfx : f' = x) (hnx : next' x = f) (hpx : prev' x = a)
    (hn : ∀ u ∈ xs, next' u = next u)
    (hp : ∀ u ∈ xs, prev' u = if u = f then x else prev u)
    (hl : l' = if f = b then x else l) :
    Linked next' prev' a f' (x :: xs) l' b := by
  refine ⟨hfx, hpx, ?_⟩
  rw [hnx]
  exact h.redirectEntry hnd hb ha hn hp hl

end Linked

theorem length_lt_of_nodup {xs : List Nat} {n : Nat} (hnd : xs.Nodup) (h0 : 0 ∉ xs)
    (hlt : ∀ x ∈ xs, x < n) (hn : 0 < n) : xs.length < n := by
  have hnd' : (0 :: xs).Nodup := List.nodup_cons.mpr ⟨h0, hnd⟩
  have hsub : 0 :: xs ⊆ List.range n := by
    intro x hx
    rcases List.mem_cons.mp hx with rfl | hx
    · exact List.mem_range.mpr hn
    · exact List.mem_range.mpr (hlt x hx)
  have hle : xs.length + 1 ≤ (List.range n).length :=
    (List.subperm_of_subset hnd' hsub).length_le
  rwa [List.length_range] at hle

end CsappLabs.Foundation
