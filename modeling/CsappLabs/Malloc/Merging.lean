import CsappLabs.Malloc.Coalescing

/-!
# Maximal merging

`merge` joins every run of free neighbours to one block.  Marking blocks free
and merging at the end gives the same blocks as merging after each mark, so
that the order of the marks does not matter.
-/

namespace CsappLabs.Malloc

variable {l r bs : List Block} {a b d : Block} {ps qs : List Nat} {p q lo hi : Nat}

def join (b : Block) : List Block → List Block
  | [] => [b]
  | c :: cs =>
      if b.alloc = false ∧ c.alloc = false then ⟨b.ptr, b.size + c.size, false⟩ :: cs
      else b :: c :: cs

def merge : List Block → List Block
  | [] => []
  | b :: bs => join b (merge bs)

def release (ps : List Nat) (bs : List Block) : List Block :=
  bs.map fun b => if b.ptr ∈ ps then { b with alloc := false } else b

theorem join_join (ha : a.alloc = false) (hb : b.alloc = false) (xs : List Block) :
    join a (join b xs) = join ⟨a.ptr, a.size + b.size, false⟩ xs := by
  cases xs with
  | nil => simp [join, ha, hb]
  | cons c cs =>
      by_cases hc : c.alloc = false
      · simp [join, ha, hb, hc, Nat.add_assoc]
      · simp [join, ha, hb, hc]

theorem merge_of_apart (h : NoAdjacentFree bs) : merge bs = bs := by
  induction bs with
  | nil => rfl
  | cons b bs ih =>
      rw [merge, ih h.tail]
      cases bs with
      | nil => rfl
      | cons c cs =>
          have hbc := (noAdjacentFree_cons.mp h).2 c rfl
          rw [join, if_neg]
          rintro ⟨hb, hc⟩
          simp [hb, hc] at hbc

theorem merge_append (l r : List Block) : merge (l ++ r) = l.foldr join (merge r) := by
  induction l with
  | nil => rfl
  | cons b l ih => rw [List.cons_append, merge, ih, List.foldr_cons]

theorem merge_pair (l r : List Block) (ha : a.alloc = false) (hb : b.alloc = false) :
    merge (l ++ a :: b :: r) = merge (l ++ ⟨a.ptr, a.size + b.size, false⟩ :: r) := by
  rw [merge_append, merge_append, merge, merge, merge, join_join ha hb]

theorem coalesceBlocks_eq_merge (hl : NoAdjacentFree l) (hr : NoAdjacentFree r)
    (hd : d.alloc = false) : coalesceBlocks l d r = merge (l ++ d :: r) := by
  rw [← merge_of_apart (coalesceBlocks_noAdjacentFree (b := d) hl hr)]
  have hself : (⟨d.ptr, d.size, false⟩ : Block) = d := by rw [← hd]
  rcases Layout.endsAllocated_or l with hle | ⟨l, a, rfl, ha⟩
  · rcases Layout.startsAllocated_or r with hrs | ⟨c, r, rfl, hc⟩
    · rw [coalesceBlocks_none hle hrs, hself]
    · rw [coalesceBlocks_after hle hc, merge_pair l r hd hc]
  · rcases Layout.startsAllocated_or r with hrs | ⟨c, r, rfl, hc⟩
    · rw [coalesceBlocks_before ha hrs, List.append_assoc, List.singleton_append,
        merge_pair l r ha hd]
    · rw [coalesceBlocks_both ha hc, List.append_assoc, List.singleton_append,
        merge_pair l (c :: r) ha hd, merge_pair l r rfl hc]

/-! ## Marking and merging -/

theorem merge_release_join (ps : List Nat) (b : Block) (xs : List Block) :
    merge (release ps (join b xs)) = merge (release ps (b :: xs)) := by
  cases xs with
  | nil => rfl
  | cons c cs =>
      by_cases hfree : b.alloc = false ∧ c.alloc = false
      · obtain ⟨hb, hc⟩ := hfree
        have hmark : ∀ x : Block, x.alloc = false →
            (if x.ptr ∈ ps then { x with alloc := false } else x) = x := by
          intro x hx
          split
          · rw [← hx]
          · rfl
        rw [join, if_pos ⟨hb, hc⟩]
        simp only [release, List.map_cons, hmark b hb, hmark c hc, hmark ⟨_, _, false⟩ rfl]
        exact (merge_pair [] _ hb hc).symm
      · rw [join, if_neg hfree]

theorem merge_release_merge (ps : List Nat) (bs : List Block) :
    merge (release ps (merge bs)) = merge (release ps bs) := by
  induction bs with
  | nil => rfl
  | cons b bs ih =>
      have hcons : ∀ xs, release ps (b :: xs) =
          (if b.ptr ∈ ps then { b with alloc := false } else b) :: release ps xs := fun _ => rfl
      rw [merge, merge_release_join, hcons, hcons, merge, merge, ih]

theorem release_release (ps qs : List Nat) (bs : List Block) :
    release qs (release ps bs) = release (ps ++ qs) bs := by
  unfold release
  rw [List.map_map]
  refine List.map_congr_left fun b _ => ?_
  by_cases hp : b.ptr ∈ ps
  · simp [hp]
  · simp [hp]

theorem release_perm (h : ps.Perm qs) (bs : List Block) : release ps bs = release qs bs := by
  unfold release
  exact List.map_congr_left fun b _ => by simp only [h.mem_iff]

theorem Tiles.release (h : Tiles lo bs hi) (ps : List Nat) : Tiles lo (release ps bs) hi := by
  induction bs generalizing lo with
  | nil => exact h
  | cons b bs ih =>
      obtain ⟨rfl, h16, hmod, htail⟩ := h
      show Tiles b.ptr ((if b.ptr ∈ ps then { b with alloc := false } else b) ::
        Malloc.release ps bs) hi
      split
      · exact ⟨rfl, h16, hmod, ih htail⟩
      · exact ⟨rfl, h16, hmod, ih htail⟩

theorem release_middle (h : Tiles lo (l ++ d :: r) hi) :
    release [d.ptr] (l ++ d :: r) = l ++ ⟨d.ptr, d.size, false⟩ :: r := by
  obtain ⟨-, hnd, hdisj⟩ := List.nodup_append.mp h.nodup
  obtain ⟨hdr, -⟩ := List.nodup_cons.mp hnd
  have hother : ∀ c, c ∈ l ++ d :: r → c ≠ d →
      (if c.ptr ∈ [d.ptr] then { c with alloc := false } else c) = c := by
    intro c hc hne
    rw [if_neg]
    simpa using fun he => hne (h.ptr_injective hc (by simp) he)
  have hl : release [d.ptr] l = l :=
    (List.map_congr_left fun c hc =>
      hother c (by simp [hc]) fun he => hdisj c hc d (by simp) he).trans (List.map_id _)
  have hr : release [d.ptr] r = r :=
    (List.map_congr_left fun c hc =>
      hother c (by simp [hc]) fun he => hdr (he ▸ hc)).trans (List.map_id _)
  unfold release at hl hr ⊢
  rw [List.map_append, List.map_cons, hl, hr]
  simp

theorem merge_all_free (h : Tiles lo bs hi) (hne : bs ≠ []) (hfree : ∀ b ∈ bs, b.alloc = false) :
    merge bs = [⟨lo, hi - lo, false⟩] := by
  induction bs generalizing lo with
  | nil => exact absurd rfl hne
  | cons b bs ih =>
      obtain ⟨rfl, h16, -, htail⟩ := h
      have hb := hfree b (by simp)
      cases bs with
      | nil =>
          obtain rfl : b.ptr + b.size = hi := htail
          have hself : (⟨b.ptr, b.size, false⟩ : Block) = b := by rw [← hb]
          simp [merge, join, hself]
      | cons c cs =>
          have hle := htail.le
          rw [merge, ih htail (by simp) fun x hx => hfree x (by simp [hx]), join,
            if_pos ⟨hb, rfl⟩]
          congr 2
          show b.size + (hi - (b.ptr + b.size)) = hi - b.ptr
          omega

end CsappLabs.Malloc
