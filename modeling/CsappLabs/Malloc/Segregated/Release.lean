import CsappLabs.Malloc.Segregated.Bounds

/-!
# The order in which blocks are freed

After a sequence of `mm_free` calls the blocks are those of the heap before,
with the freed ones marked and all free neighbours merged.  The lists may
differ between two orders, the tiling does not.
-/

open CsappLabs.Foundation

namespace CsappLabs.Malloc.Segregated

variable {s₀ s₁ : State} {w : World State} {bs : List Block} {ps qs : List Nat} {base : Nat}

def freeAll (w : World State) (ps : List Nat) : Option (World State) :=
  w.play allocator (fun _ _ => True) (ps.map .free)

theorem freeAll_cons {w' : World State} {p : Nat} (hlive : ∃ r ∈ w.live, r.ptr = p)
    (he : w.exec allocator (.free p) = some w') (ps : List Nat) :
    freeAll w (p :: ps) = freeAll w' ps := by
  have hv : w.Valid (.free p) := hlive
  simp only [freeAll, List.map_cons, World.play, hv, and_self, if_true, he, Option.bind_some]

theorem free_consistent {p : Nat} (h : Consistent (Sound base) w bs)
    (hlive : ∃ r ∈ w.live, r.ptr = p) :
    ∃ w', w.exec allocator (.free p) = some w' ∧ w'.live = w.others p ∧
      Consistent (Sound base) w' (merge (release [p] bs)) := by
  obtain ⟨r, hr, rfl⟩ := hlive
  obtain ⟨d, hd, ha, hp, -⟩ := h.held r hr
  rw [← hp]
  obtain ⟨s', heq, -, heff, -⟩ := h.inv.free_blocks hd ha
  have hcall : allocator.mmFree w.heap d.ptr = some s' := heq
  have hcons := h.effect (refines base) heff (n := 0) (by simp)
  exact ⟨⟨s', w.others d.ptr⟩, by simp [World.exec, hcall], rfl, by simpa [keptLive] using hcons⟩

theorem freeAll_consistent (h : Consistent (Sound base) w bs) (hnd : ps.Nodup)
    (hlive : ∀ p ∈ ps, ∃ r ∈ w.live, r.ptr = p) :
    ∃ w', freeAll w ps = some w' ∧ Consistent (Sound base) w' (merge (release ps bs)) := by
  induction ps generalizing w bs with
  | nil =>
      have hself : release [] bs = bs := by simp [release]
      rw [hself, merge_of_apart h.inv.apart]
      exact ⟨w, rfl, h⟩
  | cons p ps ih =>
      obtain ⟨hp, hnd⟩ := List.nodup_cons.mp hnd
      obtain ⟨w₁, he, hlive₁, hcons₁⟩ := free_consistent h (hlive p (by simp))
      have hrest : ∀ q ∈ ps, ∃ r ∈ w₁.live, r.ptr = q := by
        intro q hq
        obtain ⟨r, hr, rfl⟩ := hlive q (by simp [hq])
        refine ⟨r, ?_, rfl⟩
        rw [hlive₁]
        exact World.mem_others.mpr ⟨hr, fun e => hp (e ▸ hq)⟩
      obtain ⟨w', hall, hcons'⟩ := ih hcons₁ hnd hrest
      refine ⟨w', by rw [freeAll_cons (hlive p (by simp)) he, hall], ?_⟩
      rwa [merge_release_merge, release_release] at hcons'

structure SameTiling (s s' : State) (bs : List Block) : Prop where
  left : WellFormed s bs
  right : WellFormed s' bs
  header : ∀ b ∈ bs, load s.mem (hdrp b.ptr) = load s'.mem (hdrp b.ptr)
  footer : ∀ b ∈ bs, load s.mem (ftrp s.mem b.ptr) = load s'.mem (ftrp s'.mem b.ptr)

theorem Sound.sameTiling {s s' : State} (h : Sound base s bs) (h' : Sound base s' bs) :
    SameTiling s s' bs where
  left := h.wellFormed
  right := h'.wellFormed
  header b hb := (h.heap.layout.tagged b hb).1.trans (h'.heap.layout.tagged b hb).1.symm
  footer b hb := by
    rw [h.heap.layout.ftrp_eq hb, h'.heap.layout.ftrp_eq hb]
    exact (h.heap.layout.tagged b hb).2.trans (h'.heap.layout.tagged b hb).2.symm

/-- Freeing in any two orders leaves the same tiling; freeing everything
leaves a single free block. -/
theorem free_order (h₀ : Fresh base s₀) (hinit : mmInit s₀ = some (s₁, 0))
    (hrun : Reach allocator (fun _ _ => True) ⟨s₁, []⟩ w) (hnd : ps.Nodup)
    (hlive : ∀ p ∈ ps, ∃ r ∈ w.live, r.ptr = p) (hperm : ps.Perm qs) :
    ∃ w₁ w₂ bs, freeAll w ps = some w₁ ∧ freeAll w qs = some w₂ ∧
      SameTiling w₁.heap w₂.heap bs ∧
      ((∀ r ∈ w.live, r.ptr ∈ ps) → ∃ b, bs = [b] ∧ b.alloc = false) := by
  obtain ⟨bs, hcons⟩ := run_consistent h₀ hinit hrun
  obtain ⟨w₁, heq₁, hcons₁⟩ := freeAll_consistent hcons hnd hlive
  obtain ⟨w₂, heq₂, hcons₂⟩ := freeAll_consistent hcons (hperm.nodup_iff.mp hnd)
    fun q hq => hlive q (hperm.mem_iff.mpr hq)
  rw [← release_perm hperm] at hcons₂
  refine ⟨w₁, w₂, _, heq₁, heq₂, hcons₁.inv.sameTiling hcons₂.inv, fun hall => ?_⟩
  have hfree : ∀ b ∈ release ps bs, b.alloc = false := by
    intro b hb
    obtain ⟨c, hc, rfl⟩ := List.mem_map.mp hb
    by_cases ha : c.alloc = true
    · obtain ⟨r, hr, hp⟩ := hcons.live c hc ha
      rw [if_pos (hp ▸ hall r hr)]
    · split
      · rfl
      · simpa using ha
  have hne : bs ≠ [] := by
    obtain ⟨s', heq, -, hbrk, -⟩ := mmInit_stores h₀
    obtain rfl : s₁ = s' := congrArg Prod.fst (Option.some.inj (hinit.symm.trans heq))
    have hgrown := (run_grown h₀ hinit hrun).memBrk_le
    rintro rfl
    have hends : w.heap.heapListp + 8 = w.heap.memBrk := hcons.inv.heap.layout.tiles
    have hbase := hcons.inv.heap.base
    have hstart := hcons.inv.start
    omega
  obtain ⟨lo, hi, htiles⟩ : ∃ lo hi, Tiles lo (release ps bs) hi :=
    ⟨_, _, hcons.inv.heap.layout.tiles.release ps⟩
  exact ⟨_, merge_all_free htiles (by simpa [release] using hne) hfree, rfl⟩

theorem free_order_arena :
    ∃ w w₁ w₂ bs, w.live = [⟨8096, 200⟩, ⟨4208, 30⟩, ⟨4176, 8⟩] ∧
      freeAll w [4176, 8096, 4208] = some w₁ ∧ freeAll w [4208, 4176, 8096] = some w₂ ∧
      SameTiling w₁.heap w₂.heap bs ∧ ∃ b, bs = [b] ∧ b.alloc = false := by
  obtain ⟨s₁, w, hinit, hrun, hlive⟩ := arena_run [.malloc 8, .malloc 30, .malloc 200]
    [⟨8096, 200⟩, ⟨4208, 30⟩, ⟨4176, 8⟩] (by decide +kernel)
  have hperm : [4176, 8096, 4208].Perm [4208, 4176, 8096] := by decide
  obtain ⟨w₁, w₂, bs, h₁, h₂, hsame, hall⟩ :=
    free_order arena_fresh hinit hrun (by decide) (by simp [hlive]) hperm
  exact ⟨w, w₁, w₂, bs, hlive, h₁, h₂, hsame, hall (by simp [hlive])⟩

end CsappLabs.Malloc.Segregated
