import CsappLabs.CacheSim.Runs
import CsappLabs.Foundation.Recency
import Mathlib.Data.List.Perm.Subperm
import Mathlib.Tactic.Tauto

/-!
# The least recently used line

The reference cache keeps the tags of a set in the order of their last use and
replaces the last one.  The simulator agrees with it as long as the line with
the least time is the one whose last access is oldest: a hit only increments
the time of its own line.
-/

namespace CsappLabs.CacheSim

open CsappLabs.Foundation

variable {g : Geometry} {sim sim' : Sim} {r : Record} {c c' d : Counters} {line : CacheLine}
  {lines lines' as bs : List CacheLine} {tag : BitVec 64} {E n N i t y : Nat}
  {us xs ys : List Nat} {p trace : List Record}

/-! ## The reference -/

/-- One access to a set, its most recently used tag first. -/
def refAccess (E t : Nat) (c : Counters) (xs : List Nat) : Counters × List Nat :=
  if t ∈ xs then ({ c with hit := c.hit + 1 }, touch t xs)
  else if xs.length < E then ({ c with miss := c.miss + 1 }, t :: xs)
  else ({ c with miss := c.miss + 1, evictions := c.evictions + 1 }, t :: xs.dropLast)

def refAccesses (E t : Nat) : Nat → Counters → List Nat → Counters × List Nat
  | 0, c, xs => (c, xs)
  | n + 1, c, xs => refAccesses E t n (refAccess E t c xs).1 (refAccess E t c xs).2

structure Reference where
  sets : Nat → List Nat
  counters : Counters

def refIndex (g : Geometry) (addr : BitVec 64) : Nat := addr.toNat / 2 ^ g.b % 2 ^ g.s

def refTag (g : Geometry) (addr : BitVec 64) : Nat := addr.toNat / 2 ^ (g.s + g.b)

def refRecord (g : Geometry) (ref : Reference) (r : Record) : Reference :=
  let i := refIndex g r.addr
  let (c, xs) := refAccesses g.E (refTag g r.addr) (accesses r) ref.counters (ref.sets i)
  ⟨fun j => if j = i then xs else ref.sets j, c⟩

def reference (g : Geometry) (trace : List Record) : Reference :=
  trace.foldl (refRecord g) ⟨fun _ => [], ⟨0, 0, 0⟩⟩

/-- The tags of the accesses to the set `i`, the last one first. -/
def used (g : Geometry) (i : Nat) (trace : List Record) : List Nat :=
  trace.foldl (fun us r =>
    if refIndex g r.addr = i then List.replicate (accesses r) (refTag g r.addr) ++ us else us) []

theorem refAccess_recency (hE : 1 ≤ E) (c : Counters) (us : List Nat) (t : Nat) :
    (refAccess E t c ((recency us).take E)).2 = (recency (t :: us)).take E := by
  obtain ⟨E, rfl⟩ := Nat.exists_eq_add_of_le' hE
  rw [refAccess, recency]
  by_cases hmem : t ∈ (recency us).take (E + 1)
  · rw [if_pos hmem, take_touch_of_mem hmem]
  · rw [if_neg hmem, take_touch_of_notMem hmem]
    by_cases hroom : ((recency us).take (E + 1)).length < E + 1
    · rw [if_pos hroom]
      rw [List.length_take] at hroom
      rw [List.take_of_length_le (by omega), List.take_of_length_le (by omega)]
    · rw [if_neg hroom]
      rw [List.length_take] at hroom
      have hmin : min (min (E + 1) (recency us).length - 1) (E + 1) = E := by omega
      rw [List.dropLast_eq_take, List.take_take, List.length_take, hmin]

theorem refAccesses_recency (hE : 1 ≤ E) (n : Nat) (c : Counters) (us : List Nat) (t : Nat) :
    (refAccesses E t n c ((recency us).take E)).2 =
      (recency (List.replicate n t ++ us)).take E := by
  induction n generalizing c us with
  | zero => rfl
  | succ n ih =>
      rw [refAccesses, refAccess_recency hE, ih, List.replicate_succ', List.append_assoc,
        List.singleton_append]

theorem reference_sets (hE : 1 ≤ g.E) (p : List Record) (i : Nat) :
    (reference g p).sets i = (recency (used g i p)).take g.E := by
  induction p using List.reverseRecOn generalizing i with
  | nil => simp [reference, used, recency]
  | append_singleton p r ih =>
      have hstep : reference g (p ++ [r]) = refRecord g (reference g p) r := by
        simp [reference]
      have hused : used g i (p ++ [r]) = if refIndex g r.addr = i then
          List.replicate (accesses r) (refTag g r.addr) ++ used g i p else used g i p := by
        simp [used]
      rw [hstep, hused]
      simp only [refRecord]
      by_cases hi : i = refIndex g r.addr
      · rw [if_pos hi, if_pos hi.symm, ← refAccesses_recency hE _ (reference g p).counters, ← hi,
          ← ih]
      · rw [if_neg hi, if_neg (Ne.symm hi), ih]

/-! ## One access -/

def tagsOf (lines : List CacheLine) : List Nat := (validTags lines).map BitVec.toNat

/-- The line whose tag was accessed longest ago is the one that the scan for
the victim finds. -/
def OldestFirst (us : List Nat) (lines : List CacheLine) : Prop :=
  ∀ as line bs, lines = as ++ line :: bs →
    (∀ l ∈ as ++ bs, lastUse us line.tag.toNat < lastUse us l.tag.toNat) → Oldest as line bs

theorem Oldest.unique {as' bs' : List CacheLine} {line' : CacheLine} (h : Oldest as line bs)
    (h' : Oldest as' line' bs') (heq : as ++ line :: bs = as' ++ line' :: bs') : line = line' := by
  cases List.append_eq_append_iff.mp heq with
  | inl hle =>
      obtain ⟨cs, rfl, hcs⟩ := hle
      cases cs with
      | nil => exact (List.cons.inj hcs).1
      | cons l cs =>
          obtain ⟨rfl, rfl⟩ := List.cons.inj hcs
          have hlt := h'.before line (by simp)
          have hge := h.behind line' (by simp)
          omega
  | inr hge =>
      obtain ⟨cs, rfl, hcs⟩ := hge
      cases cs with
      | nil => exact (List.cons.inj hcs).1.symm
      | cons l cs =>
          obtain ⟨rfl, rfl⟩ := List.cons.inj hcs
          have hlt := h.before line' (by simp)
          have hge := h'.behind line (by simp)
          omega

theorem tagsOf_valid (h : line.valid) :
    tagsOf (as ++ line :: bs) = tagsOf as ++ line.tag.toNat :: tagsOf bs := by
  rw [tagsOf, validTags_valid h, List.map_append, List.map_cons]
  rfl

theorem tagsOf_invalid (h : ¬line.valid) : tagsOf (as ++ line :: bs) = tagsOf as ++ tagsOf bs := by
  rw [tagsOf, validTags_invalid h, List.map_append]
  rfl

theorem mem_tagsOf : t ∈ tagsOf lines ↔ ∃ l ∈ lines, l.valid ∧ l.tag.toNat = t := by
  simp only [tagsOf, List.mem_map, mem_validTags, Has]
  constructor
  · rintro ⟨tag, ⟨l, hl, htag, hv⟩, ht⟩
    exact ⟨l, hl, hv, htag ▸ ht⟩
  · rintro ⟨l, hl, hv, ht⟩
    exact ⟨l.tag, ⟨l, hl, rfl, hv⟩, ht⟩

theorem toNat_mem_tagsOf : tag.toNat ∈ tagsOf lines ↔ tag ∈ validTags lines := by
  rw [tagsOf, List.mem_map]
  constructor
  · rintro ⟨tag', hmem, heq⟩
    exact BitVec.eq_of_toNat_eq heq ▸ hmem
  · exact fun hmem => ⟨tag, hmem, rfl⟩

theorem SetOk.nodup_tagsOf (h : SetOk E N lines) : (tagsOf lines).Nodup :=
  h.tags.map fun _ _ => BitVec.eq_of_toNat_eq

/-- In a full set with the tags of the reference the victim is the reference's
exactly when the lines are in order. -/
theorem victim_iff (hold : Oldest as line bs) (hfull : ∀ l ∈ as ++ line :: bs, l.valid)
    (hset : SetOk E N (as ++ line :: bs))
    (hperm : (tagsOf (as ++ line :: bs)).Perm (ys ++ [y]))
    (hlast : ∀ z ∈ ys, lastUse us y < lastUse us z) :
    line.tag.toNat = y ↔ OldestFirst us (as ++ line :: bs) := by
  have hmem : ∀ l ∈ as ++ line :: bs, l.tag.toNat ∈ ys ∨ l.tag.toNat = y := by
    intro l hl
    have hl' := hperm.mem_iff.mp (mem_tagsOf.mpr ⟨l, hl, hfull l hl, rfl⟩)
    simpa using hl'
  constructor
  · rintro rfl as' line' bs' heq hfirst
    -- no other line can be the one that was accessed longest ago
    have hnot : line' ∈ as ++ line :: bs → line ∉ as' ++ bs' := by
      intro hl hline
      have hlt := hfirst line hline
      cases hmem line' hl with
      | inl hys => exact absurd (hlast _ hys) (Nat.lt_asymm hlt)
      | inr he => exact absurd hlt (he ▸ Nat.lt_irrefl _)
    cases List.append_eq_append_iff.mp heq with
    | inl hle =>
        obtain ⟨cs, rfl, hcs⟩ := hle
        cases cs with
        | nil =>
            obtain ⟨rfl, rfl⟩ := List.cons.inj hcs
            simpa using hold
        | cons l cs =>
            obtain ⟨rfl, rfl⟩ := List.cons.inj hcs
            exact absurd (by simp) (hnot (by simp))
    | inr hge =>
        obtain ⟨cs, rfl, hcs⟩ := hge
        cases cs with
        | nil =>
            obtain ⟨rfl, rfl⟩ := List.cons.inj hcs
            simpa using hold
        | cons l cs =>
            obtain ⟨rfl, rfl⟩ := List.cons.inj hcs
            exact absurd (by simp) (hnot (by simp))
  · intro hord
    obtain ⟨l, hl, hvalid, htag⟩ := mem_tagsOf.mp (hperm.mem_iff.mpr (by simp : y ∈ ys ++ [y]))
    obtain ⟨as', bs', heq⟩ := List.append_of_mem hl
    have hnd : y ∉ tagsOf as' ++ tagsOf bs' := by
      have hnodup := hset.nodup_tagsOf
      rw [heq, tagsOf_valid hvalid, htag] at hnodup
      exact (List.nodup_cons.mp (List.nodup_middle.mp hnodup)).1
    have hfirst : Oldest as' l bs' := by
      apply hord as' l bs' heq
      intro m hm
      have hm' : m ∈ as ++ line :: bs := by
        rw [heq]
        simp only [List.mem_append, List.mem_cons] at hm ⊢
        tauto
      rw [htag]
      cases hmem m hm' with
      | inl hys => exact hlast _ hys
      | inr he =>
          apply absurd _ hnd
          have hval := hfull m hm'
          cases List.mem_append.mp hm with
          | inl ha => exact List.mem_append_left _ (mem_tagsOf.mpr ⟨m, ha, hval, he⟩)
          | inr hb => exact List.mem_append_right _ (mem_tagsOf.mpr ⟨m, hb, hval, he⟩)
    rw [hold.unique hfirst heq, htag]

/-- One access changes the counters as the reference does, and keeps the tags
of the reference unless it evicts from a set that is not in order. -/
theorem Accessed.refAccess (h : Accessed N tag c lines c' lines') (hE : 1 ≤ E)
    (hset : SetOk E N lines) (hperm : (tagsOf lines).Perm ((recency us).take E)) :
    c' = (CacheSim.refAccess E tag.toNat c ((recency us).take E)).1 ∧
      ((tagsOf lines').Perm (CacheSim.refAccess E tag.toNat c ((recency us).take E)).2 ↔
        (tag ∉ validTags lines → (∀ l ∈ lines, l.valid) → OldestFirst us lines)) := by
  have hmem : tag.toNat ∈ (recency us).take E ↔ tag ∈ validTags lines :=
    hperm.mem_iff.symm.trans toNat_mem_tagsOf
  cases h with
  | hit as line bs has =>
      have hstored : tag ∈ validTags (as ++ line :: bs) := mem_validTags.mpr ⟨line, by simp, has⟩
      rw [CacheSim.refAccess, if_pos (hmem.mpr hstored)]
      refine ⟨rfl, fun _ hnot => absurd hstored hnot, fun _ => ?_⟩
      rw [tagsOf, validTags_time]
      exact hperm.trans (touch_perm (hmem.mpr hstored))
  | fill as line bs recent miss oldest empty bound =>
      have hlen : (tagsOf (as ++ line :: bs)).length < E := by
        rw [tagsOf_invalid empty, ← hset.length]
        have hlt : (tagsOf as ++ tagsOf bs).length ≤ as.length + bs.length := by
          simp only [tagsOf, validTags, List.length_append, List.length_map]
          exact Nat.add_le_add (List.length_filter_le _ _) (List.length_filter_le _ _)
        simp only [List.length_append, List.length_cons] at hlt ⊢
        omega
      rw [hperm.length_eq] at hlen
      rw [CacheSim.refAccess, if_neg (fun hm => miss (hmem.mp hm)), if_pos hlen]
      refine ⟨rfl, fun _ _ hfull => absurd (hfull line (by simp)) empty, fun _ => ?_⟩
      rw [tagsOf_invalid empty] at hperm
      rw [tagsOf_valid rfl]
      exact List.perm_middle.trans (hperm.cons _)
  | evict as line bs recent miss oldest full bound =>
      have hlen : (tagsOf (as ++ line :: bs)).length = E := by
        rw [tagsOf, List.length_map, validTags, List.length_map, List.filter_eq_self.mpr full,
          hset.length]
      rw [hperm.length_eq] at hlen
      obtain ⟨ys, y, hys⟩ := (List.eq_nil_or_concat' ((recency us).take E)).resolve_left (by
        intro hnil
        rw [hnil, List.length_nil] at hlen
        omega)
      have hlast : ∀ z ∈ ys, lastUse us y < lastUse us z := by
        intro z hz
        have hpair := (pairwise_recency us).sublist (List.take_sublist E _)
        rw [hys] at hpair
        exact (List.pairwise_append.mp hpair).2.2 z hz y (by simp)
      rw [CacheSim.refAccess, if_neg (fun hm => miss (hmem.mp hm)), if_neg (by omega)]
      refine ⟨rfl, ?_⟩
      rw [hys] at hperm
      have hiff := victim_iff oldest full hset hperm hlast
      have hvalid := full line (by simp)
      have hnew : (tagsOf (as ++ ⟨tag, recent + 1, true⟩ :: bs)).Perm (tag.toNat :: ys) ↔
          line.tag.toNat = y := by
        have hnd := hset.nodup_tagsOf
        rw [tagsOf_valid hvalid] at hperm hnd
        rw [tagsOf_valid rfl]
        have hold : (line.tag.toNat :: (tagsOf as ++ tagsOf bs)).Perm (y :: ys) :=
          List.perm_middle.symm.trans (hperm.trans (List.perm_append_singleton y ys))
        constructor
        · intro hp
          have hrest := (List.perm_middle.symm.trans hp).cons_inv
          have hsame := hold.trans (hrest.symm.cons y)
          have hv := hsame.mem_iff.mp List.mem_cons_self
          exact (List.mem_cons.mp hv).resolve_right
            (List.nodup_cons.mp (List.nodup_middle.mp hnd)).1
        · rintro rfl
          exact List.perm_middle.trans (hold.cons_inv.cons _)
      rw [hys, List.dropLast_concat, hnew, hiff]
      exact ⟨fun h _ _ => h, fun h => h miss full⟩

/-! ## One record -/

theorem touch_head (t : Nat) (xs : List Nat) : touch t (t :: xs) = t :: xs := by
  simp [touch]

theorem refAccess_again (E t : Nat) (c d : Counters) (xs : List Nat) :
    CacheSim.refAccess E t d (CacheSim.refAccess E t c xs).2 =
      ({ d with hit := d.hit + 1 }, (CacheSim.refAccess E t c xs).2) := by
  have hhead : ∃ zs, (CacheSim.refAccess E t c xs).2 = t :: zs := by
    simp only [CacheSim.refAccess, touch]
    split
    · exact ⟨_, rfl⟩
    · split <;> exact ⟨_, rfl⟩
  obtain ⟨zs, hzs⟩ := hhead
  rw [hzs]
  simp [CacheSim.refAccess, touch_head]

theorem refAccesses_again (E t n : Nat) (c d : Counters) (xs : List Nat) :
    refAccesses E t n d (CacheSim.refAccess E t c xs).2 =
      ({ d with hit := d.hit + n }, (CacheSim.refAccess E t c xs).2) := by
  induction n generalizing d with
  | zero => rfl
  | succ n ih =>
      rw [refAccesses, refAccess_again, ih]
      simp [Nat.add_assoc, Nat.add_comm 1]

theorem Accesses.again (h : Accesses tag n N c lines c' lines') (hs : tag ∈ validTags lines) :
    c' = { c with hit := c.hit + n } ∧ validTags lines' = validTags lines := by
  induction h with
  | nil => exact ⟨rfl, rfl⟩
  | cons first rest ih =>
      obtain ⟨rfl, htags⟩ := first.hit_of_stored hs
      obtain ⟨rfl, htags'⟩ := ih (htags ▸ hs)
      exact ⟨by simp [Nat.add_assoc, Nat.add_comm 1], htags'.trans htags⟩

theorem Accesses.refAccesses (h : Accesses tag n N c lines c' lines') (hE : 1 ≤ E)
    (hset : SetOk E N lines) (hperm : (tagsOf lines).Perm ((recency us).take E)) :
    c' = (CacheSim.refAccesses E tag.toNat n c ((recency us).take E)).1 ∧
      ((tagsOf lines').Perm (CacheSim.refAccesses E tag.toNat n c ((recency us).take E)).2 ↔
        (n ≠ 0 → tag ∉ validTags lines → (∀ l ∈ lines, l.valid) → OldestFirst us lines)) := by
  cases h with
  | nil => exact ⟨rfl, fun _ hn => absurd rfl hn, fun _ => hperm⟩
  | cons first rest =>
      obtain ⟨rfl, hiff⟩ := first.refAccess hE hset hperm
      obtain ⟨rfl, htags⟩ := rest.again first.stored
      rw [CacheSim.refAccesses, refAccesses_again]
      have hsame : tagsOf lines' = tagsOf _ := congrArg (List.map BitVec.toNat) htags
      rw [hsame]
      exact ⟨rfl, hiff.trans ⟨fun h _ => h, fun h => h (Nat.succ_ne_zero _)⟩⟩

end CsappLabs.CacheSim
