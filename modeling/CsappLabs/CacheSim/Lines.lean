import CsappLabs.CacheSim.Model
import Mathlib.Data.List.Nodup
import Mathlib.Tactic.Tauto

/-!
# One access to one set

What `load_in_cache` does to the lines of a set: it finds a line with the tag,
or it replaces the first line whose time is least.
-/

namespace CsappLabs.CacheSim

variable {c c' : Counters} {lines lines' as bs : List CacheLine} {line l : CacheLine}
  {tag : BitVec 64} {E n N : Nat} {v : Scan}

structure Oldest (as : List CacheLine) (line : CacheLine) (bs : List CacheLine) : Prop where
  before : ∀ l ∈ as, line.time < l.time
  behind : ∀ l ∈ bs, line.time ≤ l.time

theorem Oldest.le (h : Oldest as line bs) (hl : l ∈ as ++ line :: bs) : line.time ≤ l.time := by
  cases List.mem_append.mp hl with
  | inl ha => exact Nat.le_of_lt (h.before l ha)
  | inr hb =>
      cases List.mem_cons.mp hb with
      | inl he => exact he ▸ Nat.le_refl _
      | inr hb => exact h.behind l hb

/-- What the loop has found in the lines that it has read. -/
structure Scanned (lines : List CacheLine) (v : Scan) : Prop where
  victim : lines = [] ∧ v.oldestTime = uint64Max ∨
    ∃ as line bs, lines = as ++ line :: bs ∧ v.oldestBlock = as.length ∧
      v.oldestTime = line.time ∧ Oldest as line bs
  recent : ∀ l ∈ lines, l.time ≤ v.recentTime
  attained : v.recentTime = 0 ∨ ∃ l ∈ lines, l.time = v.recentTime

theorem Scanned.init : Scanned [] ⟨uint64Max, uint64Max, 0⟩ :=
  ⟨.inl ⟨rfl, rfl⟩, by simp, .inl rfl⟩

theorem scanLine_recentTime (v : Scan) (i : Nat) (line : CacheLine) :
    (scanLine v i line).recentTime = max v.recentTime line.time := by
  have hsame : (if line.time < v.oldestTime then (⟨line.time, i, v.recentTime⟩ : Scan)
      else v).recentTime = v.recentTime := by
    split <;> rfl
  simp only [scanLine, hsame]
  split
  · next hlt => exact (Nat.max_eq_right (Nat.le_of_lt hlt)).symm
  · next hlt => rw [hsame, Nat.max_eq_left (Nat.le_of_not_lt hlt)]

theorem Scanned.step (h : Scanned lines v) (hline : line.time < uint64Max) :
    Scanned (lines ++ [line]) (scanLine v lines.length line) where
  victim := by
    right
    cases h.victim with
    | inl hempty =>
        obtain ⟨rfl, hmax⟩ := hempty
        refine ⟨[], line, [], rfl, ?_, ?_, by simp, by simp⟩ <;>
          simp only [scanLine, hmax, if_pos hline] <;> split <;> rfl
    | inr hold =>
        obtain ⟨as, old, bs, rfl, hblock, htime, hold⟩ := hold
        by_cases hlt : line.time < v.oldestTime
        · refine ⟨as ++ old :: bs, line, [], rfl, ?_, ?_, fun l hl => ?_, by simp⟩
          · simp only [scanLine, if_pos hlt]
            split <;> rfl
          · simp only [scanLine, if_pos hlt]
            split <;> rfl
          · rw [htime] at hlt
            exact Nat.lt_of_lt_of_le hlt (hold.le hl)
        · refine ⟨as, old, bs ++ [line], by simp, ?_, ?_, hold.before, fun l hl => ?_⟩
          · simp only [scanLine, if_neg hlt]
            split <;> exact hblock
          · simp only [scanLine, if_neg hlt]
            split <;> exact htime
          · cases List.mem_append.mp hl with
            | inl hb => exact hold.behind l hb
            | inr hb =>
                rw [List.mem_singleton.mp hb, ← htime]
                exact Nat.le_of_not_lt hlt
  recent l hl := by
    rw [scanLine_recentTime]
    cases List.mem_append.mp hl with
    | inl ha => exact Nat.le_trans (h.recent l ha) (Nat.le_max_left _ _)
    | inr hb => exact List.mem_singleton.mp hb ▸ Nat.le_max_right _ _
  attained := by
    rw [scanLine_recentTime]
    cases Nat.le_total line.time v.recentTime with
    | inl hle =>
        rw [Nat.max_eq_left hle]
        cases h.attained with
        | inl hzero => exact .inl hzero
        | inr hl =>
            obtain ⟨l, hl, heq⟩ := hl
            exact .inr ⟨l, List.mem_append_left _ hl, heq⟩
    | inr hle =>
        rw [Nat.max_eq_right hle]
        exact .inr ⟨line, by simp, rfl⟩

theorem scan_spec (h : Scanned as v) (hbs : ∀ l ∈ bs, l.time < uint64Max) :
    ∃ v', scan (as ++ bs) bs.length as.length v = some v' ∧ Scanned (as ++ bs) v' := by
  induction bs generalizing as v with
  | nil => exact ⟨v, rfl, by simpa using h⟩
  | cons line bs ih =>
      have hnext := h.step (hbs line (by simp))
      obtain ⟨v', heq, hv'⟩ := ih hnext fun l hl => hbs l (List.mem_cons_of_mem _ hl)
      rw [List.append_assoc, List.singleton_append] at heq hv'
      refine ⟨v', ?_, hv'⟩
      rw [List.length_append, List.length_singleton] at heq
      simp only [List.length_cons, scan, List.getElem?_append_right (Nat.le_refl _),
        Nat.sub_self, List.getElem?_cons_zero]
      exact heq

def Has (tag : BitVec 64) (line : CacheLine) : Prop := line.tag = tag ∧ line.valid

theorem findHit_spec (as bs : List CacheLine) (tag : BitVec 64) :
    findHit (as ++ bs) tag bs.length as.length = some none ∧ (∀ l ∈ bs, ¬Has tag l) ∨
      ∃ cs line ds, bs = cs ++ line :: ds ∧ Has tag line ∧ (∀ l ∈ cs, ¬Has tag l) ∧
        findHit (as ++ bs) tag bs.length as.length = some (some (as ++ cs).length) := by
  induction bs generalizing as with
  | nil => exact .inl ⟨rfl, by simp⟩
  | cons line bs ih =>
      have hget : (as ++ line :: bs)[as.length]? = some line := by
        rw [List.getElem?_append_right (Nat.le_refl _), Nat.sub_self, List.getElem?_cons_zero]
      by_cases hhas : Has tag line
      · refine .inr ⟨[], line, bs, rfl, hhas, by simp, ?_⟩
        simp only [List.length_cons, findHit, hget, bind, Option.bind, List.append_nil]
        exact if_pos hhas
      · have hnext : findHit (as ++ line :: bs) tag (line :: bs).length as.length =
            findHit ((as ++ [line]) ++ bs) tag bs.length (as ++ [line]).length := by
          rw [List.append_assoc, List.singleton_append, List.length_append, List.length_singleton]
          simp only [List.length_cons, findHit, hget, bind, Option.bind]
          exact if_neg hhas
        rw [hnext]
        cases ih (as ++ [line]) with
        | inl hmiss =>
            refine .inl ⟨hmiss.1, fun l hl => ?_⟩
            cases List.mem_cons.mp hl with
            | inl he => exact he ▸ hhas
            | inr hl => exact hmiss.2 l hl
        | inr hhit =>
            obtain ⟨cs, found, ds, rfl, hfound, hcs, heq⟩ := hhit
            refine .inr ⟨line :: cs, found, ds, rfl, hfound, fun l hl => ?_, ?_⟩
            · cases List.mem_cons.mp hl with
              | inl he => exact he ▸ hhas
              | inr hl => exact hcs l hl
            · rw [heq, List.append_assoc, List.singleton_append]

/-! ## The call -/

def validTags (lines : List CacheLine) : List (BitVec 64) :=
  (lines.filter (·.valid)).map (·.tag)

theorem mem_validTags : tag ∈ validTags lines ↔ ∃ l ∈ lines, Has tag l := by
  simp only [validTags, List.mem_map, List.mem_filter, Has]
  constructor
  · rintro ⟨l, ⟨hl, hv⟩, ht⟩
    exact ⟨l, hl, ht, hv⟩
  · rintro ⟨l, hl, ht, hv⟩
    exact ⟨l, ⟨hl, hv⟩, ht⟩

theorem validTags_append (as bs : List CacheLine) :
    validTags (as ++ bs) = validTags as ++ validTags bs := by
  simp [validTags]

theorem validTags_valid (h : line.valid) :
    validTags (as ++ line :: bs) = validTags as ++ line.tag :: validTags bs := by
  rw [validTags_append]
  simp [validTags, h]

theorem validTags_time (as : List CacheLine) (line : CacheLine) (bs : List CacheLine) (time : Nat) :
    validTags (as ++ { line with time := time } :: bs) = validTags (as ++ line :: bs) := by
  rw [validTags_append, validTags_append]
  cases hv : line.valid <;> simp [validTags, hv]

theorem validTags_invalid (h : ¬line.valid) :
    validTags (as ++ line :: bs) = validTags as ++ validTags bs := by
  rw [validTags_append]
  simp [validTags, h]

/-- A set of `E` lines after at most `N` accesses. -/
structure SetOk (E N : Nat) (lines : List CacheLine) : Prop where
  length : lines.length = E
  valid : ∀ l ∈ lines, l.valid = true ↔ l.time ≠ 0
  times : ∀ l ∈ lines, l.time ≤ N
  tags : (validTags lines).Nodup

/-- What one call of `load_in_cache` does. -/
inductive Accessed (N : Nat) (tag : BitVec 64) (c : Counters) :
    List CacheLine → Counters → List CacheLine → Prop
  | hit (as : List CacheLine) (line : CacheLine) (bs : List CacheLine) (has : Has tag line) :
      Accessed N tag c (as ++ line :: bs) { c with hit := c.hit + 1 }
        (as ++ { line with time := line.time + 1 } :: bs)
  | fill (as : List CacheLine) (line : CacheLine) (bs : List CacheLine) (recent : Nat)
      (miss : tag ∉ validTags (as ++ line :: bs)) (oldest : Oldest as line bs)
      (empty : ¬line.valid) (bound : recent ≤ N) :
      Accessed N tag c (as ++ line :: bs) { c with miss := c.miss + 1 }
        (as ++ ⟨tag, recent + 1, true⟩ :: bs)
  | evict (as : List CacheLine) (line : CacheLine) (bs : List CacheLine) (recent : Nat)
      (miss : tag ∉ validTags (as ++ line :: bs)) (oldest : Oldest as line bs)
      (full : ∀ l ∈ as ++ line :: bs, l.valid) (bound : recent ≤ N) :
      Accessed N tag c (as ++ line :: bs)
        { c with miss := c.miss + 1, evictions := c.evictions + 1 }
        (as ++ ⟨tag, recent + 1, true⟩ :: bs)

theorem set_middle (as : List CacheLine) (line new : CacheLine) (bs : List CacheLine) :
    (as ++ line :: bs).set as.length new = as ++ new :: bs := by
  simp

theorem get_middle (as : List CacheLine) (line : CacheLine) (bs : List CacheLine) :
    (as ++ line :: bs)[as.length]? = some line := by
  simp

theorem signExtend_toNat {x : BitVec 32} (h : x.toNat < 2 ^ 31) :
    (x.signExtend 64).toNat = x.toNat := by
  have hmsb : x.msb = false := BitVec.msb_eq_false_iff_two_mul_lt.mpr (by omega)
  rw [BitVec.signExtend_eq_setWidth_of_msb_false hmsb, BitVec.toNat_setWidth]
  exact Nat.mod_eq_of_lt (by omega)

theorem loadInCache_spec (c : Counters) (h : SetOk E N lines) (hE : 1 ≤ E) (hE' : E < 2 ^ 31)
    (hN : N < uint64Max) (tag : BitVec 32) :
    ∃ c' lines', loadInCache c lines (BitVec.ofNat 32 E) tag = some (c', lines') ∧
      Accessed N (tag.signExtend 64) c lines c' lines' := by
  have hlen : ((BitVec.ofNat 32 E).signExtend 64).toNat = lines.length := by
    rw [signExtend_toNat, BitVec.toNat_ofNat, h.length]
    · exact Nat.mod_eq_of_lt (by omega)
    · rw [BitVec.toNat_ofNat]
      omega
  have hmod : ∀ n, n ≤ N → (n + 1) % 2 ^ 64 = n + 1 := by
    intro n hn
    apply Nat.mod_eq_of_lt
    have hmax : uint64Max = 2 ^ 64 - 1 := rfl
    omega
  cases findHit_spec [] lines (tag.signExtend 64) with
  | inr hhit =>
      obtain ⟨as, line, bs, rfl, hhas, -, heq⟩ := hhit
      have htime : line.time ≤ N := h.times line (by simp)
      refine ⟨_, _, ?_, .hit as line bs hhas⟩
      rw [List.nil_append, List.nil_append, List.length_nil] at heq
      simp only [loadInCache, hlen, heq, get_middle, set_middle, hmod _ htime, bind, Option.bind]
  | inl hmiss =>
      have hnone := hmiss.1
      rw [List.nil_append, List.length_nil] at hnone
      have hnot : tag.signExtend 64 ∉ validTags lines := by
        intro hmem
        obtain ⟨l, hl, hhas⟩ := mem_validTags.mp hmem
        exact hmiss.2 l hl hhas
      obtain ⟨v, hscan, hv⟩ := scan_spec Scanned.init fun l hl =>
        Nat.lt_of_le_of_lt (h.times l hl) hN
      rw [List.nil_append, List.length_nil] at hscan
      rw [List.nil_append] at hv
      have hrecent : v.recentTime ≤ N := by
        cases hv.attained with
        | inl hzero => exact hzero ▸ Nat.zero_le N
        | inr hl =>
            obtain ⟨l, hl, heq⟩ := hl
            exact heq ▸ h.times l hl
      cases hv.victim with
      | inl hempty =>
          have hzero := h.length
          rw [hempty.1, List.length_nil] at hzero
          omega
      | inr hvictim =>
          obtain ⟨as, line, bs, rfl, hblock, -, hold⟩ := hvictim
          by_cases hvalid : line.valid
          · refine ⟨_, _, ?_, .evict as line bs v.recentTime hnot hold ?_ hrecent⟩
            · simp only [loadInCache, hlen, hnone, hscan, hblock, get_middle, set_middle, hvalid,
                hmod _ hrecent, bind, Option.bind, if_true]
            · intro l hl
              have hpos := (h.valid line (by simp)).mp hvalid
              have hle := hold.le hl
              exact (h.valid l hl).mpr (by omega)
          · refine ⟨_, _, ?_, .fill as line bs v.recentTime hnot hold hvalid hrecent⟩
            simp only [loadInCache, hlen, hnone, hscan, hblock, get_middle, set_middle, hvalid,
              hmod _ hrecent, bind, Option.bind]
            rfl

namespace Accessed

theorem total (h : Accessed N tag c lines c' lines') :
    c'.hit + c'.miss = c.hit + c.miss + 1 := by
  cases h <;> simp only [] <;> omega

theorem mono (h : Accessed N tag c lines c' lines') :
    c.hit ≤ c'.hit ∧ c.miss ≤ c'.miss ∧ c.evictions ≤ c'.evictions := by
  cases h <;> simp

theorem evictions_le (h : Accessed N tag c lines c' lines') (hle : c.evictions ≤ c.miss) :
    c'.evictions ≤ c'.miss := by
  cases h with
  | hit => exact hle
  | fill => exact Nat.le_succ_of_le hle
  | evict => exact Nat.succ_le_succ hle

theorem charge (h : Accessed N tag c lines c' lines') :
    (validTags lines').length + c'.evictions + c.miss =
      (validTags lines).length + c.evictions + c'.miss := by
  cases h with
  | hit as line bs has =>
      rw [validTags_time]
  | fill as line bs recent miss oldest empty bound =>
      rw [validTags_invalid empty, validTags_valid rfl]
      simp only [List.length_append, List.length_cons]
      omega
  | evict as line bs recent miss oldest full bound =>
      rw [validTags_valid (full line (by simp)), validTags_valid rfl]
      simp only [List.length_append, List.length_cons]
      omega

theorem full_of_eviction (h : Accessed N tag c lines c' lines')
    (he : c'.evictions ≠ c.evictions) : ∀ l ∈ lines, l.valid := by
  cases h with
  | hit => exact absurd rfl he
  | fill => exact absurd rfl he
  | evict as line bs recent miss oldest full bound => exact full

theorem stored (h : Accessed N tag c lines c' lines') : tag ∈ validTags lines' := by
  cases h with
  | hit as line bs has =>
      rw [validTags_time]
      exact mem_validTags.mpr ⟨line, by simp, has⟩
  | fill as line bs recent miss oldest empty bound =>
      rw [validTags_valid rfl]
      exact List.mem_append_right _ List.mem_cons_self
  | evict as line bs recent miss oldest full bound =>
      rw [validTags_valid rfl]
      exact List.mem_append_right _ List.mem_cons_self

theorem hit_of_stored (h : Accessed N tag c lines c' lines') (hs : tag ∈ validTags lines) :
    c' = { c with hit := c.hit + 1 } ∧ validTags lines' = validTags lines := by
  cases h with
  | hit as line bs has =>
      exact ⟨rfl, validTags_time _ _ _ _⟩
  | fill as line bs recent miss => exact absurd hs miss
  | evict as line bs recent miss => exact absurd hs miss

theorem middle (h : Accessed N tag c lines c' lines') :
    ∃ as line new bs, lines = as ++ line :: bs ∧ lines' = as ++ new :: bs ∧
      new.valid ∧ new.time ≠ 0 ∧
      (new.time ≤ line.time + 1 ∨ new.time ≤ N + 1) := by
  cases h with
  | hit as line bs has =>
      exact ⟨as, line, _, bs, rfl, rfl, has.2, Nat.succ_ne_zero _, .inl (Nat.le_refl _)⟩
  | fill as line bs recent miss oldest empty bound =>
      exact ⟨as, line, _, bs, rfl, rfl, rfl, Nat.succ_ne_zero _, .inr (Nat.succ_le_succ bound)⟩
  | evict as line bs recent miss oldest full bound =>
      exact ⟨as, line, _, bs, rfl, rfl, rfl, Nat.succ_ne_zero _, .inr (Nat.succ_le_succ bound)⟩

theorem nodup (h : Accessed N tag c lines c' lines') (hnd : (validTags lines).Nodup) :
    (validTags lines').Nodup := by
  have hnew : ∀ xs ys : List (BitVec 64), (xs ++ ys).Nodup → tag ∉ xs ++ ys →
      (xs ++ tag :: ys).Nodup := fun xs ys hxy hnot =>
    List.nodup_middle.mpr (List.nodup_cons.mpr ⟨hnot, hxy⟩)
  cases h with
  | hit as line bs has =>
      rwa [validTags_time]
  | fill as line bs recent miss oldest empty bound =>
      rw [validTags_invalid empty] at hnd miss
      rw [validTags_valid rfl]
      exact hnew _ _ hnd miss
  | evict as line bs recent miss oldest full bound =>
      rw [validTags_valid (full line (by simp))] at hnd miss
      rw [validTags_valid rfl]
      refine hnew _ _ (List.nodup_cons.mp (List.nodup_middle.mp hnd)).2 fun hmem => miss ?_
      cases List.mem_append.mp hmem with
      | inl ha => exact List.mem_append_left _ ha
      | inr hb => exact List.mem_append_right _ (List.mem_cons_of_mem _ hb)

theorem setOk (h : Accessed N tag c lines c' lines') (hs : SetOk E N lines) :
    SetOk E (N + 1) lines' := by
  have htags := h.nodup hs.tags
  obtain ⟨as, line, new, bs, rfl, rfl, hvalid, htime, hle⟩ := h.middle
  have hmem : ∀ l ∈ as ++ new :: bs, l = new ∨ l ∈ as ++ line :: bs := by
    intro l hl
    simp only [List.mem_append, List.mem_cons] at hl ⊢
    tauto
  refine ⟨?_, fun l hl => ?_, fun l hl => ?_, htags⟩
  · rw [← hs.length]
    simp
  · cases hmem l hl with
    | inl he => simp [he, hvalid, htime]
    | inr hl => exact hs.valid l hl
  · cases hmem l hl with
    | inl he =>
        have hline := hs.times line (by simp)
        subst he
        cases hle with
        | inl hle => exact Nat.le_trans hle (Nat.succ_le_succ hline)
        | inr hle => exact hle
    | inr hl => exact Nat.le_succ_of_le (hs.times l hl)

end Accessed

end CsappLabs.CacheSim
