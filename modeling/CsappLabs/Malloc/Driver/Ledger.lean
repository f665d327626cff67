import CsappLabs.Malloc.Driver.Model
import Mathlib.Data.List.Nodup

/-!
# What the driver knows in the course of a trace

`Ledger` is the purpose of the driver's arrays: which ids are live, and how
many bytes each of them asked for.  `Books` says that the arrays and the heap
agree with the ledger.  The calls of the driver keep the books, whether it
checks the payloads or only counts them.
-/

namespace CsappLabs.Malloc.Driver

open CsappLabs.Foundation

abbrev Ledger := List (Nat × Nat)

namespace Ledger

def ids (l : Ledger) : List Nat := l.map Prod.fst

def without (l : Ledger) (i : Nat) : Ledger := l.filter fun e => e.1 ≠ i

def payloads (blocks : Nat → Nat) (l : Ledger) : List Payload :=
  l.map fun e => ⟨blocks e.1, e.2⟩

def ranges (blocks : Nat → Nat) (l : Ledger) : List Range :=
  l.map fun e => ⟨blocks e.1, blocks e.1 + e.2 - 1⟩

/-- The ledger after a request that uses the ids as it should: an id is free
when it is allocated and live when it is reallocated or freed, and the size is
positive and below `2 ^ 31`. -/
def use (numIds : Nat) (l : Ledger) (op : Traceop) : Option Ledger :=
  match op.type with
  | .alloc =>
      if op.index < numIds ∧ op.index ∉ l.ids ∧ 0 < op.size ∧ op.size < 2 ^ 31 then
        some ((op.index, op.size) :: l)
      else none
  | .realloc =>
      if op.index ∈ l.ids ∧ 0 < op.size ∧ op.size < 2 ^ 31 then
        some ((op.index, op.size) :: l.without op.index)
      else none
  | .free => if op.index ∈ l.ids then some (l.without op.index) else none

def useAll (numIds : Nat) (l : Ledger) : List Traceop → Option Ledger
  | [] => some l
  | op :: ops => (l.use numIds op).bind fun l' => useAll numIds l' ops

variable {l l' : Ledger} {i p : Nat} {e : Nat × Nat} {blocks : Nat → Nat}

theorem mem_ids (he : e ∈ l) : e.1 ∈ l.ids := List.mem_map_of_mem he

theorem exists_of_mem_ids (hi : i ∈ l.ids) : ∃ n, (i, n) ∈ l := by
  obtain ⟨⟨j, n⟩, he, rfl⟩ := List.mem_map.mp hi
  exact ⟨n, he⟩

theorem mem_without : e ∈ l.without i ↔ e ∈ l ∧ e.1 ≠ i := by
  simp [without]

theorem not_mem_ids_without : i ∉ (l.without i).ids := by
  intro hi
  obtain ⟨n, hn⟩ := exists_of_mem_ids hi
  exact (mem_without.mp hn).2 rfl

theorem without_nodup (h : l.ids.Nodup) : (l.without i).ids.Nodup :=
  h.sublist (List.filter_sublist.map _)

theorem payloads_congr {blocks' : Nat → Nat} (h : ∀ e ∈ l, blocks' e.1 = blocks e.1) :
    payloads blocks' l = payloads blocks l := by
  apply List.map_congr_left
  intro e he
  rw [h e he]

theorem ranges_congr {blocks' : Nat → Nat} (h : ∀ e ∈ l, blocks' e.1 = blocks e.1) :
    ranges blocks' l = ranges blocks l := by
  apply List.map_congr_left
  intro e he
  rw [h e he]

theorem blocks_injective (h : ((payloads blocks l).map Payload.ptr).Nodup) {e' : Nat × Nat}
    (he : e ∈ l) (he' : e' ∈ l) (hp : blocks e.1 = blocks e'.1) : e = e' := by
  rw [payloads, List.map_map] at h
  exact List.inj_on_of_nodup_map h he he' hp

theorem filter_blocks (h : ((payloads blocks l).map Payload.ptr).Nodup) (hi : i ∈ l.ids) :
    l.filter (fun e => blocks e.1 ≠ blocks i) = l.without i := by
  obtain ⟨n, hn⟩ := exists_of_mem_ids hi
  apply List.filter_congr
  intro e he
  have hiff : blocks e.1 = blocks i ↔ e.1 = i := by
    constructor
    · intro hp
      rw [blocks_injective h he hn hp]
    · intro hei
      rw [hei]
  simp [hiff]

theorem payloads_without (h : ((payloads blocks l).map Payload.ptr).Nodup) (hi : i ∈ l.ids) :
    (payloads blocks l).filter (fun r => r.ptr ≠ blocks i) = payloads blocks (l.without i) := by
  rw [← filter_blocks h hi, payloads, List.filter_map]
  rfl

theorem ranges_without (h : ((payloads blocks l).map Payload.ptr).Nodup) (hi : i ∈ l.ids) :
    removeRange (ranges blocks l) (blocks i) = ranges blocks (l.without i) := by
  induction l with
  | nil => rfl
  | cons e l ih =>
      have hnd := h
      simp only [payloads, List.map_cons, List.nodup_cons] at hnd
      by_cases hp : blocks e.1 = blocks i
      · obtain ⟨n, hn⟩ := exists_of_mem_ids hi
        have hkeep : Ledger.without (e :: l) i = l := by
          rw [← filter_blocks h hi, List.filter_cons_of_neg (by simp [hp])]
          apply List.filter_eq_self.mpr
          intro e' he'
          have hne : blocks e'.1 ≠ blocks i := by
            intro hp'
            apply hnd.1
            rw [hp, ← hp', List.map_map]
            exact List.mem_map_of_mem (f := fun e : Nat × Nat => blocks e.1) he'
          simpa using hne
        rw [hkeep]
        simp [removeRange, ranges, hp]
      · have hne : e.1 ≠ i := fun hei => hp (by rw [hei])
        have hil : i ∈ ids l := (List.mem_cons.mp hi).resolve_left (Ne.symm hne)
        have hrest := ih hnd.2 hil
        have hkeep : Ledger.without (e :: l) i = e :: Ledger.without l i := by
          simp [without, hne]
        rw [hkeep]
        simp only [removeRange, ranges, List.map_cons] at hrest ⊢
        rw [List.eraseP_cons_of_neg (by simpa using hp), hrest]

/-! ### An entry that is put on top -/

variable {n : Nat}

theorem update_other (blocks : Nat → Nat) (p : Nat) (h : i ∉ l.ids) :
    ∀ e ∈ l, Function.update blocks i p e.1 = blocks e.1 := by
  intro e he
  have hne : e.1 ≠ i := fun hei => h (hei ▸ mem_ids he)
  exact Function.update_of_ne hne _ _

theorem payloads_update (h : i ∉ l.ids) :
    payloads (Function.update blocks i p) ((i, n) :: l) = ⟨p, n⟩ :: payloads blocks l := by
  have hrest := payloads_congr (update_other blocks p h)
  rw [← hrest]
  simp [payloads]

theorem ranges_update (h : i ∉ l.ids) :
    ranges (Function.update blocks i p) ((i, n) :: l) = ⟨p, p + n - 1⟩ :: ranges blocks l := by
  have hrest := ranges_congr (update_other blocks p h)
  rw [← hrest]
  simp [ranges]

theorem mem_payloads (he : e ∈ l) : (⟨blocks e.1, e.2⟩ : Payload) ∈ payloads blocks l :=
  List.mem_map_of_mem (f := fun e : Nat × Nat => (⟨blocks e.1, e.2⟩ : Payload)) he

theorem useAll_cons {numIds : Nat} {op : Traceop} {ops : List Traceop}
    (h : l.useAll numIds (op :: ops) = some l') :
    ∃ l₁, l.use numIds op = some l₁ ∧ useAll numIds l₁ ops = some l' :=
  Option.bind_eq_some_iff.mp h

end Ledger

/-! ## The books -/

structure Books {σ : Type} (Inv : σ → List Block → Prop) (numIds : Nat) (s : σ)
    (blocks sizes : Nat → Nat) (l : Ledger) (bs : List Block) : Prop where
  world : Consistent Inv ⟨s, l.payloads blocks⟩ bs
  ids : l.ids.Nodup
  sizes : ∀ e ∈ l, e.1 < numIds ∧ sizes e.1 = e.2 ∧ 0 < e.2 ∧ e.2 < 2 ^ 31

variable {σ : Type} {A : Allocator σ} {Inv : σ → List Block → Prop} {numIds base : Nat}
  {s s' : σ} {blocks sizes : Nat → Nat} {l l' : Ledger} {bs bs' : List Block} {b : Block}
  {i n : Nat} {old new : Option Block}

namespace Books

theorem nil (hinv : Inv s bs) (hfree : ∀ b ∈ bs, b.alloc = false) :
    Books Inv numIds s blocks sizes [] bs where
  world := Consistent.empty hinv hfree
  ids := List.nodup_nil
  sizes := by simp

theorem entry (h : Books Inv numIds s blocks sizes l bs) (hi : i ∈ l.ids) :
    (i, sizes i) ∈ l ∧ 0 < sizes i ∧ sizes i < 2 ^ 31 ∧ i < numIds := by
  obtain ⟨n, hn⟩ := Ledger.exists_of_mem_ids hi
  obtain ⟨hlt, hsize, hpos, hmax⟩ := h.sizes _ hn
  simp only at hlt hsize hpos hmax
  rw [hsize]
  exact ⟨hn, hpos, hmax, hlt⟩

theorem block (h : Books Inv numIds s blocks sizes l bs) (hi : i ∈ l.ids) :
    ∃ b ∈ bs, b.alloc = true ∧ b.ptr = blocks i ∧ sizes i + 8 ≤ b.size :=
  h.world.held _ (Ledger.mem_payloads (h.entry hi).1)

theorem kept_live (h : Books Inv numIds s blocks sizes l bs) (hi : i ∈ l.ids)
    (hb : b.ptr = blocks i) :
    keptLive ⟨s, l.payloads blocks⟩ (some b) = (l.without i).payloads blocks := by
  rw [keptLive, hb]
  exact Ledger.payloads_without h.world.distinct hi

theorem without_sizes (h : Books Inv numIds s blocks sizes l bs) (i : Nat) :
    ∀ e ∈ l.without i, e.1 < numIds ∧ sizes e.1 = e.2 ∧ 0 < e.2 ∧ e.2 < 2 ^ 31 :=
  fun e he => h.sizes e (Ledger.mem_without.mp he).1

theorem push (hnew : i ∉ l.ids) (hids : l.ids.Nodup) (hlt : i < numIds) (hpos : 0 < n)
    (hn : n < 2 ^ 31) (hsizes : ∀ e ∈ l, e.1 < numIds ∧ sizes e.1 = e.2 ∧ 0 < e.2 ∧ e.2 < 2 ^ 31)
    (h : Consistent Inv ⟨s, ⟨b.ptr, n⟩ :: l.payloads blocks⟩ bs) :
    Books Inv numIds s (Function.update blocks i b.ptr) (Function.update sizes i n)
      ((i, n) :: l) bs where
  world := by
    rw [Ledger.payloads_update hnew]
    exact h
  ids := List.nodup_cons.mpr ⟨hnew, hids⟩
  sizes := by
    intro e he
    rcases List.mem_cons.mp he with rfl | he
    · exact ⟨hlt, Function.update_self _ _ _, hpos, hn⟩
    · obtain ⟨h₁, h₂, h₃⟩ := hsizes e he
      have hne : e.1 ≠ i := fun hei => hnew (hei ▸ Ledger.mem_ids he)
      exact ⟨h₁, (Function.update_of_ne hne _ _).trans h₂, h₃⟩

theorem kept_bytes (h : Books Inv numIds s blocks sizes l bs)
    (he : Effect A Inv s s' bs bs' old new) {e : Nat × Nat} (hl : e ∈ l)
    (hold : ∀ b ∈ old, blocks e.1 ≠ b.ptr) :
    ∀ k < e.2, (A.memlib s').mem (blocks e.1 + k) = (A.memlib s).mem (blocks e.1 + k) := by
  intro k hk
  exact h.world.sameBytes he (mem_keptLive.mpr ⟨Ledger.mem_payloads hl, hold⟩) hk

theorem others_bytes (h : Books Inv numIds s blocks sizes l bs) (hi : i ∈ l.ids)
    (hb : b.ptr = blocks i) (he : Effect A Inv s s' bs bs' (some b) new) {e : Nat × Nat}
    (hl : e ∈ l.without i) :
    ∀ k < e.2, (A.memlib s').mem (blocks e.1 + k) = (A.memlib s).mem (blocks e.1 + k) := by
  obtain ⟨hl', hne⟩ := Ledger.mem_without.mp hl
  apply h.kept_bytes he hl'
  intro c hc hp
  obtain rfl : b = c := Option.some.inj hc
  obtain ⟨n, hn⟩ := Ledger.exists_of_mem_ids hi
  exact hne (by rw [Ledger.blocks_injective h.world.distinct hl' hn (hp.trans hb)])

/-! ### The calls -/

theorem malloc (hA : Refines A Inv (fun _ _ => True) base)
    (h : Books Inv numIds s blocks sizes l bs) (hlt : i < numIds) (hnew : i ∉ l.ids)
    (hpos : 0 < n) (hn : n < 2 ^ 31) :
    (∃ s', A.mmMalloc s n = some (s', 0)) ∨
    ∃ s' bs' b, A.mmMalloc s n = some (s', b.ptr) ∧ b.ptr ≠ 0 ∧
      Effect A Inv s s' bs bs' none (some b) ∧
      Books Inv numIds s' (Function.update blocks i b.ptr) (Function.update sizes i n)
        ((i, n) :: l) bs' := by
  rcases hA.malloc h.world.inv hn trivial with ⟨s', heq, -⟩ | ⟨s', bs', b, heq, hb, he⟩
  · exact .inl ⟨s', heq⟩
  · right
    have hcons := h.world.effect hA he (n := n) (by simpa using hb)
    have hmem : b ∈ bs' := (he.mem b (he.new_alloc b rfl)).mpr (.inr rfl)
    exact ⟨s', bs', b, heq, hA.ptr_pos he.inv hmem, he,
      push hnew h.ids hlt hpos hn h.sizes hcons⟩

theorem realloc (hA : Refines A Inv (fun _ _ => True) base)
    (h : Books Inv numIds s blocks sizes l bs) (hi : i ∈ l.ids) (hpos : 0 < n)
    (hn : n < 2 ^ 31) :
    (∃ s', A.mmRealloc s (blocks i) n = some (s', 0)) ∨
    ∃ s' bs' c b, A.mmRealloc s (blocks i) n = some (s', b.ptr) ∧ b.ptr ≠ 0 ∧
      c.ptr = blocks i ∧ Effect A Inv s s' bs bs' (some c) (some b) ∧
      (∀ k < n, k < sizes i → (A.memlib s').mem (b.ptr + k) = (A.memlib s).mem (blocks i + k)) ∧
      Books Inv numIds s' (Function.update blocks i b.ptr) (Function.update sizes i n)
        ((i, n) :: l.without i) bs' := by
  obtain ⟨c, hc, ha, hp, hsize⟩ := h.block hi
  rw [← hp]
  rcases hA.realloc h.world.inv hc ha hn (by omega) trivial with
    ⟨s', heq, -⟩ | ⟨s', bs', b, heq, hb, he, hbytes⟩
  · exact .inl ⟨s', heq⟩
  · right
    have hcons := h.world.effect hA he (n := n) (by simpa using hb)
    have hmem : b ∈ bs' := (he.mem b (he.new_alloc b rfl)).mpr (.inr rfl)
    rw [h.kept_live hi hp] at hcons
    exact ⟨s', bs', c, b, heq, hA.ptr_pos he.inv hmem, rfl, he,
      fun k hk hk' => hbytes k hk (by omega),
      push Ledger.not_mem_ids_without (Ledger.without_nodup h.ids) (h.entry hi).2.2.2 hpos hn
        (h.without_sizes i) hcons⟩

theorem free (hA : Refines A Inv (fun _ _ => True) base)
    (h : Books Inv numIds s blocks sizes l bs) (hi : i ∈ l.ids) :
    ∃ s' bs' c, A.mmFree s (blocks i) = some s' ∧ c.ptr = blocks i ∧
      Effect A Inv s s' bs bs' (some c) none ∧
      Books Inv numIds s' blocks sizes (l.without i) bs' := by
  obtain ⟨c, hc, ha, hp, -⟩ := h.block hi
  obtain ⟨s', bs', heq, he⟩ := hA.free h.world.inv hc ha trivial
  have hcons := h.world.effect hA he (n := 0) (by simp)
  rw [h.kept_live hi hp] at hcons
  exact ⟨s', bs', c, hp ▸ heq, hp, he,
    hcons, Ledger.without_nodup h.ids, h.without_sizes i⟩

end Books

end CsappLabs.Malloc.Driver
