import CsappLabs.Malloc.Driver.Acceptance
import Mathlib.Data.List.Sort

/-!
# Balanced traces (`checktrace.pl`)

The script checks how a trace uses its ids and appends the requests that free
what is left.  After a balanced trace an allocator that coalesces has one free
block, which takes the whole heap.
-/

namespace CsappLabs.Malloc.Driver

open CsappLabs.Foundation

variable {σ : Type} {A : Allocator σ} {Inv : σ → List Block → Prop} {numIds base i : Nat}
  {d d' : State σ} {l l' : Ledger} {bs : List Block} {op : Traceop} {ops out : List Traceop}
  {hash hash' : List Nat}

/-! ## The script -/

/-- The loop over the requests; `none` is a call of `die`.  The keys of the
hash are the ids that are allocated.  Their values are all `a`: the tests for
the value `f` never succeed. -/
def checkLoop : List Nat → List Traceop → Option (List Nat)
  | hash, [] => some hash
  | hash, op :: ops =>
      match op.type with
      | .realloc => if op.index ∉ hash then none else checkLoop hash ops
      | .alloc => if op.index ∈ hash then none else checkLoop (op.index :: hash) ops
      | .free => if op.index ∉ hash then none else checkLoop (hash.erase op.index) ops

/-- `sort keys %HASH`, which compares the keys as strings. -/
def sortKeys (hash : List Nat) : List Nat :=
  hash.insertionSort fun i j => ¬toString j < toString i

/-- The number of requests and the requests of the trace that is written. -/
def checktrace (numOps : Nat) (ops : List Traceop) : Option (Nat × List Traceop) :=
  (checkLoop [] ops).map fun hash =>
    (numOps + hash.length, ops ++ (sortKeys hash).map fun i => ⟨.free, i, 0⟩)

def InRange (numIds : Nat) (ops : List Traceop) : Prop :=
  ∀ op ∈ ops, op.index < numIds ∧ (op.type = .free ∨ 0 < op.size ∧ op.size < 2 ^ 31)

instance (numIds : Nat) (ops : List Traceop) : Decidable (InRange numIds ops) :=
  inferInstanceAs (Decidable (∀ op ∈ ops, _))

/-! ## What it accepts -/

theorem Ledger.use_ids (h : l.use numIds op = some l') (hids : l.ids.Nodup) :
    l'.ids.Nodup ∧ ∀ i, i ∈ l'.ids ↔
      if op.type = .free then i ∈ l.ids ∧ i ≠ op.index else i = op.index ∨ i ∈ l.ids := by
  have hwithout : ∀ i, i ∈ (l.without op.index).ids ↔ i ∈ l.ids ∧ i ≠ op.index := by
    intro i
    simp only [Ledger.ids, List.mem_map, Ledger.mem_without]
    constructor
    · rintro ⟨e, ⟨he, hne⟩, rfl⟩
      exact ⟨⟨e, he, rfl⟩, hne⟩
    · rintro ⟨⟨e, he, rfl⟩, hne⟩
      exact ⟨e, ⟨he, hne⟩, rfl⟩
  cases htype : op.type with
  | alloc =>
      simp only [Ledger.use, htype, Option.ite_none_right_eq_some] at h
      obtain ⟨⟨-, hnew, -⟩, hl'⟩ := h
      obtain rfl := Option.some.inj hl'
      exact ⟨List.nodup_cons.mpr ⟨hnew, hids⟩, fun i => by simp [Ledger.ids]⟩
  | realloc =>
      simp only [Ledger.use, htype, Option.ite_none_right_eq_some] at h
      obtain ⟨⟨hi, -⟩, hl'⟩ := h
      obtain rfl := Option.some.inj hl'
      refine ⟨List.nodup_cons.mpr ⟨Ledger.not_mem_ids_without, Ledger.without_nodup hids⟩,
        fun i => ?_⟩
      have hcons : i ∈ Ledger.ids ((op.index, op.size) :: l.without op.index) ↔
          i = op.index ∨ i ∈ (l.without op.index).ids := by
        simp [Ledger.ids]
      rw [hcons, hwithout]
      by_cases hio : i = op.index
      · simp [hio]
      · simp [hio]
  | free =>
      simp only [Ledger.use, htype, Option.ite_none_right_eq_some] at h
      obtain ⟨hi, hl'⟩ := h
      obtain rfl := Option.some.inj hl'
      exact ⟨Ledger.without_nodup hids, fun i => by simp [hwithout]⟩

theorem checkLoop_use (hrange : InRange numIds ops) (hhash : hash.Nodup) (hids : l.ids.Nodup)
    (hsame : ∀ i, i ∈ hash ↔ i ∈ l.ids) (h : checkLoop hash ops = some hash') :
    ∃ l', l.useAll numIds ops = some l' ∧ hash'.Nodup ∧ l'.ids.Nodup ∧
      ∀ i, i ∈ hash' ↔ i ∈ l'.ids := by
  induction ops generalizing hash l with
  | nil =>
      obtain rfl : hash = hash' := Option.some.inj h
      exact ⟨l, rfl, hhash, hids, hsame⟩
  | cons op ops ih =>
      obtain ⟨⟨hlt, hsize⟩, hrest⟩ := List.forall_mem_cons.mp hrange
      have hnext : ∀ l₁ hash₁, l.use numIds op = some l₁ → hash₁.Nodup →
          (∀ i, i ∈ hash₁ ↔ i ∈ l₁.ids) → checkLoop hash₁ ops = some hash' →
          ∃ l', l.useAll numIds (op :: ops) = some l' ∧ hash'.Nodup ∧ l'.ids.Nodup ∧
            ∀ i, i ∈ hash' ↔ i ∈ l'.ids := by
        intro l₁ hash₁ huse hnd hmem hloop
        obtain ⟨l', hl', hout⟩ := ih hrest hnd (Ledger.use_ids huse hids).1 hmem hloop
        exact ⟨l', by rw [Ledger.useAll, huse]; exact hl', hout⟩
      cases htype : op.type with
      | alloc =>
          simp only [checkLoop, htype, Option.ite_none_left_eq_some] at h
          obtain ⟨hnew, hloop⟩ := h
          have hsize' := hsize.resolve_left (by simp [htype])
          have huse : l.use numIds op = some ((op.index, op.size) :: l) := by
            simp only [Ledger.use, htype]
            exact if_pos ⟨hlt, fun hi => hnew ((hsame _).mpr hi), hsize'⟩
          refine hnext _ _ huse (List.nodup_cons.mpr ⟨hnew, hhash⟩) (fun i => ?_) hloop
          rw [(Ledger.use_ids huse hids).2, if_neg (by simp [htype]), List.mem_cons, hsame]
      | realloc =>
          simp only [checkLoop, htype, Option.ite_none_left_eq_some, not_not] at h
          obtain ⟨hold, hloop⟩ := h
          have hsize' := hsize.resolve_left (by simp [htype])
          have huse : l.use numIds op =
              some ((op.index, op.size) :: l.without op.index) := by
            simp only [Ledger.use, htype]
            exact if_pos ⟨(hsame _).mp hold, hsize'⟩
          refine hnext _ _ huse hhash (fun i => ?_) hloop
          rw [(Ledger.use_ids huse hids).2, if_neg (by simp [htype]), hsame]
          exact ⟨.inr, fun hi => hi.elim (fun heq => heq ▸ (hsame _).mp hold) id⟩
      | free =>
          simp only [checkLoop, htype, Option.ite_none_left_eq_some, not_not] at h
          obtain ⟨hold, hloop⟩ := h
          have huse : l.use numIds op = some (l.without op.index) := by
            simp [Ledger.use, htype, ← hsame, hold]
          refine hnext _ _ huse (hhash.erase _) (fun i => ?_) hloop
          rw [(Ledger.use_ids huse hids).2, if_pos htype, hhash.mem_erase_iff, hsame, and_comm]

theorem useAll_append {ops' : List Traceop} (h : l.useAll numIds ops = some l') :
    l.useAll numIds (ops ++ ops') = l'.useAll numIds ops' := by
  induction ops generalizing l with
  | nil =>
      obtain rfl : l = l' := Option.some.inj h
      rfl
  | cons op ops ih =>
      obtain ⟨l₁, hop, hrest⟩ := Ledger.useAll_cons h
      rw [List.cons_append, Ledger.useAll, hop, Option.bind_some, ih hrest]

theorem useAll_frees {keys : List Nat} (hkeys : keys.Nodup) (hids : l.ids.Nodup)
    (hsame : ∀ i, i ∈ keys ↔ i ∈ l.ids) :
    l.useAll numIds (keys.map fun i => ⟨.free, i, 0⟩) = some [] := by
  induction keys generalizing l with
  | nil =>
      have hnil : l = [] := by
        cases l with
        | nil => rfl
        | cons e l => exact absurd ((hsame e.1).mpr (Ledger.mem_ids List.mem_cons_self)) (by simp)
      rw [hnil]
      rfl
  | cons k keys ih =>
      obtain ⟨hk, hnd⟩ := List.nodup_cons.mp hkeys
      have hold : k ∈ l.ids := (hsame k).mp List.mem_cons_self
      have huse : l.use numIds ⟨.free, k, 0⟩ = some (l.without k) := if_pos hold
      rw [List.map_cons, Ledger.useAll, huse, Option.bind_some]
      refine ih hnd (Ledger.use_ids huse hids).1 fun i => ?_
      rw [(Ledger.use_ids huse hids).2, if_pos rfl, ← hsame, List.mem_cons]
      constructor
      · intro hi
        refine ⟨.inr hi, fun hik => hk ?_⟩
        rw [← show i = k from hik]
        exact hi
      · rintro ⟨hik | hi, hne⟩
        · exact absurd hik hne
        · exact hi

theorem balanced_of_checktrace {numOps : Nat} (hrange : InRange numIds ops)
    (h : checktrace numOps ops = some (i, out)) :
    Ledger.useAll numIds [] out = some [] ∧ (numOps = ops.length → i = out.length) := by
  obtain ⟨hash, hloop, hout⟩ := Option.map_eq_some_iff.mp h
  obtain ⟨rfl, rfl⟩ := Prod.mk.inj hout
  obtain ⟨l, huse, hhash, hids, hsame⟩ :=
    checkLoop_use (l := []) hrange List.nodup_nil List.nodup_nil (by simp [Ledger.ids]) hloop
  have hperm : (sortKeys hash).Perm hash := List.perm_insertionSort _ hash
  constructor
  · rw [useAll_append huse]
    exact useAll_frees (hperm.nodup_iff.mpr hhash) hids fun i => (hperm.mem_iff).trans (hsame i)
  · intro hn
    rw [List.length_append, List.length_map, hperm.length_eq, hn]

theorem Tracks.run (hA : Refines A Inv (fun _ _ => True) base) (hbase : base % 8 = 0)
    (hG : Grows A Inv) (h : Tracks A Inv numIds d l bs) (huse : l.useAll numIds ops = some l')
    (heval : evalOps A numIds i d ops = some (.ok d')) :
    ∃ bs', Tracks A Inv numIds d' l' bs' ∧
      (A.memlib d.heap).memBrk ≤ (A.memlib d'.heap).memBrk := by
  induction ops generalizing d l bs i with
  | nil =>
      obtain rfl : l = l' := Option.some.inj huse
      obtain rfl : d = d' := Except.ok.inj (Option.some.inj heval)
      exact ⟨bs, h, Nat.le_refl _⟩
  | cons op ops ih =>
      obtain ⟨l₁, hop, hrest⟩ := Ledger.useAll_cons huse
      rcases h.judge hA hbase hop with ⟨d₁, bs₁, hstep, htracks, -⟩ | ⟨e, hstep, -⟩
      · simp only [evalOps, hstep] at heval
        obtain ⟨bs', h', hbrk⟩ := ih htracks hrest heval
        exact ⟨bs', h', (h.brk_step hG hop hstep).1.trans hbrk⟩
      · simp [evalOps, hstep] at heval

theorem single_block {lo hi : Nat} (h : Tiles lo bs hi) (hfree : ∀ b ∈ bs, b.alloc = false)
    (hapart : NoAdjacentFree bs) (hlt : lo < hi) : bs = [⟨lo, hi - lo, false⟩] := by
  cases bs with
  | nil => exact absurd h (Nat.ne_of_lt hlt)
  | cons b bs =>
      cases bs with
      | nil =>
          obtain ⟨hp, -, -, hend⟩ := h
          have hb := hfree b List.mem_cons_self
          obtain ⟨ptr, size, alloc⟩ := b
          simp only [tiles_nil] at hp hb hend
          subst hp hb
          rw [← hend, Nat.add_sub_cancel_left]
      | cons c bs =>
          rw [NoAdjacentFree, List.isChain_cons_cons] at hapart
          have hb := hfree b (by simp)
          have hc := hfree c (by simp)
          simp [hb, hc] at hapart

theorem Tracks.all_free (h : Tracks A Inv numIds d [] bs) : ∀ b ∈ bs, b.alloc = false := by
  intro b hb
  by_contra ha
  obtain ⟨r, hr, -⟩ := h.books.world.live b hb (by simpa using ha)
  simp [Ledger.payloads] at hr

variable {blocks sizes : Nat → Nat} {s : Segregated.State} {t : Implicit.State}

theorem segregated_single (h : ArenaBase base) (hs : s.memStartBrk = base)
    (huse : Ledger.useAll numIds [] ops = some []) {d : State Segregated.State}
    (heval : evalMmValid segregated numIds blocks sizes s ops = some (.ok d)) :
    d.ranges = [] ∧
      Segregated.WellFormed d.heap [⟨base + 80, d.heap.memBrk - (base + 80), false⟩] := by
  have hfresh : Segregated.Fresh base (segregated.memResetBrk s) := ⟨hs, hs, h.pos, h.max⟩
  obtain ⟨s₁, hinit, hsound⟩ := Segregated.mmInit_spec hfresh
  have hend : base + 80 + 32 = s₁.memBrk := Tiles.last_end (l := []) hsound.heap.layout.tiles
  rw [evalMmValid_eq (P := segregated) hinit] at heval
  obtain ⟨bs, htracks, hbrk⟩ := (start_tracks (A := Segregated.allocator) hsound (by simp)).run
    (Segregated.refines base) h.aligned (Segregated.grows base) huse heval
  have hheap : Segregated.Sound base d.heap bs := htracks.books.world.inv
  have hlo : d.heap.heapListp + 8 = base + 80 := by
    have hbase := hheap.heap.base
    have hstart := hheap.start
    omega
  have htiles := hheap.heap.layout.tiles
  rw [hlo] at htiles
  have hbrk' : s₁.memBrk ≤ d.heap.memBrk := hbrk
  have hbs := single_block htiles htracks.all_free hheap.apart (by omega)
  exact ⟨htracks.ranges, hbs ▸ hheap.wellFormed⟩

theorem implicit_single (h : ArenaBase base) (ht : t.memStartBrk = base)
    (huse : Ledger.useAll numIds [] ops = some []) {d : State Implicit.State}
    (heval : evalMmValid implicit numIds blocks sizes t ops = some (.ok d)) :
    d.ranges = [] ∧
      Implicit.WellFormed d.heap [⟨base + 16, d.heap.memBrk - (base + 16), false⟩] := by
  have hfresh : Implicit.Fresh base (implicit.memResetBrk t) := ⟨ht, ht, h.pos, h.max⟩
  obtain ⟨t₁, hinit, hsound⟩ := Implicit.mmInit_spec hfresh
  have hend : base + 16 + 4096 = t₁.memBrk := Tiles.last_end (l := []) hsound.heap.layout.tiles
  rw [evalMmValid_eq (P := implicit) (congrArg some hinit)] at heval
  obtain ⟨bs, htracks, hbrk⟩ := (start_tracks (A := Implicit.allocator) hsound (by simp)).run
    (Implicit.refines base) h.aligned (Implicit.grows base) huse heval
  have hheap : Implicit.Sound base d.heap bs := htracks.books.world.inv
  have hlo : d.heap.heapListp + 8 = base + 16 := by
    have hbase := hheap.heap.base
    have hstart := hheap.start
    omega
  have htiles := hheap.heap.layout.tiles
  rw [hlo] at htiles
  have hbrk' : t₁.memBrk ≤ d.heap.memBrk := hbrk
  have hbs := single_block htiles htracks.all_free hheap.apart (by omega)
  exact ⟨htracks.ranges, hbs ▸ hheap.wellFormed⟩

/-- Once the driver has accepted a trace that `checktrace.pl` has written, the
heap is one free block on both allocators. -/
theorem balanced_trace {numOps n : Nat} (h : ArenaBase base) (hs : s.memStartBrk = base)
    (ht : t.memStartBrk = base) (hrange : InRange numIds ops)
    (hout : checktrace numOps ops = some (n, out)) :
    (∀ d, evalMmValid segregated numIds blocks sizes s out = some (.ok d) →
      d.ranges = [] ∧
        Segregated.WellFormed d.heap [⟨base + 80, d.heap.memBrk - (base + 80), false⟩]) ∧
    ∀ d, evalMmValid implicit numIds blocks sizes t out = some (.ok d) →
      d.ranges = [] ∧
        Implicit.WellFormed d.heap [⟨base + 16, d.heap.memBrk - (base + 16), false⟩] := by
  have huse := (balanced_of_checktrace hrange hout).1
  exact ⟨fun d => segregated_single h hs huse, fun d => implicit_single h ht huse⟩

theorem balanced_trace_sample :
    checktrace 3 (sampleTrace.take 3) = some (5, sampleTrace.take 3 ++
        [⟨.free, 0, 0⟩, ⟨.free, 1, 0⟩]) ∧
      ∀ d, evalMmValid segregated 2 (fun _ => 0) (fun _ => 0) Segregated.arena
          (sampleTrace.take 3 ++ [⟨.free, 0, 0⟩, ⟨.free, 1, 0⟩]) = some (.ok d) →
        d.ranges = [] ∧
          Segregated.WellFormed d.heap [⟨4176, d.heap.memBrk - 4176, false⟩] := by
  have hout : checktrace 3 (sampleTrace.take 3) = some (5, sampleTrace.take 3 ++
      [⟨.free, 0, 0⟩, ⟨.free, 1, 0⟩]) := by decide +kernel
  have hrange : InRange 2 (sampleTrace.take 3) := by decide
  exact ⟨hout, (balanced_trace (s := Segregated.arena) (t := Implicit.arena) arenaBase_4096
    rfl rfl hrange hout).1⟩

end CsappLabs.Malloc.Driver
