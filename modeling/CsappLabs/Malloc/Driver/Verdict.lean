import CsappLabs.Malloc.Driver.Ledger

/-!
# The verdict on an allocator that refines

On a trace that uses its ids as it should the driver finds no fault with the
ranges.  What is left are calls that return `NULL`, and the comparison of a
`char` with the low byte of an id: from 128 on the byte is stored as a
negative `char`, and no `mm_realloc` seems to preserve it.
-/

namespace CsappLabs.Malloc.Driver

open CsappLabs.Foundation

variable {σ : Type} {A : Allocator σ} {Inv : σ → List Block → Prop} {numIds base : Nat}
  {d d' : State σ} {s s' : σ} {l l' : Ledger} {bs : List Block} {op : Traceop} {p n i : Nat}
  {m : Memlib} {ranges : List Range}

/-! ## What the driver has in front of a request -/

def fillByte (i : Nat) : UInt8 := UInt8.ofNat (lowByte i)

def Filled (A : Allocator σ) (s : σ) (blocks : Nat → Nat) (l : Ledger) : Prop :=
  ∀ e ∈ l, ∀ k < e.2, (A.memlib s).mem (blocks e.1 + k) = fillByte e.1

structure Tracks (A : Allocator σ) (Inv : σ → List Block → Prop) (numIds : Nat) (d : State σ)
    (l : Ledger) (bs : List Block) : Prop where
  books : Books Inv numIds d.heap d.blocks d.blockSizes l bs
  ranges : d.ranges = l.ranges d.blocks
  filled : Filled A d.heap d.blocks l

theorem memset_succ (A : Allocator σ) (s : σ) (p : Nat) (c : UInt8) (n : Nat) :
    memset A s p c (n + 1) = A.clientWrite (memset A s p c n) (p + n) c := by
  simp [memset, List.range_succ]

theorem memset_spec (hA : Refines A Inv (fun _ _ => True) base) {live : List Payload}
    (h : Consistent Inv ⟨s, live⟩ bs) (hmem : ⟨p, n⟩ ∈ live) (c : UInt8) {k : Nat}
    (hk : k ≤ n) :
    Consistent Inv ⟨memset A s p c k, live⟩ bs ∧
      ∀ x, (A.memlib (memset A s p c k)).mem x =
        if p ≤ x ∧ x < p + k then c else (A.memlib s).mem x := by
  induction k with
  | zero =>
      refine ⟨h, fun x => ?_⟩
      rw [if_neg (by omega)]
      rfl
  | succ k ih =>
      obtain ⟨hcons, hbytes⟩ := ih (by omega)
      obtain ⟨w', heq, hcons', hpoke⟩ :=
        hA.exec_write hcons (r := ⟨p, n⟩) (k := k) hmem (by simp only; omega) c
      obtain rfl := Option.some.inj heq
      rw [memset_succ]
      refine ⟨hcons', fun x => ?_⟩
      simp only at hpoke
      rw [hpoke, poke, hbytes]
      by_cases hx : x = p + k
      · rw [if_pos hx, if_pos (by omega)]
      · rw [if_neg hx]
        by_cases hin : p ≤ x ∧ x < p + k
        · rw [if_pos hin, if_pos (by omega)]
        · rw [if_neg hin, if_neg (by omega)]

theorem remember_tracks (hA : Refines A Inv (fun _ _ => True) base) (hnew : op.index ∉ l.ids)
    (h : Books Inv numIds s (Function.update d.blocks op.index p)
      (Function.update d.blockSizes op.index op.size) ((op.index, op.size) :: l) bs)
    (hfilled : Filled A s d.blocks l) :
    Tracks A Inv numIds (remember A d s (⟨p, p + op.size - 1⟩ :: l.ranges d.blocks) op p)
      ((op.index, op.size) :: l) bs := by
  have hworld := h.world
  rw [Ledger.payloads_update hnew] at hworld
  obtain ⟨hcons, hbytes⟩ :=
    memset_spec hA hworld List.mem_cons_self (fillByte op.index) (Nat.le_refl op.size)
  refine ⟨⟨?_, h.ids, h.sizes⟩, ?_, ?_⟩
  · simp only [remember]
    rw [Ledger.payloads_update hnew]
    exact hcons
  · exact (Ledger.ranges_update hnew).symm
  · intro e he k hk
    simp only [remember] at hbytes ⊢
    rw [← fillByte, hbytes]
    rcases List.mem_cons.mp he with rfl | hl
    · rw [Function.update_self, if_pos ⟨by omega, by simpa using hk⟩]
    · have hpay : ⟨d.blocks e.1, e.2⟩ ∈ Ledger.payloads d.blocks l := Ledger.mem_payloads hl
      have hne : d.blocks e.1 ≠ p := by
        intro hp
        have hnd := hworld.distinct
        rw [List.map_cons, List.nodup_cons] at hnd
        exact hnd.1 (List.mem_map.mpr ⟨_, hpay, hp⟩)
      have hapart := hworld.apart hA (List.mem_cons_of_mem _ hpay) List.mem_cons_self hne
      simp only at hapart
      rw [Ledger.update_other d.blocks p hnew e hl, if_neg (by omega)]
      exact hfilled e hl k hk

/-! ## The checks -/

theorem toInt_pos (hpos : 0 < n) (hn : n < 2 ^ 31) : ¬toInt n ≤ 0 := by
  rw [toInt, if_pos hn]
  omega

theorem addRange_handed {live : List Payload} (h : Handed m p n live) (hpos : 0 < n)
    (hn : n < 2 ^ 31) (hranges : ∀ q ∈ ranges, ∃ r ∈ live, q = ⟨r.ptr, r.ptr + r.size - 1⟩)
    (hlive : ∀ r ∈ live, 0 < r.size) :
    addRange m ranges p n = some (.ok (⟨p, p + n - 1⟩ :: ranges)) := by
  obtain ⟨hlo, hhi⟩ := h.inside
  have haligned := h.aligned
  have hnone : ranges.find? (fun q => q.Overlaps p (p + n - 1)) = none := by
    apply List.find?_eq_none.mpr
    intro q hq
    obtain ⟨r, hr, rfl⟩ := hranges q hq
    have hapart := h.apart r hr
    have hrpos := hlive r hr
    have hclear : ¬Range.Overlaps ⟨r.ptr, r.ptr + r.size - 1⟩ p (p + n - 1) := by
      simp only [Range.Overlaps]
      omega
    simpa using hclear
  simp only [addRange, if_neg (toInt_pos hpos hn), hnone]
  rw [if_neg (by omega), if_neg (by omega)]

theorem charValue_fillByte (i : Nat) : charValue (fillByte i) = lowByte i ↔ lowByte i < 2 ^ 7 := by
  have hlt : lowByte i < 2 ^ 8 := Nat.mod_lt _ (by decide)
  have hbyte : (fillByte i).toNat = lowByte i := Nat.mod_eq_of_lt hlt
  rw [charValue, hbyte]
  split
  · simp_all
  · omega

/-- The data of the old block is found exactly when its bytes are not negative. -/
theorem preserved_iff {m : Mem} (hpos : 0 < n) (h : ∀ j < n, m (p + j) = fillByte i) :
    preserved m p i n = true ↔ lowByte i < 2 ^ 7 := by
  rw [preserved, List.all_eq_true, ← charValue_fillByte, Int.toNat_natCast]
  constructor
  · intro hall
    have hfirst := hall 0 (List.mem_range.mpr hpos)
    rw [h 0 hpos] at hfirst
    simpa using hfirst
  · intro hi j hj
    rw [h j (List.mem_range.mp hj)]
    simpa using hi

/-! ## One request -/

/-- A reallocation for which the driver compares with a byte from 128 on. -/
def Misjudged (op : Traceop) : Prop := op.type = .realloc ∧ 2 ^ 7 ≤ lowByte op.index

instance (op : Traceop) : Decidable (Misjudged op) := inferInstanceAs (Decidable (_ ∧ _))

def Excused (A : Allocator σ) (d : State σ) (op : Traceop) : MallocError → Prop
  | .mallocFailed => op.type = .alloc ∧ ∃ s, A.mmMalloc d.heap op.size = some (s, 0)
  | .reallocFailed =>
      op.type = .realloc ∧ ∃ s, A.mmRealloc d.heap (d.blocks op.index) op.size = some (s, 0)
  | .notPreserved => Misjudged op
  | _ => False

def Judged (A : Allocator σ) (Inv : σ → List Block → Prop) (numIds : Nat) (d : State σ)
    (op : Traceop) (l' : Ledger) : Prop :=
  (∃ d' bs', evalOp A numIds d op = some (.ok d') ∧ Tracks A Inv numIds d' l' bs' ∧
    ¬Misjudged op) ∨
  ∃ e, evalOp A numIds d op = some (.error e) ∧ Excused A d op e

theorem addRange_eq (hA : Refines A Inv (fun _ _ => True) base) (hbase : base % 8 = 0)
    {blocks sizes : Nat → Nat} (hnew : i ∉ l.ids)
    (h : Books Inv numIds s (Function.update blocks i p) sizes ((i, n) :: l) bs) :
    addRange (A.memlib s) (l.ranges blocks) p n =
      some (.ok (⟨p, p + n - 1⟩ :: l.ranges blocks)) := by
  obtain ⟨-, -, hpos, hn⟩ := h.sizes (i, n) List.mem_cons_self
  have hworld := h.world
  rw [Ledger.payloads_update hnew] at hworld
  apply addRange_handed (Consistent.handed hA hbase hworld) hpos hn
  · intro q hq
    obtain ⟨e, he, rfl⟩ := List.mem_map.mp hq
    exact ⟨⟨blocks e.1, e.2⟩, List.mem_map.mpr ⟨e, he, rfl⟩, rfl⟩
  · intro r hr
    obtain ⟨e, he, rfl⟩ := List.mem_map.mp hr
    exact (h.sizes e (List.mem_cons_of_mem _ he)).2.2.1

namespace Tracks

theorem removed (h : Tracks A Inv numIds d l bs) (hi : i ∈ l.ids) :
    removeRange d.ranges (d.blocks i) = (l.without i).ranges d.blocks := by
  rw [h.ranges]
  exact Ledger.ranges_without h.books.world.distinct hi

theorem filled_of_kept (h : Tracks A Inv numIds d l bs) {l₁ : Ledger} (hl : ∀ e ∈ l₁, e ∈ l)
    (hkeep : ∀ e ∈ l₁, ∀ k < e.2,
      (A.memlib s').mem (d.blocks e.1 + k) = (A.memlib d.heap).mem (d.blocks e.1 + k)) :
    Filled A s' d.blocks l₁ := by
  intro e he k hk
  rw [hkeep e he k hk]
  exact h.filled e (hl e he) k hk

theorem filled_without (h : Tracks A Inv numIds d l bs) {bs' : List Block} {c : Block}
    {new : Option Block} (hi : i ∈ l.ids) (hc : c.ptr = d.blocks i)
    (he : Effect A Inv d.heap s' bs bs' (some c) new) : Filled A s' d.blocks (l.without i) :=
  h.filled_of_kept (fun _ hl => (Ledger.mem_without.mp hl).1)
    fun _ hl => h.books.others_bytes hi hc he hl

theorem judge_alloc (hA : Refines A Inv (fun _ _ => True) base) (hbase : base % 8 = 0)
    (h : Tracks A Inv numIds d l bs) (htype : op.type = .alloc)
    (huse : l.use numIds op = some l') : Judged A Inv numIds d op l' := by
  simp only [Ledger.use, htype, Option.ite_none_right_eq_some] at huse
  obtain ⟨⟨hlt, hnew, hpos, hn⟩, hl'⟩ := huse
  obtain rfl := Option.some.inj hl'
  simp only [Judged, evalOp, htype, evalAlloc]
  rcases h.books.malloc hA hlt hnew hpos hn with ⟨s', heq⟩ | ⟨s', bs', b, heq, hb, he, hbooks⟩
  · exact .inr ⟨.mallocFailed, by simp [heq], htype, s', heq⟩
  · left
    have hadd := addRange_eq hA hbase hnew hbooks
    have hfilled : Filled A s' d.blocks l :=
      h.filled_of_kept (fun _ hl => hl) fun e hl => h.books.kept_bytes he hl (by simp)
    refine ⟨_, bs', ?_, remember_tracks hA hnew hbooks hfilled, by simp [Misjudged, htype]⟩
    simp only [heq, if_neg hb, h.ranges, hadd, if_pos hlt]

theorem judge_realloc (hA : Refines A Inv (fun _ _ => True) base) (hbase : base % 8 = 0)
    (h : Tracks A Inv numIds d l bs) (htype : op.type = .realloc)
    (huse : l.use numIds op = some l') : Judged A Inv numIds d op l' := by
  simp only [Ledger.use, htype, Option.ite_none_right_eq_some] at huse
  obtain ⟨⟨hi, hpos, hn⟩, hl'⟩ := huse
  obtain rfl := Option.some.inj hl'
  obtain ⟨hentry, hold, hmax, hlt⟩ := h.books.entry hi
  simp only [Judged, evalOp, htype, evalRealloc, if_pos hlt]
  rcases h.books.realloc hA hi hpos hn with
    ⟨s', heq⟩ | ⟨s', bs', c, b, heq, hb, hc, he, hbytes, hbooks⟩
  · exact .inr ⟨.reallocFailed, by simp [heq], htype, s', heq⟩
  · have hadd := addRange_eq hA hbase Ledger.not_mem_ids_without hbooks
    simp only [heq, if_neg hb, h.removed hi, hadd]
    -- the bytes that the driver compares are those of the smaller size
    have hsize : (if toInt op.size < toInt (d.blockSizes op.index) then toInt op.size
        else toInt (d.blockSizes op.index)) = min op.size (d.blockSizes op.index) := by
      simp only [toInt, if_pos hn, if_pos hmax]
      split <;> omega
    have hpres := preserved_iff (m := (A.memlib s').mem) (p := b.ptr) (i := op.index)
      (n := min op.size (d.blockSizes op.index)) (by omega) (by
        intro j hj
        rw [hbytes j (by omega) (by omega)]
        exact h.filled _ hentry j (by simp only; omega))
    rw [hsize]
    by_cases hbyte : lowByte op.index < 2 ^ 7
    · left
      exact ⟨_, bs', by rw [if_pos (hpres.mpr hbyte)],
        remember_tracks hA Ledger.not_mem_ids_without hbooks (h.filled_without hi hc he),
        fun hmis => hmis.2.not_gt hbyte⟩
    · right
      refine ⟨.notPreserved, ?_, htype, Nat.not_lt.mp hbyte⟩
      rw [if_neg fun hp => hbyte (hpres.mp hp)]

theorem judge_free (hA : Refines A Inv (fun _ _ => True) base)
    (h : Tracks A Inv numIds d l bs) (htype : op.type = .free)
    (huse : l.use numIds op = some l') : Judged A Inv numIds d op l' := by
  simp only [Ledger.use, htype, Option.ite_none_right_eq_some] at huse
  obtain ⟨hi, hl'⟩ := huse
  obtain rfl := Option.some.inj hl'
  obtain ⟨s', bs', c, heq, hc, he, hbooks⟩ := h.books.free hA hi
  left
  refine ⟨{ d with heap := s', ranges := (l.without op.index).ranges d.blocks }, bs', ?_,
    ⟨hbooks, rfl, h.filled_without hi hc he⟩, by simp [Misjudged, htype]⟩
  simp only [evalOp, htype, evalFree, if_pos (h.books.entry hi).2.2.2, h.removed hi, heq]
  rfl

theorem judge (hA : Refines A Inv (fun _ _ => True) base) (hbase : base % 8 = 0)
    (h : Tracks A Inv numIds d l bs) (huse : l.use numIds op = some l') :
    Judged A Inv numIds d op l' := by
  cases htype : op.type with
  | alloc => exact h.judge_alloc hA hbase htype huse
  | realloc => exact h.judge_realloc hA hbase htype huse
  | free => exact h.judge_free hA htype huse

end Tracks

/-! ## A whole trace -/

/-- The loop gets to the end of a trace without a misjudged request, or it
stops at a request with an excused error. -/
theorem evalOps_judged (hA : Refines A Inv (fun _ _ => True) base) (hbase : base % 8 = 0)
    {ops : List Traceop} (h : Tracks A Inv numIds d l bs)
    (huse : l.useAll numIds ops = some l') :
    (∃ d' bs', evalOps A numIds i d ops = some (.ok d') ∧ Tracks A Inv numIds d' l' bs' ∧
      ∀ op ∈ ops, ¬Misjudged op) ∨
    ∃ pre op post d' e, ops = pre ++ op :: post ∧ evalOps A numIds i d pre = some (.ok d') ∧
      evalOps A numIds i d ops = some (.error (i + pre.length, e)) ∧ Excused A d' op e := by
  induction ops generalizing d l bs i with
  | nil =>
      obtain rfl : l = l' := Option.some.inj huse
      exact .inl ⟨d, bs, rfl, h, by simp⟩
  | cons op ops ih =>
      obtain ⟨l₁, hop, hrest⟩ := Ledger.useAll_cons huse
      rcases h.judge hA hbase hop with ⟨d₁, bs₁, heval, htracks, hmis⟩ | ⟨e, heval, hexc⟩
      · have hstep : ∀ ops', evalOps A numIds i d (op :: ops') =
            evalOps A numIds (i + 1) d₁ ops' := by
          intro ops'
          simp only [evalOps, heval]
        rcases ih (i := i + 1) htracks hrest with
          ⟨d', bs', hok, htracks', hall⟩ | ⟨pre, op', post, d', e, rfl, hpre, herr, hexc⟩
        · exact .inl ⟨d', bs', (hstep ops).trans hok, htracks',
            List.forall_mem_cons.mpr ⟨hmis, hall⟩⟩
        · refine .inr ⟨op :: pre, op', post, d', e, rfl, (hstep pre).trans hpre, ?_, hexc⟩
          rw [hstep, herr, List.length_cons, Nat.add_assoc, Nat.add_comm 1]
      · exact .inr ⟨[], op, ops, d, e, rfl, rfl, by simp [evalOps, heval], hexc⟩

/-- `mm_init` on an arena that starts at `base` leaves a heap without
allocated blocks that takes `room` bytes at most. -/
structure Starts (P : Package σ) (Inv : σ → List Block → Prop) (base room : Nat) : Prop where
  init : ∀ s, (P.memlib s).memStartBrk = base →
    ∃ s' bs, P.mmInit (P.memResetBrk s) = some (s', 0) ∧ Inv s' bs ∧
      (∀ b ∈ bs, b.alloc = false) ∧ (P.memlib s').memBrk ≤ base + room

/-- The trace is accepted, or the first request that is not carried out is
reported, and it is excused. -/
def Verdict (P : Package σ) (numIds : Nat) (blocks sizes : Nat → Nat) (s : σ)
    (ops : List Traceop) : Prop :=
  (∃ d, evalMmValid P numIds blocks sizes s ops = some (.ok d) ∧ ∀ op ∈ ops, ¬Misjudged op) ∨
  ∃ pre op post d e, ops = pre ++ op :: post ∧
    evalMmValid P numIds blocks sizes s pre = some (.ok d) ∧
    evalMmValid P numIds blocks sizes s ops = some (.error (pre.length, e)) ∧
    Excused P.toAllocator d op e

variable {P : Package σ} {room : Nat} {blocks sizes : Nat → Nat} {ops : List Traceop}

theorem start_tracks (hinv : Inv s bs) (hfree : ∀ b ∈ bs, b.alloc = false) :
    Tracks A Inv numIds ⟨s, [], blocks, sizes⟩ [] bs where
  books := Books.nil hinv hfree
  ranges := rfl
  filled := by simp [Filled]

theorem evalMmValid_eq {s₁ : σ} (h : P.mmInit (P.memResetBrk s) = some (s₁, 0)) :
    evalMmValid P numIds blocks sizes s ops =
      evalOps P.toAllocator numIds 0 ⟨s₁, [], blocks, sizes⟩ ops := by
  simp [evalMmValid, h]

theorem verdict (hA : Refines P.toAllocator Inv (fun _ _ => True) base) (hbase : base % 8 = 0)
    (hP : Starts P Inv base room) (hs : (P.memlib s).memStartBrk = base)
    (huse : Ledger.useAll numIds [] ops = some l) : Verdict P numIds blocks sizes s ops := by
  obtain ⟨s₁, bs, hinit, hinv, hfree, -⟩ := hP.init s hs
  have hstart : Tracks P.toAllocator Inv numIds ⟨s₁, [], blocks, sizes⟩ [] bs :=
    start_tracks hinv hfree
  rcases evalOps_judged (i := 0) hA hbase hstart huse with
    ⟨d', bs', hok, -, hall⟩ | ⟨pre, op, post, d', e, hops, hpre, herr, hexc⟩
  · exact .inl ⟨d', (evalMmValid_eq hinit).trans hok, hall⟩
  · refine .inr ⟨pre, op, post, d', e, hops, (evalMmValid_eq hinit).trans hpre, ?_, hexc⟩
    rw [evalMmValid_eq hinit, herr, Nat.zero_add]

end CsappLabs.Malloc.Driver
