import CsappLabs.Proxy.Cache.Locking
import CsappLabs.Proxy.Reads

/-!
# The relay loop and the cached response

On a miss `process_request` relays the response through the stack buffer
`responseBuf` and then passes this buffer to `insert_cache` as a C string.  On
a hit it writes the cached string to the client.  The two agree only for short
responses without a NUL that happen to be followed by one.
-/

namespace CsappLabs.Proxy

open CsappLabs.Foundation Cache

def fill (buf data : List UInt8) : List UInt8 := data ++ buf.drop data.length

/-- The relay loop: what each `Rio_writen` sends to the client, and the buffer
at the end.  A read that fails has stored what came before the reset; the
`write` of `2 ^ 64 - 1` bytes that follows sends nothing, and the loop goes on. -/
def relayLoop : Nat → Rio → List UInt8 → Except Stop (List (List UInt8) × List UInt8)
  | 0, _, _ => .error .spinning
  | fuel + 1, rp, buf =>
      match rioReadnb rp maxline with
      | (data, false, rp) => relayLoop fuel rp (fill buf data)
      | (data, true, rp) =>
          if data.length = 0 then .ok ([], buf)
          else do
            let buf := fill buf data
            let (writes, buf') ← relayLoop fuel rp buf
            .ok (buf.take data.length :: writes, buf')

def relay (rp : Rio) (buf : List UInt8) : Except Stop (List (List UInt8) × List UInt8) :=
  relayLoop (rp.pending + 1) rp buf

inductive Reply where
  | cached (bytes : List UInt8)
  | relayed (writes : List (List UInt8))
  deriving DecidableEq

/-- The end of `process_request`, from `read_cache` on.  `buf` is what
`responseBuf` holds before the loop and `behind` the memory after it, where
`strlen` reads on when the buffer has no NUL. -/
def respond (ops : LockOps) (s : State) (key : Key) (origin : List Delivery)
    (buf behind : List UInt8) : Except Stop (Reply × State) := do
  let (value, s) ← readCache ops s key
  match value with
  | some v => .ok (.cached v.bytes, s)
  | none =>
      let (writes, buf) ← relay (rioReadinitb origin) buf
      match CString.ofBuffer (buf ++ behind) with
      | none => .error .fault
      | some v =>
          let s ← insertCache ops s key.host key.port key.path (some v)
          .ok (.relayed writes, s)

variable {s s' : State} {key : Key} {origin : List Delivery} {buf behind R : List UInt8}
  {rp : Rio} {cs : List Call} {clock : Nat → UInt64}

def lastFill : Nat → List UInt8 → List UInt8 → List UInt8
  | 0, _, buf => buf
  | fuel + 1, R, buf =>
      if R = [] then buf else lastFill fuel (R.drop maxline) (fill buf (R.take maxline))

theorem take_fill (data : List UInt8) : (fill buf data).take data.length = data := by
  simp [fill]

/-- A response that fits into the buffer is followed by what was there before. -/
theorem lastFill_of_le (hlen : R.length ≤ maxline) :
    lastFill (R.length + 1) R buf = R ++ buf.drop R.length := by
  cases R with
  | nil => simp [lastFill]
  | cons b R =>
      rw [lastFill, if_neg (List.cons_ne_nil b R), List.take_of_length_le hlen,
        List.drop_of_length_le hlen, List.length_cons, lastFill, if_pos rfl]
      rfl

theorem lastFill_fuel {fuel fuel' : Nat} (h : R.length < fuel) (h' : R.length < fuel') :
    lastFill fuel R buf = lastFill fuel' R buf := by
  induction fuel generalizing fuel' R buf with
  | zero => exact absurd h (Nat.not_lt_zero _)
  | succ fuel ih =>
      obtain ⟨fuel', rfl⟩ := Nat.exists_eq_succ_of_ne_zero (Nat.ne_of_gt (Nat.zero_lt_of_lt h'))
      by_cases hR : R = []
      · rw [lastFill, lastFill, if_pos hR, if_pos hR]
      · have hpos := List.length_pos_of_ne_nil hR
        have hmax : 0 < maxline := by decide
        rw [lastFill, lastFill, if_neg hR, if_neg hR]
        apply ih <;> rw [List.length_drop] <;> omega

theorem lastFill_cons (hR : R ≠ []) :
    lastFill (R.length + 1) R buf =
      lastFill ((R.drop maxline).length + 1) (R.drop maxline) (fill buf (R.take maxline)) := by
  have hpos := List.length_pos_of_ne_nil hR
  have hmax : 0 < maxline := by decide
  rw [lastFill, if_neg hR]
  apply lastFill_fuel _ (Nat.lt_succ_self _)
  rw [List.length_drop]
  omega

theorem relayLoop_spec (fuel : Nat) (h : ResetLast rp.incoming) (hfuel : rp.pending < fuel) :
    ∃ writes, relayLoop fuel rp buf = .ok (writes, lastFill (rp.stream.length + 1) rp.stream buf) ∧
      (rp.Clean → writes.flatten = rp.stream) := by
  induction fuel generalizing rp buf with
  | zero => exact absurd hfuel (Nat.not_lt_zero _)
  | succ fuel ih =>
      obtain ⟨ok, rp₁, heq, hstream, hlast, hclean⟩ := rioReadnb_resetLast maxline h
      have hmax : 0 < maxline := by decide
      have hpending := readnbLoop_pending maxline rp maxline
      rw [← rioReadnb, heq] at hpending
      cases ok with
      | false =>
          obtain ⟨writes, heq', -⟩ := @ih (fill buf (rp.stream.take maxline)) rp₁ hlast
            (Nat.lt_of_lt_of_le hpending (Nat.le_of_lt_succ hfuel))
          refine ⟨writes, ?_, fun hc => absurd (hclean hc).1 Bool.false_ne_true⟩
          simp only [relayLoop, heq, heq', hstream]
          by_cases hnil : rp.stream = []
          · simp [hnil, fill]
          · rw [lastFill_cons hnil]
      | true =>
          by_cases hnil : rp.stream = []
          · exact ⟨[], by simp [relayLoop, heq, hnil, lastFill], fun _ => hnil.symm⟩
          · have hpos : 0 < rp.stream.length := List.length_pos_of_ne_nil hnil
            have hlen : (rp.stream.take maxline).length ≠ 0 := by
              rw [List.length_take]
              omega
            obtain ⟨writes, heq', hflat⟩ := @ih (fill buf (rp.stream.take maxline)) rp₁ hlast
              (by dsimp only at hpending; omega)
            refine ⟨rp.stream.take maxline :: writes, ?_, fun hc => ?_⟩
            · simp only [relayLoop, heq, if_neg hlen, heq', bind, Except.bind, take_fill, hstream,
                lastFill_cons hnil]
            · rw [List.flatten_cons, hflat (hclean hc).2, hstream, List.take_append_drop]

theorem relay_spec (buf : List UInt8) (h : ResetLast rp.incoming) :
    ∃ writes, relay rp buf = .ok (writes, lastFill (rp.stream.length + 1) rp.stream buf) ∧
      (rp.Clean → writes.flatten = rp.stream) :=
  relayLoop_spec _ h (Nat.lt_succ_self _)

/-! ## What is stored -/

theorem length_lastFill (fuel : Nat) (hbuf : buf.length = maxline) :
    (lastFill fuel R buf).length = maxline := by
  induction fuel generalizing R buf with
  | zero => exact hbuf
  | succ fuel ih =>
      by_cases hR : R = []
      · simp [lastFill, hR, hbuf]
      · rw [lastFill, if_neg hR]
        apply ih
        rw [fill, List.length_append, List.length_drop, hbuf, List.length_take]
        omega

def StoresResponse (R buf : List UInt8) : Prop :=
  ∀ behind v, 0 ∈ behind →
    CString.ofBuffer (lastFill (R.length + 1) R buf ++ behind) = some v → Storable v → v.bytes = R

theorem storesResponse_of (hlen : R.length < maxline) (hnul : 0 ∉ R)
    (hend : buf[R.length]? = some 0) : StoresResponse R buf := by
  intro behind v _ hv _
  obtain ⟨hlt, hget⟩ := List.getElem?_eq_some_iff.mp hend
  rw [lastFill_of_le hlen.le, List.drop_eq_getElem_cons hlt, hget, List.append_assoc,
    List.cons_append, CString.ofBuffer_append hnul] at hv
  rw [← Option.some.inj hv]

theorem StoresResponse.conditions (h : StoresResponse R buf) (hbuf : buf.length = maxline) :
    R.length < maxline ∧ 0 ∉ R ∧ buf[R.length]? = some 0 := by
  have hlast : (lastFill (R.length + 1) R buf).length = maxline := length_lastFill _ hbuf
  -- the string ends at a NUL right behind the buffer at the latest
  have hstored : ∀ behind : List UInt8, 0 ∈ behind → behind.length ≤ 2 →
      (lastFill (R.length + 1) R buf ++ behind).takeWhile (· ≠ 0) = R := by
    intro behind h0 hshort
    have hmem : 0 ∈ lastFill (R.length + 1) R buf ++ behind := List.mem_append_right _ h0
    refine h behind _ h0 (CString.ofBuffer_of_mem hmem) ?_
    have hle := (List.takeWhile_sublist (l := lastFill (R.length + 1) R buf ++ behind)
      (· ≠ 0)).length_le
    rw [List.length_append, hlast] at hle
    show ((lastFill (R.length + 1) R buf ++ behind).takeWhile (· ≠ 0)).length + 1 ≤ maxObjectSize
    have hmax : maxline = 8192 := rfl
    have hobj : maxObjectSize = 102400 := rfl
    omega
  have hzero := hstored [0] (by simp) (by simp)
  have hnul : 0 ∉ R := hzero ▸ CString.not_mem_takeWhile _
  have hle : R.length ≤ maxline := by
    rw [CString.takeWhile_append_nul] at hzero
    have hsub := (List.takeWhile_sublist (l := lastFill (R.length + 1) R buf) (· ≠ 0)).length_le
    rwa [hzero, hlast] at hsub
  rw [lastFill_of_le hle] at hstored hzero
  have hlt : R.length < maxline := by
    apply Nat.lt_of_le_of_ne hle
    intro hfull
    have hone := hstored [1, 0] (by simp) (by simp)
    rw [List.drop_of_length_le (by rw [hbuf, hfull]), List.append_nil,
      CString.takeWhile_append hnul] at hone
    simp at hone
  refine ⟨hlt, hnul, ?_⟩
  have hlen : R.length < buf.length := by rwa [hbuf]
  rw [List.append_assoc, CString.takeWhile_append hnul, List.drop_eq_getElem_cons hlen,
    List.cons_append, List.append_right_eq_self, List.takeWhile_cons] at hzero
  have hget : buf[R.length] = 0 := by
    by_contra hne
    have hpos : decide (buf[R.length] ≠ 0) = true := by simpa using hne
    rw [if_pos hpos] at hzero
    cases hzero
  rw [List.getElem?_eq_getElem hlen, hget]

/-- The right string is stored exactly when the response is short, has no NUL
and is followed by one in the buffer. -/
theorem storesResponse_iff (hbuf : buf.length = maxline) :
    StoresResponse R buf ↔ R.length < maxline ∧ 0 ∉ R ∧ buf[R.length]? = some 0 :=
  ⟨fun h => h.conditions hbuf, fun ⟨hlen, hnul, hend⟩ => storesResponse_of hlen hnul hend⟩

/-! ## The hit -/

/-- The cache between two requests of one thread; no clock reading was zero. -/
structure Serving (s : State) (xs : List Ptr) : Prop where
  cached : Cached s xs
  idle : s.locks.Idle
  clock : ∀ t, s.clock t ≠ 0
  stamped : ∀ p ∈ xs, s.stampOf p ≠ 0

def StoredAs (s : State) (xs : List Ptr) (k : Key) (text : List UInt8) : Prop :=
  ∀ p ∈ xs, s.keyOf p = some k → ∃ v, s.valueOf p = some v ∧ v.bytes = text

variable {s₁ : State} {xs ys xs' : List Ptr} {k : Key} {v : CString} {c : Call} {t : Ptr}

theorem calls_cons (heq : calls semaphores s (c :: cs) = .ok s') :
    ∃ s₁, call semaphores s c = .ok s₁ ∧ calls semaphores s₁ cs = .ok s' := by
  cases hcall : call semaphores s c with
  | error e =>
      simp only [calls, hcall, bind, Except.bind] at heq
      cases heq
  | ok s₁ =>
      simp only [calls, hcall, bind, Except.bind] at heq
      exact ⟨s₁, rfl, heq⟩

namespace Serving

theorem init (hclock : ∀ t, clock t ≠ 0) : Serving (initLRUCache clock) [] where
  cached := cached_init clock
  idle := init_idle clock
  clock := hclock
  stamped := by simp

theorem kept (h : Serving s xs) (hk : Kept s s') (hidle : s'.locks.Idle) (hc : Cached s' ys)
    (hys : ys ⊆ xs) : Serving s' ys where
  cached := hc
  idle := hidle
  clock := by rw [hk.clock_eq]; exact h.clock
  stamped p hp := hk.stamp h.clock p (h.stamped p (hys hp))

theorem inserted (h : Serving s xs) (hins : Inserted s k v xs s') (hidle : s'.locks.Idle) :
    Serving s' (s.brk :: xs) where
  cached := hins.cached
  idle := hidle
  clock := by rw [hins.clock]; exact h.clock
  stamped p hp := by
    cases List.mem_cons.mp hp with
    | inl hp => exact hp ▸ hins.stamp h.clock
    | inr hp => exact hins.stampOf h.clock p hp (h.stamped p hp)

theorem touch_subset (ht : t ∈ xs) : touch t xs ⊆ xs := by
  intro p hp
  cases mem_touch.mp hp with
  | inl he => exact he ▸ ht
  | inr hp => exact hp

theorem readCache_cases (h : Serving s xs) (k : Key) :
    (∃ s', readCache semaphores s k = .ok (none, s') ∧ Kept s s' ∧ Serving s' xs ∧
      lookup s k = .ok none) ∨
    ∃ p v s' ys, readCache semaphores s k = .ok (some v, s') ∧ Kept s s' ∧ Serving s' ys ∧
      ys ⊆ xs ∧ p ∈ xs ∧ s.keyOf p = some k ∧ s.valueOf p = some v := by
  cases readCache_spec semaphores_balanced h.cached h.idle k with
  | inl hmiss =>
      obtain ⟨hpos, s', heq, hidle, hkept, hc⟩ := hmiss
      exact .inl ⟨s', heq, hkept, h.kept hkept hidle hc (List.Subset.refl xs), hpos⟩
  | inr hhit =>
      obtain ⟨i, s', hpos, heq, hidle, hkept, hc⟩ := hhit
      have hfound : Hit s k i := hit_of_lookup h.cached hpos
      have hmem := h.cached.slotted.mem i hfound.1
      obtain ⟨-, v, -, hv, -⟩ := h.cached.entry _ hmem
      rw [hv] at heq
      have hsub : touch (s.cachemap i) xs ⊆ xs := touch_subset hmem
      exact .inr ⟨_, v, s', _, heq, hkept, h.kept hkept hidle hc hsub, hsub, hmem, hfound.2.1, hv⟩

theorem call_ok (h : Serving s xs) (heq : call semaphores s c = .ok s') :
    ∃ ys, Serving s' ys ∧ ∀ p ∈ ys,
      p ∈ xs ∧ s'.keyOf p = s.keyOf p ∧ s'.valueOf p = s.valueOf p ∨
        ∃ k v, c = .insert k (some v) ∧ s'.keyOf p = some k := by
  have hold : ∀ {s₁ : State} {ys : List Ptr}, Kept s s₁ → ys ⊆ xs → ∀ p ∈ ys,
      p ∈ xs ∧ s₁.keyOf p = s.keyOf p ∧ s₁.valueOf p = s.valueOf p ∨
        ∃ k v, c = .insert k (some v) ∧ s₁.keyOf p = some k :=
    fun hk hys p hp => .inl ⟨hys hp, hk.keyOf p, hk.valueOf p⟩
  cases c with
  | read k =>
      cases h.readCache_cases k with
      | inl hmiss =>
          obtain ⟨s₁, hread, hkept, h₁, -⟩ := hmiss
          simp only [call, hread, Except.map, Except.ok.injEq] at heq
          exact ⟨xs, heq ▸ h₁, heq ▸ hold hkept (List.Subset.refl xs)⟩
      | inr hhit =>
          obtain ⟨p, v, s₁, ys, hread, hkept, h₁, hys, -⟩ := hhit
          simp only [call, hread, Except.map, Except.ok.injEq] at heq
          exact ⟨ys, heq ▸ h₁, heq ▸ hold hkept hys⟩
  | insert k value =>
      cases value with
      | none =>
          obtain rfl : s = s' := Except.ok.inj heq
          exact ⟨xs, h, hold (.refl s) (List.Subset.refl xs)⟩
      | some v =>
          by_cases hv : Storable v
          · have hroom : HasRoom s (.insert k (some v)) := by
              by_contra hno
              rw [call_of_no_room h.cached h.idle hno] at heq
              cases heq
            cases lookup_spec h.cached k with
            | inl hmiss =>
                have hlen : xs.length < maxCacheCapacity := by
                  cases hroom hv with
                  | inl hlt => rwa [h.cached.count, h.cached.total] at hlt
                  | inr hfound =>
                      obtain ⟨i, hsome⟩ := hfound
                      rw [hmiss.1] at hsome
                      cases hsome
                obtain ⟨s₁, hput, hidle, hins⟩ :=
                  insertCache_of_room semaphores_balanced h.cached h.idle hv hmiss.1 hlen
                obtain rfl : s₁ = s' := Except.ok.inj (hput.symm.trans heq)
                refine ⟨_, h.inserted hins hidle, fun p hp => ?_⟩
                cases List.mem_cons.mp hp with
                | inl he => exact .inr ⟨k, v, rfl, he ▸ hins.key⟩
                | inr hp => exact .inl ⟨hp, hins.keyOf p hp, hins.valueOf p hp⟩
            | inr hhit =>
                obtain ⟨i, hsome, hfound⟩ := hhit
                obtain ⟨s₁, hput, hidle, hkept, hc⟩ :=
                  insertCache_of_hit semaphores_balanced h.cached h.idle hv hsome
                obtain rfl : s₁ = s' := Except.ok.inj (hput.symm.trans heq)
                have hsub := touch_subset (h.cached.slotted.mem i hfound.1)
                exact ⟨_, h.kept hkept hidle hc hsub, hold hkept hsub⟩
          · obtain rfl : s = s' := Except.ok.inj ((insertCache_oversized hv).symm.trans heq)
            exact ⟨xs, h, hold (.refl s) (List.Subset.refl xs)⟩

theorem calls_storedAs (h : Serving s xs) (hst : StoredAs s xs key R)
    (hcs : ∀ w, Call.insert key w ∉ cs) (heq : calls semaphores s cs = .ok s') :
    ∃ ys, Serving s' ys ∧ StoredAs s' ys key R := by
  induction cs generalizing s xs with
  | nil =>
      obtain rfl : s = s' := Except.ok.inj heq
      exact ⟨xs, h, hst⟩
  | cons c cs ih =>
      simp only [List.mem_cons, not_or] at hcs
      obtain ⟨s₁, hcall, hrest⟩ := calls_cons heq
      obtain ⟨ys, h₁, hfrom⟩ := h.call_ok hcall
      have hst₁ : StoredAs s₁ ys key R := by
        intro p hp hk
        cases hfrom p hp with
        | inl hold =>
            obtain ⟨hpx, hkey, hvalue⟩ := hold
            rw [hvalue]
            exact hst p hpx (hkey.symm.trans hk)
        | inr hnew =>
            obtain ⟨k, w, hc, hkey⟩ := hnew
            obtain rfl : k = key := Option.some.inj (hkey.symm.trans hk)
            exact absurd hc.symm (hcs (some w)).1
      exact ih h₁ hst₁ (fun w => (hcs w).2) hrest

theorem respond_hit (h : Serving s xs) (hst : StoredAs s xs key R) {bytes : List UInt8}
    (heq : respond semaphores s key origin buf behind = .ok (.cached bytes, s')) : bytes = R := by
  cases h.readCache_cases key with
  | inl hmiss =>
      obtain ⟨s₁, hread, -⟩ := hmiss
      simp only [respond, hread, bind, Except.bind] at heq
      split at heq
      · cases heq
      · split at heq
        · cases heq
        · split at heq <;> cases heq
  | inr hhit =>
      obtain ⟨p, v, s₁, ys, hread, -, -, -, hp, hkey, hvalue⟩ := hhit
      simp only [respond, hread, bind, Except.bind, Except.ok.injEq, Prod.mk.injEq,
        Reply.cached.injEq] at heq
      obtain ⟨w, hw, htext⟩ := hst p hp hkey
      obtain rfl : v = w := Option.some.inj (hvalue.symm.trans hw)
      rw [← heq.1, htext]

theorem not_key_of_miss (h : Serving s xs) (hpos : lookup s k = .ok none) :
    ∀ p ∈ xs, s.keyOf p ≠ some k := h.cached.not_key_of_miss h.stamped hpos

theorem respond_of_miss (h : Serving s xs) (hpos : lookup s key = .ok none)
    (hlast : ResetLast origin)
    (hv : CString.ofBuffer (lastFill ((origin.flatMap Delivery.data).length + 1)
      (origin.flatMap Delivery.data) buf ++ behind) = some v) :
    ∃ s₁ writes, Serving s₁ xs ∧ lookup s₁ key = .ok none ∧
      respond semaphores s key origin buf behind =
        (call semaphores s₁ (.insert key (some v))).map fun s₂ => (.relayed writes, s₂) := by
  cases h.readCache_cases key with
  | inl hmiss =>
      obtain ⟨s₁, hread, hkept, h₁, -⟩ := hmiss
      obtain ⟨writes, hrelay, -⟩ := @relay_spec (rioReadinitb origin) buf hlast
      have hstream : (rioReadinitb origin).stream = origin.flatMap Delivery.data := rfl
      rw [hstream] at hrelay
      have hpos₁ : lookup s₁ key = .ok none := by
        cases lookup_spec h₁.cached key with
        | inl hnone => exact hnone.1
        | inr hhit =>
            obtain ⟨i, -, hfound⟩ := hhit
            have hmem := h₁.cached.slotted.mem i hfound.1
            exact absurd ((hkept.keyOf _).symm.trans hfound.2.1) (h.not_key_of_miss hpos _ hmem)
      refine ⟨s₁, writes, h₁, hpos₁, ?_⟩
      simp only [respond, hread, hrelay, hv, bind, Except.bind, call]
      cases insertCache semaphores s₁ key.host key.port key.path (some v) <;> rfl
  | inr hhit =>
      obtain ⟨p, -, -, -, -, -, -, -, hp, hkey, -⟩ := hhit
      exact absurd hkey (h.not_key_of_miss hpos p hp)

theorem insert_storedAs (h : Serving s xs) (hpos : lookup s key = .ok none)
    (hroom : xs.length < maxCacheCapacity) (hv : Storable v) :
    ∃ s', call semaphores s (.insert key (some v)) = .ok s' ∧ Serving s' (s.brk :: xs) ∧
      s'.keyOf s.brk = some key ∧ StoredAs s' (s.brk :: xs) key v.bytes := by
  obtain ⟨s', hput, hidle, hins⟩ :=
    insertCache_of_room semaphores_balanced h.cached h.idle hv hpos hroom
  refine ⟨s', hput, h.inserted hins hidle, hins.key, fun p hp hk => ?_⟩
  cases List.mem_cons.mp hp with
  | inl he => exact ⟨v, he ▸ hins.value, rfl⟩
  | inr hp => exact absurd ((hins.keyOf p hp).symm.trans hk) (h.not_key_of_miss hpos p hp)

theorem insert_storedAs_of_ok (h : Serving s xs) (hpos : lookup s key = .ok none)
    (heq : call semaphores s (.insert key (some v)) = .ok s')
    (hR : xs.length < maxCacheCapacity → Storable v → v.bytes = R) :
    ∃ ys, Serving s' ys ∧ StoredAs s' ys key R := by
  by_cases hv : Storable v
  · have hroom : HasRoom s (.insert key (some v)) := by
      by_contra hno
      rw [call_of_no_room h.cached h.idle hno] at heq
      cases heq
    have hlen : xs.length < maxCacheCapacity := by
      cases hroom hv with
      | inl hlt => rwa [h.cached.count, h.cached.total] at hlt
      | inr hfound =>
          obtain ⟨i, hsome⟩ := hfound
          rw [hpos] at hsome
          cases hsome
    obtain ⟨s₁, hput, h₁, -, hst⟩ := h.insert_storedAs hpos hlen hv
    obtain rfl : s₁ = s' := Except.ok.inj (hput.symm.trans heq)
    exact ⟨_, h₁, hR hlen hv ▸ hst⟩
  · obtain rfl : s = s' := Except.ok.inj ((insertCache_oversized hv).symm.trans heq)
    exact ⟨xs, h, fun p hp hk => absurd hk (h.not_key_of_miss hpos p hp)⟩

end Serving

/-- Whatever a later hit writes is the response, as long as the key is not
inserted again. -/
def Transparent (s : State) (key : Key) (origin : List Delivery) (buf : List UInt8) : Prop :=
  ∀ behind writes s₁, 0 ∈ behind →
    respond semaphores s key origin buf behind = .ok (.relayed writes, s₁) →
  ∀ cs s₂, (∀ w, Call.insert key w ∉ cs) → calls semaphores s₁ cs = .ok s₂ →
  ∀ origin' buf' behind' bytes s₃,
    respond semaphores s₂ key origin' buf' behind' = .ok (.cached bytes, s₃) →
    bytes = origin.flatMap Delivery.data

theorem ofBuffer_lastFill (buf : List UInt8) (hnul : 0 ∈ behind) :
    ∃ v, CString.ofBuffer (lastFill (R.length + 1) R buf ++ behind) = some v :=
  ⟨_, CString.ofBuffer_of_mem (List.mem_append_right _ hnul)⟩

theorem transparent_of (h : Serving s xs) (hpos : lookup s key = .ok none)
    (hlast : ResetLast origin)
    (hstores : xs.length < maxCacheCapacity →
      StoresResponse (origin.flatMap Delivery.data) buf) : Transparent s key origin buf := by
  intro behind writes s₁ hnul heq cs s₂ hcs hcalls origin' buf' behind' bytes s₃ hhit
  obtain ⟨v, hv⟩ := ofBuffer_lastFill buf hnul (R := origin.flatMap Delivery.data)
  obtain ⟨s₀, writes', h₀, hpos₀, hrespond⟩ := h.respond_of_miss hpos hlast hv
  rw [hrespond] at heq
  cases hput : call semaphores s₀ (.insert key (some v)) with
  | error e =>
      rw [hput] at heq
      cases heq
  | ok s₁' =>
      rw [hput] at heq
      obtain rfl : s₁' = s₁ := (Prod.mk.inj (Except.ok.inj heq)).2
      obtain ⟨ys, h₁, hst⟩ := h₀.insert_storedAs_of_ok hpos₀ hput fun hroom =>
        hstores hroom behind v hnul hv
      obtain ⟨zs, h₂, hst₂⟩ := h₁.calls_storedAs hst hcs hcalls
      exact h₂.respond_hit hst₂ hhit

theorem Transparent.storesResponse (h : Serving s xs) (hpos : lookup s key = .ok none)
    (hlast : ResetLast origin) (hroom : xs.length < maxCacheCapacity)
    (ht : Transparent s key origin buf) : StoresResponse (origin.flatMap Delivery.data) buf := by
  intro behind v hnul hv hstorable
  obtain ⟨s₀, writes, h₀, hpos₀, hrespond⟩ := h.respond_of_miss hpos hlast hv
  obtain ⟨s₁, hput, h₁, hkey, hst⟩ := h₀.insert_storedAs hpos₀ hroom hstorable
  rw [hput] at hrespond
  cases h₁.readCache_cases key with
  | inl hmiss =>
      obtain ⟨-, -, -, -, hnone⟩ := hmiss
      exact absurd hkey (h₁.not_key_of_miss hnone _ (List.mem_cons_self ..))
  | inr hhit =>
      obtain ⟨p, w, s₂, -, hread, -⟩ := hhit
      have hcached : respond semaphores s₁ key [] [] [] = .ok (.cached w.bytes, s₂) := by
        simp only [respond, hread, bind, Except.bind]
      rw [← h₁.respond_hit hst hcached]
      exact ht behind writes s₁ hnul hrespond [] s₁ (by simp) rfl [] [] [] w.bytes s₂ hcached

theorem Serving.calls_ok (h : Serving s xs) (heq : calls semaphores s cs = .ok s') :
    ∃ ys, Serving s' ys := by
  induction cs generalizing s xs with
  | nil =>
      obtain rfl : s = s' := Except.ok.inj heq
      exact ⟨xs, h⟩
  | cons c cs ih =>
      obtain ⟨s₁, hcall, hrest⟩ := calls_cons heq
      obtain ⟨ys, h₁, -⟩ := h.call_ok hcall
      exact ih h₁ hrest

theorem transparent_iff_storesResponse (hclock : ∀ t, clock t ≠ 0)
    (hs : calls semaphores (initLRUCache clock) cs = .ok s)
    (hmiss : ∃ s₀, readCache semaphores s key = .ok (none, s₀))
    (hlast : ResetLast origin) :
    Transparent s key origin buf ↔
      (s.currentCapacity < s.totalCapacity →
        StoresResponse (origin.flatMap Delivery.data) buf) := by
  obtain ⟨xs, h⟩ := (Serving.init hclock).calls_ok hs
  have hpos : lookup s key = .ok none := by
    cases h.readCache_cases key with
    | inl hnone =>
        obtain ⟨-, -, -, -, hpos⟩ := hnone
        exact hpos
    | inr hhit =>
        obtain ⟨p, v, s₁, ys, hread, -⟩ := hhit
        obtain ⟨s₀, hmiss⟩ := hmiss
        rw [hread] at hmiss
        cases hmiss
  rw [h.cached.count, h.cached.total]
  exact ⟨fun ht hroom => ht.storesResponse h hpos hlast hroom, transparent_of h hpos hlast⟩

/-- A hit repeats the response exactly when the response is shorter than the
buffer, has no NUL and happens to be followed by one, unless the cache is full
and the insertion does not return. -/
theorem transparent_iff (hclock : ∀ t, clock t ≠ 0)
    (hs : calls semaphores (initLRUCache clock) cs = .ok s)
    (hmiss : ∃ s₀, readCache semaphores s key = .ok (none, s₀))
    (hlast : ResetLast origin) (hbuf : buf.length = maxline)
    (hR : origin.flatMap Delivery.data = R) :
    Transparent s key origin buf ↔
      s.totalCapacity ≤ s.currentCapacity ∨
        R.length < maxline ∧ 0 ∉ R ∧ buf[R.length]? = some 0 := by
  rw [transparent_iff_storesResponse hclock hs hmiss hlast, hR, storesResponse_iff hbuf,
    ← Nat.not_lt]
  exact imp_iff_not_or

theorem transparent_iff_reread :
    Transparent (initLRUCache fun _ => 1) (page 0) [.bytes 120 []] (List.replicate maxline 0) ↔
      (initLRUCache fun _ => 1).totalCapacity ≤ (initLRUCache fun _ => 1).currentCapacity ∨
        [120].length < maxline ∧ (0 : UInt8) ∉ [120] ∧
          (List.replicate maxline (0 : UInt8))[[(120 : UInt8)].length]? = some 0 :=
  transparent_iff (fun _ => by decide)
    (rfl : calls semaphores (initLRUCache fun _ => 1) [] = .ok _) ⟨_, rfl⟩
    (show ResetLast [.bytes 120 []] from trivial) List.length_replicate rfl

/-- A response that fills the buffer comes back with what lies behind it. -/
theorem long_response_changed :
    ¬∀ clock, (∀ t, clock t ≠ 0) → ∀ cs s, calls semaphores (initLRUCache clock) cs = .ok s →
      ∀ key, (∃ s₀, readCache semaphores s key = .ok (none, s₀)) →
      ∀ origin, Delivery.reset ∉ origin →
      (origin.flatMap Delivery.data).length < maxObjectSize →
      ∀ buf, buf.length = maxline → Transparent s key origin buf := by
  intro hall
  have hlen : ([Delivery.bytes 120 (List.replicate 8191 120)].flatMap Delivery.data).length =
      maxline := by
    rw [List.flatMap_singleton, Delivery.data, List.length_cons, List.length_replicate, maxline]
  have hclean : Delivery.reset ∉ [Delivery.bytes 120 (List.replicate 8191 120)] := by
    intro hmem
    cases List.mem_singleton.mp hmem
  have hmiss : ∃ s₀, readCache semaphores (initLRUCache fun _ => 1) (page 0) = .ok (none, s₀) :=
    ⟨_, rfl⟩
  have hsmall : maxline < maxObjectSize := by decide
  have ht := hall (fun _ => 1) (fun _ => by decide) [] _ rfl (page 0) hmiss _ hclean
    (hlen ▸ hsmall) (List.replicate maxline 0) List.length_replicate
  have hstart : calls semaphores (initLRUCache fun _ => 1) [] = .ok (initLRUCache fun _ => 1) := rfl
  rw [transparent_iff_storesResponse (fun _ => by decide) hstart hmiss (resetLast_of_clean hclean),
    storesResponse_iff List.length_replicate, hlen] at ht
  exact absurd (ht (by decide)).1 (Nat.lt_irrefl _)

end CsappLabs.Proxy
