import CsappLabs.Proxy.Reads
import CsappLabs.Proxy.Request.Model

/-!
# Relaying from a connection that fails

In the relay loop one `int` is the count of `Rio_readnb` and the size of
`Rio_writen`.  After a failure the size is `2 ^ 64 - 1`.  Whatever `write` does
with it, `Rio_writen` returns, because the `-1` that it compares with the size
is converted to the same number, and the loop goes on to the end of the input
and inserts what is in the array.
-/

namespace CsappLabs.Proxy.Request

open CsappLabs.Foundation

/-- The outcome of one `write` to the client; at least one byte is written. -/
inductive Written where
  | bytes (more : Nat)
  | interrupted
  | pipe
  | failed
  deriving DecidableEq

/-- `errno` after a `write` that fails. -/
inductive WriteError where
  | pipe
  | other
  deriving DecidableEq

/-- The loop of `rio_writen`; behind the listed outcomes everything is written
at once. -/
def writenLoop : List Written → Nat → Option WriteError × List Written
  | [], _ => (none, [])
  | w :: ws, nleft =>
      if nleft = 0 then (none, w :: ws)
      else
        match w with
        | .bytes more => writenLoop ws (nleft - (more + 1))
        | .interrupted => writenLoop ws nleft
        | .pipe => (some .pipe, ws)
        | .failed => (some .other, ws)

/-- `Rio_writen`; `none` when `unix_error` ends the process. -/
def rioWriten (ws : List Written) (n : BitVec 64) : Option (List Written) :=
  let (error, ws) := writenLoop ws n.toNat
  let value := if error = none then n else -1
  if value ≠ n ∧ error ≠ some .pipe then none else some ws

def toSize : Option Nat → BitVec 64
  | some n => BitVec.ofNat 64 n
  | none => BitVec.ofInt 64 (-1)

structure WriteCall where
  buf : List UInt8
  n : BitVec 64
  deriving DecidableEq

def WriteCall.passed (c : WriteCall) : List UInt8 := c.buf.take c.n.toNat

structure Relayed where
  reads : List ChunkRead
  calls : List WriteCall
  inserted : Option (List UInt8)

def relayReads : List ChunkRead → List Written → List UInt8 → Relayed
  | [], _, buf => ⟨[], [], some buf⟩
  | r :: rs, ws, buf =>
      let buf := fill buf r.data
      let call : WriteCall := ⟨buf, toSize r.count⟩
      match rioWriten ws (toSize r.count) with
      | none => ⟨[r], [call], none⟩
      | some ws =>
          let out := relayReads rs ws buf
          ⟨r :: out.reads, call :: out.calls, out.inserted⟩

def bytesRead : ChunkRead → Option (List UInt8)
  | .bytes data _ => some data
  | .reset _ _ => none

/-- What is read is passed on, up to the end or the first failure, and nothing
is inserted after a failure. -/
structure RelaysRead (results : List ChunkRead) (out : Relayed) : Prop where
  passed : out.calls.map WriteCall.passed = out.reads.filterMap bytesRead
  bounded : ∀ c ∈ out.calls, c.n.toNat ≤ maxline
  stops : ∀ r ∈ out.reads.dropLast, r.count ≠ none
  complete : out.inserted ≠ none → out.reads = results
  notStored : (∃ r ∈ out.reads, r.count = none) → out.inserted = none

/-- No read fails before a write ends the process. -/
def NoReset : List ChunkRead → List Written → Prop
  | [], _ => True
  | .bytes data _ :: rs, ws =>
      ∀ ws', rioWriten ws (BitVec.ofNat 64 data.length) = some ws' → NoReset rs ws'
  | .reset _ _ :: _, _ => False

variable {results : List ChunkRead} {ws : List Written} {buf : List UInt8} {rp : Rio}
  {c : WriteCall} {r : ChunkRead} {fuel : Nat}

/-! ## One turn -/

theorem toNat_toSize {n : Nat} (h : n ≤ maxline) : (toSize (some n)).toNat = n := by
  have hmax : maxline < 2 ^ 64 := by decide
  rw [toSize, BitVec.toNat_ofNat, Nat.mod_eq_of_lt (Nat.lt_of_le_of_lt h hmax)]

theorem passed_bytes {data : List UInt8} (h : data.length ≤ maxline) (buf : List UInt8) :
    WriteCall.passed ⟨fill buf data, toSize (some data.length)⟩ = data := by
  rw [WriteCall.passed, toNat_toSize h, take_fill]

theorem rioWriten_reset (ws : List Written) : ∃ ws', rioWriten ws (toSize none) = some ws' := by
  refine ⟨_, if_neg ?_⟩
  rintro ⟨hne, -⟩
  apply hne
  split <;> rfl

theorem relayReads_calls (r : ChunkRead) (results : List ChunkRead) (ws : List Written)
    (buf : List UInt8) :
    ⟨fill buf r.data, toSize r.count⟩ ∈ (relayReads (r :: results) ws buf).calls := by
  rw [relayReads]
  split <;> exact List.mem_cons_self

theorem relayReads_calls_of_some {ws' : List Written}
    (h : rioWriten ws (toSize r.count) = some ws')
    (hc : c ∈ (relayReads results ws' (fill buf r.data)).calls) :
    c ∈ (relayReads (r :: results) ws buf).calls := by
  rw [relayReads, h]
  exact List.mem_cons_of_mem _ hc

/-! ## The whole loop -/

theorem noReset_of_bounded
    (h : ∀ c ∈ (relayReads results ws buf).calls, c.n.toNat ≤ maxline) : NoReset results ws := by
  induction results generalizing ws buf with
  | nil => exact trivial
  | cons r results ih =>
      cases r with
      | bytes data hdata =>
          intro ws' hws
          exact ih fun c hc => h c (relayReads_calls_of_some (r := .bytes data hdata) hws hc)
      | reset data hdata =>
          have hlong : ¬(toSize none).toNat ≤ maxline := by decide
          exact absurd (h _ (relayReads_calls (.reset data hdata) results ws buf)) hlong

theorem relayReads_spec (hresets : NoReset results ws) (buf : List UInt8) :
    (relayReads results ws buf).calls.map WriteCall.passed =
        (relayReads results ws buf).reads.filterMap bytesRead ∧
      (∀ c ∈ (relayReads results ws buf).calls, c.n.toNat ≤ maxline) ∧
      (∀ r ∈ (relayReads results ws buf).reads, r.count ≠ none) ∧
      ((relayReads results ws buf).inserted ≠ none →
        (relayReads results ws buf).reads = results) := by
  induction results generalizing ws buf with
  | nil => exact ⟨rfl, List.forall_mem_nil _, List.forall_mem_nil _, fun _ => rfl⟩
  | cons r results ih =>
      cases r with
      | reset data hdata => exact absurd hresets id
      | bytes data hdata =>
          have hpassed := passed_bytes hdata.2 buf
          have hn := toNat_toSize hdata.2
          simp only [relayReads, ReadResult.count, ReadResult.data]
          cases hws : rioWriten ws (toSize (some data.length)) with
          | none =>
              refine ⟨congrArg (· :: []) hpassed, ?_, ?_, fun hnone => absurd rfl hnone⟩
              · intro c hc
                obtain rfl := List.mem_singleton.mp hc
                exact (Nat.le_of_eq hn).trans hdata.2
              · intro r hr
                obtain rfl := List.mem_singleton.mp hr
                exact Option.some_ne_none _
          | some ws' =>
              obtain ⟨hcalls, hbounded, hreads, hcomplete⟩ := ih (hresets ws' hws) (fill buf data)
              refine ⟨?_, ?_, ?_, fun hsome => congrArg (_ :: ·) (hcomplete hsome)⟩
              · exact congr (congrArg _ hpassed) hcalls
              · intro c hc
                cases List.mem_cons.mp hc with
                | inl heq =>
                    subst heq
                    exact (Nat.le_of_eq hn).trans hdata.2
                | inr hc => exact hbounded c hc
              · intro r hr
                cases List.mem_cons.mp hr with
                | inl heq =>
                    subst heq
                    exact Option.some_ne_none _
                | inr hr => exact hreads r hr

/-- Exactly then the loop passes on what it reads. -/
theorem relaysRead_iff (results : List ChunkRead) (ws : List Written) (buf : List UInt8) :
    RelaysRead results (relayReads results ws buf) ↔ NoReset results ws := by
  constructor
  · exact fun h => noReset_of_bounded h.bounded
  · intro hresets
    obtain ⟨hpassed, hbounded, hreads, hcomplete⟩ := relayReads_spec hresets buf
    refine ⟨hpassed, hbounded, fun r hr => hreads r (List.mem_of_mem_dropLast hr), hcomplete, ?_⟩
    rintro ⟨r, hr, hnone⟩
    exact absurd hnone (hreads r hr)

/-! ## The loop of the proxy -/

/-- What is read is written at once, and the `write` after a failure fails. -/
def promptWrites : List ChunkRead → List Written
  | [] => []
  | .bytes data _ :: rs => .bytes (data.length - 1) :: promptWrites rs
  | .reset _ _ :: rs => .failed :: promptWrites rs

theorem writenLoop_zero (ws : List Written) : writenLoop ws 0 = (none, ws) := by
  cases ws <;> rfl

theorem rioWriten_prompt (r : ChunkRead) (rs : List ChunkRead) :
    rioWriten (promptWrites (r :: rs)) (toSize r.count) = some (promptWrites rs) := by
  cases r with
  | bytes data hdata =>
      have hpos := List.length_pos_of_ne_nil hdata.1
      have hone : data.length - (data.length - 1 + 1) = 0 := by omega
      simp only [rioWriten, promptWrites, ReadResult.count, toNat_toSize hdata.2, writenLoop,
        if_neg (Nat.ne_of_gt hpos), hone, writenLoop_zero]
      exact if_neg fun h => h.1 rfl
  | reset data hdata => rfl

theorem relayReads_prompt (r : ChunkRead) (rs : List ChunkRead) (buf : List UInt8) :
    (relayReads (r :: rs) (promptWrites (r :: rs)) buf).reads =
        r :: (relayReads rs (promptWrites rs) (fill buf r.data)).reads ∧
      (relayReads (r :: rs) (promptWrites (r :: rs)) buf).inserted =
        (relayReads rs (promptWrites rs) (fill buf r.data)).inserted := by
  rw [relayReads, rioWriten_prompt]
  exact ⟨rfl, rfl⟩

/-- When the writes succeed, `process_request` sends what the calls that did
not fail have read, and inserts the same array. -/
theorem relayLoop_eq (hfuel : rp.pending < fuel) (buf : List UInt8) :
    ∃ buf', relayLoop fuel rp buf =
        .ok ((relayReads rp.chunks (promptWrites rp.chunks) buf).reads.filterMap bytesRead,
          buf') ∧
      (relayReads rp.chunks (promptWrites rp.chunks) buf).inserted = some buf' := by
  induction fuel generalizing rp buf with
  | zero => exact absurd hfuel (Nat.not_lt_zero _)
  | succ fuel ih =>
      cases hnext : nextChunk rp with
      | none =>
          obtain ⟨rp', hend⟩ := resultOf_none hnext
          rw [chunks_of_none hnext]
          exact ⟨buf, by simp only [relayLoop, hend, List.length_nil, if_true]; rfl, rfl⟩
      | some next =>
          obtain ⟨r, rp'⟩ := next
          have hless : rp'.pending < fuel :=
            Nat.lt_of_lt_of_le (nextChunk_pending rp r rp' hnext) (Nat.le_of_lt_succ hfuel)
          obtain ⟨buf', hloop, hinserted⟩ := ih hless (fill buf r.data)
          obtain ⟨hreads, hsame⟩ := relayReads_prompt r rp'.chunks buf
          rw [chunks_of_some hnext, hreads, hsame]
          refine ⟨buf', ?_, hinserted⟩
          have hread := resultOf_some hnext
          cases r with
          | reset data hdata =>
              have hread' : rioReadnb rp maxline = (data, false, rp') := hread
              simp only [relayLoop, hread']
              exact hloop
          | bytes data hdata =>
              have hread' : rioReadnb rp maxline = (data, true, rp') := hread
              have hlen : data.length ≠ 0 := mt List.length_eq_zero_iff.mp hdata.1
              rw [ReadResult.data] at hloop
              simp only [relayLoop, hread', if_neg hlen, hloop, bind, Except.bind, take_fill]
              rfl

theorem relay_eq (rp : Rio) (buf : List UInt8) :
    ∃ buf', relay rp buf =
        .ok ((relayReads rp.chunks (promptWrites rp.chunks) buf).reads.filterMap bytesRead,
          buf') ∧
      (relayReads rp.chunks (promptWrites rp.chunks) buf).inserted = some buf' :=
  relayLoop_eq (Nat.lt_succ_self _) buf

/-- The server sends `x`, the connection is reset, and the write of
`2 ^ 64 - 1` bytes fails; then `x` is inserted. -/
theorem cut_response_inserted :
    ¬∀ rp ws buf, buf.length = maxline →
      RelaysRead (Rio.chunks rp) (relayReads (Rio.chunks rp) ws buf) := by
  intro hall
  have hrelays := hall (rioReadinitb [.bytes 120 [], .reset]) [.failed] (List.replicate maxline 0)
    List.length_replicate
  have hchunks : Rio.chunks (rioReadinitb [.bytes 120 [], .reset]) =
      [.reset [120] (by decide)] := by
    decide
  obtain ⟨ws', hws⟩ := rioWriten_reset [.failed]
  rw [hchunks] at hrelays
  simp only [relayReads, ReadResult.count, hws] at hrelays
  have hinserted : some (fill (List.replicate maxline 0) [120]) = none :=
    hrelays.notStored ⟨_, List.mem_cons_self, rfl⟩
  cases hinserted

end CsappLabs.Proxy.Request
