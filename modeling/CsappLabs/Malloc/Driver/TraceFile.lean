import CsappLabs.Foundation.Scan
import CsappLabs.Malloc.Driver.Balance

/-!
# Trace files (`read_trace`)

A trace file has four numbers and then one line for each request.  `read_trace`
takes them with `fscanf`, whose conversions leave a variable as it was where
they find no number.  The driver is a program of 32 bits.
-/

namespace CsappLabs.Malloc.Driver

open CsappLabs.Foundation

/-! ## Numbers -/

/-- `%d`: `strtol` saturates. -/
def strtol (negative : Bool) (digits : List UInt8) : Int :=
  if negative then max (-2 ^ 31) (-digitsValue digits) else min (digitsValue digits) (2 ^ 31 - 1)

/-- `%u`: `strtoul` saturates, and a minus negates the value. -/
def strtoul (negative : Bool) (digits : List UInt8) : Nat :=
  if 2 ^ 32 ≤ digitsValue digits then 2 ^ 32 - 1
  else if negative then (2 ^ 32 - digitsValue digits) % 2 ^ 32
  else digitsValue digits

def unsignedOf (n : Int) : Nat := (n % 2 ^ 32).toNat

def arraySize (n : Int) (bytes : Nat) : Nat := unsignedOf n * bytes % 2 ^ 32

/-! ## `read_trace` -/

structure Trace where
  suggHeapsize : Int
  numIds : Int
  numOps : Int
  weight : Int
  ops : List Traceop
  deriving DecidableEq, Repr

/-- What the memory holds that `read_trace` has not written: the trace record,
the variable `size`, and the field `size` of the elements of `ops`. -/
structure Unset where
  header : Trace
  size : Nat
  sizes : Nat → Nat

inductive ReadError where
  | unixError (msg : String)
  | bogusType (c : UInt8)
  | assertion (expr : String)
  deriving DecidableEq, Repr

def maxline : Nat := 1024

def opsRoom (numOps : Int) : Nat := arraySize numOps 12 / 12

structure Cursor where
  index : Nat
  size : Nat
  maxIndex : Nat
  opIndex : Nat

def scanPair (cur : Cursor) (text : List UInt8) : Cursor × List UInt8 :=
  match scanNumber strtoul text with
  | (none, rest) => (cur, rest)
  | (some index, rest) =>
      match scanNumber strtoul rest with
      | (none, rest) => ({ cur with index := index }, rest)
      | (some size, rest) => ({ cur with index := index, size := size }, rest)

/-- `fscanf(tracefile, "%ud", &index)`: the letter `d` is part of the format. -/
def scanFreed (cur : Cursor) (text : List UInt8) : Cursor × List UInt8 :=
  match scanNumber strtoul text with
  | (none, rest) => (cur, rest)
  | (some index, 100 :: rest) => ({ cur with index := index }, rest)
  | (some index, rest) => ({ cur with index := index }, rest)

def readRequest (unset : Unset) (cur : Cursor) (c : UInt8) (text : List UInt8) :
    Option (Traceop × Cursor × List UInt8) :=
  let count (cur : Cursor) : Cursor :=
    { cur with maxIndex := if cur.index > cur.maxIndex then cur.index else cur.maxIndex }
  if c = 97 then
    let (cur, rest) := scanPair cur text
    some (⟨.alloc, cur.index, cur.size⟩, count cur, rest)
  else if c = 114 then
    let (cur, rest) := scanPair cur text
    some (⟨.realloc, cur.index, cur.size⟩, count cur, rest)
  else if c = 102 then
    let (cur, rest) := scanFreed cur text
    some (⟨.free, cur.index, unset.sizes cur.opIndex⟩, cur, rest)
  else none

/-- The loop over the request lines, with the elements of `ops` that it
stores.  A word or a request for which there is no room is written behind the
array, and the result is `none`. -/
def readRequests (unset : Unset) (room : Nat) :
    Nat → Cursor → List UInt8 → Option (Except ReadError (Cursor × List Traceop))
  | 0, _, _ => none
  | fuel + 1, cur, text =>
      match scanWord text with
      | ([], _) => some (.ok (cur, []))
      | (c :: word, rest) =>
          if maxline ≤ (c :: word).length then none
          else
            match readRequest unset cur c rest with
            | none => some (.error (.bogusType c))
            | some (op, cur, rest) =>
                if cur.opIndex < room then
                  match readRequests unset room fuel { cur with opIndex := cur.opIndex + 1 } rest
                    with
                  | none => none
                  | some (.error e) => some (.error e)
                  | some (.ok (cur, ops)) => some (.ok (cur, op :: ops))
                else none

def readHeader (h : Trace) (text : List UInt8) : Trace × List UInt8 :=
  let (suggHeapsize, text) := scanNumber strtol text
  let (numIds, text) := scanNumber strtol text
  let (numOps, text) := scanNumber strtol text
  let (weight, text) := scanNumber strtol text
  ({ suggHeapsize := suggHeapsize.getD h.suggHeapsize, numIds := numIds.getD h.numIds,
     numOps := numOps.getD h.numOps, weight := weight.getD h.weight, ops := [] }, text)

/-- `read_trace` on the text of a file.  `malloc k n` says whether the `k`-th
call of the C library's `malloc` gets its `n` bytes. -/
def readTrace (malloc : Nat → Nat → Bool) (unset : Unset) (text : List UInt8) :
    Option (Except ReadError Trace) :=
  if ¬malloc 1 28 then some (.error (.unixError "malloc 1 failed in read_trance"))
  else
    let (trace, rest) := readHeader unset.header text
    if ¬malloc 2 (arraySize trace.numOps 12) then
      some (.error (.unixError "malloc 2 failed in read_trace"))
    else if ¬malloc 3 (arraySize trace.numIds 4) then
      some (.error (.unixError "malloc 3 failed in read_trace"))
    else if ¬malloc 4 (arraySize trace.numIds 4) then
      some (.error (.unixError "malloc 4 failed in read_trace"))
    else
      match readRequests unset (opsRoom trace.numOps) (rest.length + 1)
        ⟨0, unset.size, 0, 0⟩ rest with
      | none => none
      | some (.error e) => some (.error e)
      | some (.ok (cur, ops)) =>
          if cur.maxIndex ≠ unsignedOf (trace.numIds - 1) then
            some (.error (.assertion "max_index == trace->num_ids - 1"))
          else if unsignedOf trace.numOps ≠ cur.opIndex then
            some (.error (.assertion "trace->num_ops == op_index"))
          else some (.ok { trace with ops := ops })

variable {malloc : Nat → Nat → Bool} {unset : Unset} {t : Trace} {op : Traceop}
  {ops : List Traceop} {cur cur' : Cursor} {text rest line args digits field : List UInt8}
  {n room fuel : Nat} {c : UInt8}

/-! ## What the reader lets through -/

theorem length_scanPair_le (cur : Cursor) (text : List UInt8) :
    (scanPair cur text).2.length ≤ text.length := by
  have hfirst := length_scanNumber_le strtoul text
  unfold scanPair
  split
  · next hscan => rwa [hscan] at hfirst
  · next index rest hscan =>
      rw [hscan] at hfirst
      have hsecond := length_scanNumber_le strtoul rest
      split
      · next hscan' =>
          rw [hscan'] at hsecond
          exact hsecond.trans hfirst
      · next hscan' =>
          rw [hscan'] at hsecond
          exact hsecond.trans hfirst

theorem length_scanFreed_le (cur : Cursor) (text : List UInt8) :
    (scanFreed cur text).2.length ≤ text.length := by
  have hfirst := length_scanNumber_le strtoul text
  unfold scanFreed
  split
  · next hscan => rwa [hscan] at hfirst
  · next hscan =>
      rw [hscan] at hfirst
      exact (Nat.le_succ _).trans hfirst
  · next hscan => rwa [hscan] at hfirst

theorem opIndex_scanPair (cur : Cursor) (text : List UInt8) :
    (scanPair cur text).1.opIndex = cur.opIndex ∧
      (scanPair cur text).1.maxIndex = cur.maxIndex := by
  unfold scanPair
  split
  · exact ⟨rfl, rfl⟩
  · split <;> exact ⟨rfl, rfl⟩

theorem opIndex_scanFreed (cur : Cursor) (text : List UInt8) :
    (scanFreed cur text).1.opIndex = cur.opIndex ∧
      (scanFreed cur text).1.maxIndex = cur.maxIndex := by
  unfold scanFreed
  split <;> exact ⟨rfl, rfl⟩

theorem readRequest_some (h : readRequest unset cur c text = some (op, cur', rest)) :
    rest.length ≤ text.length ∧ cur'.opIndex = cur.opIndex ∧ cur.maxIndex ≤ cur'.maxIndex ∧
      (op.type ≠ .free → op.index ≤ cur'.maxIndex) := by
  have hpair := length_scanPair_le cur text
  have hpair' := opIndex_scanPair cur text
  have hfreed := length_scanFreed_le cur text
  have hfreed' := opIndex_scanFreed cur text
  have hcount : ∀ a b : Nat, a ≤ (if a > b then a else b) ∧ b ≤ (if a > b then a else b) := by
    intro a b
    split <;> omega
  have hmax := hcount (scanPair cur text).1.index (scanPair cur text).1.maxIndex
  unfold readRequest at h
  simp only at h
  by_cases ha : c = 97
  · rw [if_pos ha] at h
    cases h
    exact ⟨hpair, hpair'.1, hpair'.2 ▸ hmax.2, fun _ => hmax.1⟩
  · rw [if_neg ha] at h
    by_cases hr : c = 114
    · rw [if_pos hr] at h
      cases h
      exact ⟨hpair, hpair'.1, hpair'.2 ▸ hmax.2, fun _ => hmax.1⟩
    · rw [if_neg hr] at h
      by_cases hf : c = 102
      · rw [if_pos hf] at h
        cases h
        exact ⟨hfreed, hfreed'.1, hfreed'.2.ge, fun hne => absurd rfl hne⟩
      · rw [if_neg hf] at h
        cases h

/-- Each turn of the loop takes a word at least, so the length of the text
bounds their number. -/
theorem readRequests_fuel {fuel' : Nat} (h : text.length < fuel) (h' : text.length < fuel') :
    readRequests unset room fuel cur text = readRequests unset room fuel' cur text := by
  induction fuel generalizing fuel' cur text with
  | zero => cases h
  | succ fuel ih =>
      obtain ⟨fuel', rfl⟩ := Nat.exists_eq_succ_of_ne_zero (Nat.ne_of_gt (Nat.zero_lt_of_lt h'))
      simp only [readRequests]
      split
      · rfl
      · next c word rest hword =>
          have hlt : rest.length < text.length := by
            simpa [hword] using length_scanWord_lt
              (show (scanWord text).1 ≠ [] by simp [hword])
          split
          · rfl
          · split
            · rfl
            · next op cur₁ rest₁ hone =>
                have hle := (readRequest_some hone).1
                have hrest : rest₁.length < fuel := by omega
                have hrest' : rest₁.length < fuel' := by omega
                rw [ih hrest hrest']

theorem readRequests_ok (h : readRequests unset room fuel cur text = some (.ok (cur', ops))) :
    cur'.opIndex = cur.opIndex + ops.length ∧ cur.maxIndex ≤ cur'.maxIndex ∧
      (∀ op ∈ ops, op.type ≠ .free → op.index ≤ cur'.maxIndex) ∧
      (ops ≠ [] → cur'.opIndex ≤ room) := by
  induction fuel generalizing cur text ops with
  | zero => cases h
  | succ fuel ih =>
      simp only [readRequests] at h
      split at h
      · cases h
        exact ⟨rfl, Nat.le_refl _, by simp, fun hne => absurd rfl hne⟩
      · next c word rest hword =>
          split at h
          · cases h
          · split at h
            · cases h
            · next op cur₁ rest₁ hone =>
                obtain ⟨-, hop, hmax, hindex⟩ := readRequest_some hone
                split at h
                · next hroom =>
                    split at h
                    · cases h
                    · cases h
                    · next cur₂ ops' hrun =>
                        cases h
                        obtain ⟨hcount, hmax', hall, hfit⟩ := ih hrun
                        simp only at hcount hmax'
                        refine ⟨?_, hmax.trans hmax', ?_, fun _ => ?_⟩
                        · rw [List.length_cons]
                          omega
                        · refine List.forall_mem_cons.mpr ⟨fun hne => ?_, hall⟩
                          exact (hindex hne).trans hmax'
                        · by_cases hnil : ops' = []
                          · rw [hnil, List.length_nil] at hcount
                            omega
                          · exact hfit hnil
                · cases h

theorem readTrace_ok (h : readTrace malloc unset text = some (.ok t)) :
    unsignedOf t.numOps = t.ops.length ∧ (t.ops ≠ [] → t.ops.length ≤ opsRoom t.numOps) ∧
      ∀ op ∈ t.ops, op.type ≠ .free → op.index ≤ unsignedOf (t.numIds - 1) := by
  unfold readTrace at h
  split at h
  · cases h
  · cases hhead : readHeader unset.header text with
    | mk head rest =>
        simp only [hhead] at h
        split at h
        · cases h
        · split at h
          · cases h
          · split at h
            · cases h
            · split at h
              · cases h
              · cases h
              · next cur ops hrun =>
                  obtain ⟨hcount, -, hall, hfit⟩ := readRequests_ok hrun
                  split at h
                  · cases h
                  · next hmax =>
                      split at h
                      · cases h
                      · next hops =>
                          cases h
                          rw [not_not] at hmax hops
                          simp only [Nat.zero_add] at hcount
                          simp only [hops, hcount, true_and, ← hmax]
                          exact ⟨fun hne => hcount ▸ hfit hne, hall⟩

/-! ## From the file to the verdict -/

theorem checkLoop_index {hash hash' : List Nat} (h : checkLoop hash ops = some hash')
    (hhash : ∀ i ∈ hash, i < n) (halloc : ∀ op ∈ ops, op.type ≠ .free → op.index < n) :
    ∀ op ∈ ops, op.index < n := by
  induction ops generalizing hash with
  | nil => simp
  | cons op ops ih =>
      obtain ⟨hop, hrest⟩ := List.forall_mem_cons.mp halloc
      cases htype : op.type with
      | alloc =>
          have hlt := hop (by simp [htype])
          simp only [checkLoop, htype, Option.ite_none_left_eq_some] at h
          exact List.forall_mem_cons.mpr
            ⟨hlt, ih h.2 (List.forall_mem_cons.mpr ⟨hlt, hhash⟩) hrest⟩
      | realloc =>
          simp only [checkLoop, htype, Option.ite_none_left_eq_some, not_not] at h
          exact List.forall_mem_cons.mpr ⟨hhash _ h.1, ih h.2 hhash hrest⟩
      | free =>
          simp only [checkLoop, htype, Option.ite_none_left_eq_some, not_not] at h
          exact List.forall_mem_cons.mpr ⟨hhash _ h.1,
            ih h.2 (fun i hi => hhash i (List.mem_of_mem_erase hi)) hrest⟩

def idsRoom (numIds : Int) : Nat := arraySize numIds 4 / 4

theorem idsRoom_eq {numIds : Int} (hpos : 0 ≤ numIds) (hlt : numIds < 2 ^ 30) :
    idsRoom numIds = numIds.toNat := by
  have hword : unsignedOf numIds = numIds.toNat := by
    rw [unsignedOf, Int.emod_eq_of_lt hpos (by omega)]
  rw [idsRoom, arraySize, hword]
  omega

theorem read_inRange (h : readTrace malloc unset text = some (.ok t)) (hpos : 0 < t.numIds)
    (hlt : t.numIds < 2 ^ 30) (hcheck : (checkLoop [] t.ops).isSome)
    (hsizes : ∀ op ∈ t.ops, op.type = .free ∨ 0 < op.size ∧ op.size < 2 ^ 31) :
    InRange (idsRoom t.numIds) t.ops := by
  obtain ⟨hash, hloop⟩ := Option.isSome_iff_exists.mp hcheck
  obtain ⟨-, -, halloc⟩ := readTrace_ok h
  have hlast : unsignedOf (t.numIds - 1) < t.numIds.toNat := by
    rw [unsignedOf, Int.emod_eq_of_lt (by omega) (by omega)]
    omega
  have hindex := checkLoop_index hloop (by simp)
    fun op hop hne => Nat.lt_of_le_of_lt (halloc op hop hne) hlast
  rw [idsRoom_eq (by omega) hlt]
  exact fun op hop => ⟨hindex op hop, hsizes op hop⟩

variable {base : Nat} {s : Segregated.State} {u : Implicit.State}

/-- The assertions of `read_trace` and the checks of `checktrace.pl` make a
file one that the driver can replay: on both allocators it is carried out up
to a call that returns `NULL` or a misjudged reallocation. -/
theorem trace_file_verdict (h : readTrace malloc unset text = some (.ok t))
    (hpos : 0 < t.numIds) (hlt : t.numIds < 2 ^ 30) (hcheck : (checkLoop [] t.ops).isSome)
    (hsizes : ∀ op ∈ t.ops, op.type = .free ∨ 0 < op.size ∧ op.size < 2 ^ 31)
    (hbase : ArenaBase base) (hs : s.memStartBrk = base) (hu : u.memStartBrk = base)
    (blocks sizes : Nat → Nat) :
    Verdict segregated (idsRoom t.numIds) blocks sizes s t.ops ∧
      Verdict implicit (idsRoom t.numIds) blocks sizes u t.ops := by
  obtain ⟨hash, hloop⟩ := Option.isSome_iff_exists.mp hcheck
  obtain ⟨l, huse, -⟩ := checkLoop_use (l := []) (read_inRange h hpos hlt hcheck hsizes)
    List.nodup_nil List.nodup_nil (by simp [Ledger.ids]) hloop
  exact ⟨verdict (Segregated.refines base) hbase.aligned (segregated_starts hbase) hs huse,
    verdict (Implicit.refines base) hbase.aligned (implicit_starts hbase) hu huse⟩

def sampleText : List UInt8 :=
  chars "20000\n2\n5\n1\na 0 100\na 1 24\nr 0 300\nf 1\nf 0\n"

def sampleRead : Trace := ⟨20000, 2, 5, 1, sampleTrace⟩

def zeroed : Unset := ⟨⟨0, 0, 0, 0, []⟩, 0, fun _ => 0⟩

theorem sampleText_read :
    readTrace (fun _ _ => true) zeroed sampleText = some (.ok sampleRead) := by
  rfl

theorem trace_file_verdict_sample :
    Verdict segregated 2 (fun _ => 0) (fun _ => 0) Segregated.arena sampleTrace ∧
      Verdict implicit 2 (fun _ => 0) (fun _ => 0) Implicit.arena sampleTrace :=
  trace_file_verdict sampleText_read (by decide) (by decide) (by decide) (by decide)
    arenaBase_4096 rfl rfl _ _

end CsappLabs.Malloc.Driver
