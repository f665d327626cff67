import CsappLabs.CacheSim.Startup
import CsappLabs.CacheSim.TraceLines
import CsappLabs.Foundation.Decimal
import CsappLabs.Foundation.Lines

/-!
# The evaluation of a transpose function

`eval_perf` cuts the accesses of a function out of the log of Lackey, which lie
between two marker addresses, lets a simulator count, and reads the counts back
from the file that `printSummary` has written.
-/

namespace CsappLabs.CacheSim

open CsappLabs.Foundation

/-! ## The files -/

def hexChar (d : Nat) : UInt8 := UInt8.ofNat (if d < 10 then 48 + d else 87 + d)

def showHex (n : Nat) : List UInt8 :=
  if n = 0 then [48] else ((Nat.digits 16 n).map hexChar).reverse

/-- What `tracegen` writes to `.marker`. -/
def markerText (start stop : BitVec 64) : List UInt8 :=
  showHex start.toNat ++ 32 :: showHex stop.toNat

/-- What `printSummary` writes to `.csim_results`. -/
def summaryText (c : Counters) : List UInt8 :=
  showNat c.hit ++ 32 :: (showNat c.miss ++ 32 :: (showNat c.evictions ++ [10]))

/-- `csim`, up to the results that it writes.  `addr` is not initialized. -/
def csim (granted : Nat → Bool) (addr : BitVec 64) (o : Options) (text : List UInt8) :
    Option (List UInt8) :=
  match CacheSim.start granted o with
  | .reads g =>
      (readText g ⟨cacheInit (sets g) g.E, ⟨0, 0, 0⟩⟩ addr text).map fun sim =>
        summaryText sim.counters
  | _ => none

/-! ## `eval_perf` -/

def readMarkers (text : List UInt8) : Option (BitVec 64 × BitVec 64) :=
  match scanHex text with
  | (some start, rest) => (scanHex rest).1.map fun stop => (start, stop)
  | _ => none

/-- `%u`: a number that is too large becomes `ULONG_MAX` first. -/
def unsigned (negative : Bool) (digits : List UInt8) : BitVec 32 :=
  if uint64Max < digitsValue digits then BitVec.ofNat 32 uint64Max
  else if negative then -BitVec.ofNat 32 (digitsValue digits)
  else BitVec.ofNat 32 (digitsValue digits)

structure Results where
  hits : BitVec 32
  misses : BitVec 32
  evictions : BitVec 32
  deriving DecidableEq

def readResults (text : List UInt8) : Option Results := do
  let (hits, rest) := scanNumber unsigned text
  let (misses, rest) := scanNumber unsigned rest
  some ⟨← hits, ← misses, ← (scanNumber unsigned rest).1⟩

def accessText : List UInt8 → Option (List UInt8)
  | 32 :: c :: 32 :: rest => if operation c then some rest else none
  | _ => none

def isLow (addr : BitVec 64) : Bool := addr < 0xffffffff

structure Extraction where
  flag : Bool
  addr : BitVec 64
  part : List UInt8

/-- The loop over the lines of the log.  Without the end marker the part of the
trace is not closed before the simulator reads it. -/
def extract (start stop : BitVec 64) (v : Extraction) : List (List UInt8) → Option (List UInt8)
  | [] => none
  | line :: log =>
      let buf := line.takeWhile (· ≠ 0)
      match accessText buf with
      | none => extract start stop v log
      | some text =>
          let addr := (scanHex text).1.getD v.addr
          let flag := v.flag || addr = start
          let part := if flag ∧ isLow addr then v.part ++ buf else v.part
          if addr = stop then some part else extract start stop ⟨flag, addr, part⟩ log

/-- `eval_perf` for one function: the counts that it notes. -/
def evalPerf (simulator : Options → List UInt8 → Option (List UInt8)) (s E b : Nat)
    (addr : BitVec 64) (marker log : List UInt8) : Option Results := do
  let (start, stop) ← readMarkers marker
  let part ← extract start stop ⟨false, addr, []⟩ (cutLines 999 (log.length + 1) log)
  readResults (← simulator ⟨some (showNat s), some (showNat E), some (showNat b)⟩ part)

/-! ## The log -/

inductive LogLine where
  | access (op : UInt8) (digits size : List UInt8)
  | other (line : List UInt8)

namespace LogLine

def text : LogLine → List UInt8
  | .access op digits size => 32 :: op :: 32 :: (digits ++ 44 :: size)
  | .other line => line

def record : LogLine → Option Record
  | .access op digits _ => some ⟨Char.ofUInt8 op, BitVec.ofNat 64 (hexNumber digits)⟩
  | .other _ => none

def Proper : LogLine → Prop
  | .access op digits size => LineParts [32] op [32] digits size ∧ digits.length + size.length < 994
  | .other line =>
      10 ∉ line ∧ line.length < 999 ∧ accessText ((line ++ [10]).takeWhile (· ≠ 0)) = none

end LogLine

def logText (log : List LogLine) : List UInt8 := log.flatMap fun l => l.text ++ [10]

def upTo (stop : BitVec 64) (trace : List Record) : List Record :=
  trace.takeWhile (·.addr ≠ stop) ++ (trace.find? (·.addr = stop)).toList

/-- The accesses from the first one to `start` up to the first one to `stop`,
as far as they lie in the lower part of the memory. -/
def between (start stop : BitVec 64) (trace : List Record) : List Record :=
  ((upTo stop trace).dropWhile (·.addr ≠ start)).filter (isLow ·.addr)

variable {g : Geometry} {trace : List Record} {start stop addr : BitVec 64} {c op : UInt8}
  {text rest digits size line gap : List UInt8} {n : Nat}

/-! ## The markers and the results -/

theorem hexChar_spec : ∀ d, d < 16 → isxdigit (hexChar d) = true ∧ xdigit (hexChar d) = d := by
  decide

theorem hexNumber_digits {l : List Nat} (hl : ∀ d ∈ l, d < 16) :
    hexNumber (l.map hexChar).reverse = Nat.ofDigits 16 l := by
  rw [hexNumber, List.foldl_reverse]
  induction l with
  | nil => rfl
  | cons d l ih =>
      rw [List.forall_mem_cons] at hl
      rw [List.map_cons, List.foldr_cons, ih hl.2, (hexChar_spec d hl.1).2, Nat.ofDigits_cons]
      exact Nat.add_comm _ _

theorem showHex_spec (n : Nat) :
    showHex n ≠ [] ∧ (∀ c ∈ showHex n, isxdigit c = true) ∧ hexNumber (showHex n) = n := by
  by_cases hn : n = 0
  · subst hn
    simp [showHex, isxdigit, isdigit, hexNumber, xdigit]
  · have hlt : ∀ d ∈ Nat.digits 16 n, d < 16 := fun d hd => Nat.digits_lt_base (by decide) hd
    have hshow : showHex n = ((Nat.digits 16 n).map hexChar).reverse := if_neg hn
    rw [hshow]
    refine ⟨?_, ?_, ?_⟩
    · rw [ne_eq, List.reverse_eq_nil_iff, List.map_eq_nil_iff]
      exact Nat.digits_ne_nil_iff_ne_zero.mpr hn
    · intro c hc
      rw [List.mem_reverse, List.mem_map] at hc
      obtain ⟨d, hd, rfl⟩ := hc
      exact (hexChar_spec d (hlt d hd)).1
    · rw [hexNumber_digits hlt, Nat.ofDigits_digits]

def Blank (rest : List UInt8) : Prop := rest = [] ∨ ∃ text, rest = 32 :: text

theorem scanPrefix_field (hne : digits ≠ []) (hd : ∀ c ∈ digits, isxdigit c = true)
    (hrest : Blank rest) : scanPrefix (digits ++ rest) = digits ++ rest := by
  unfold scanPrefix
  split
  · next c text heq =>
      rw [heq]
      refine if_neg ?_
      rcases digits with - | ⟨d, - | ⟨e, ds⟩⟩
      · exact absurd rfl hne
      · rcases hrest with rfl | ⟨text', rfl⟩
        · cases heq
        · cases heq
          decide
      · cases heq
        exact isxdigit_not_prefix c (hd c (by simp))
  · rfl

theorem scanHex_field (hgap : ∀ c ∈ gap, isspace c = true) (hne : digits ≠ [])
    (hd : ∀ c ∈ digits, isxdigit c = true) (hvalue : hexNumber digits ≤ uint64Max)
    (hrest : Blank rest) :
    scanHex (gap ++ (digits ++ rest)) = (some (BitVec.ofNat 64 (hexNumber digits)), rest) := by
  have hspace : (gap ++ (digits ++ rest)).dropWhile isspace = digits ++ rest :=
    dropWhile_gap hgap hne hd isxdigit_not_space
  have hsign : takeSign (digits ++ rest) = (false, digits ++ rest) := by
    obtain ⟨d, ds, rfl, hhex⟩ := head_isxdigit hne hd
    exact takeSign_digit hhex
  have htake : (digits ++ rest).takeWhile isxdigit = digits := by
    rw [List.takeWhile_append_of_pos hd]
    rcases hrest with rfl | ⟨text, rfl⟩ <;> simp [isxdigit, isdigit]
  have hdrop : (digits ++ rest).dropWhile isxdigit = rest := by
    rw [List.dropWhile_append_of_pos hd]
    rcases hrest with rfl | ⟨text, rfl⟩ <;> simp [isxdigit, isdigit]
  have hnumber : strtoul false digits = BitVec.ofNat 64 (hexNumber digits) := by
    rw [strtoul, if_neg (Nat.not_lt.mpr hvalue)]
    rfl
  simp only [scanHex, hspace, hsign, scanPrefix_field hne hd hrest, htake, hdrop, if_neg hne,
    hnumber]

theorem scanHex_showHex (x : BitVec 64) (hgap : ∀ c ∈ gap, isspace c = true)
    (hrest : Blank rest) : scanHex (gap ++ (showHex x.toNat ++ rest)) = (some x, rest) := by
  obtain ⟨hne, hd, hvalue⟩ := showHex_spec x.toNat
  have hle : hexNumber (showHex x.toNat) ≤ uint64Max := by
    rw [hvalue]
    exact Nat.le_pred_of_lt x.isLt
  rw [scanHex_field hgap hne hd hle hrest, hvalue, BitVec.ofNat_toNat, BitVec.setWidth_eq]

theorem readMarkers_markerText (start stop : BitVec 64) :
    readMarkers (markerText start stop) = some (start, stop) := by
  have hempty : ∀ c ∈ ([] : List UInt8), isspace c = true := by simp
  have hblank : ∀ c ∈ [(32 : UInt8)], isspace c = true := by simp [isspace]
  have hnext : Blank (32 :: showHex stop.toNat) := .inr ⟨_, rfl⟩
  have hend : Blank [] := .inl rfl
  have hstart := scanHex_showHex start hempty hnext
  have hstop := scanHex_showHex stop hblank hend
  rw [List.append_nil] at hstop
  rw [List.nil_append] at hstart
  simp only [readMarkers, markerText, hstart]
  rw [show (32 :: showHex stop.toNat) = [32] ++ showHex stop.toNat from rfl, hstop]
  rfl

theorem unsigned_showNat (hn : n < 2 ^ 32) : unsigned false (showNat n) = BitVec.ofNat 32 n := by
  have hvalue : digitsValue (showNat n) = n := (numeral_showNat n).2.2
  have hmax : ¬uint64Max < n := by
    unfold uint64Max
    omega
  rw [unsigned, hvalue, if_neg hmax]
  rfl

theorem readResults_summaryText {c : Counters} (hc : c.InRange) :
    readResults (summaryText c) =
      some ⟨BitVec.ofNat 32 c.hit, BitVec.ofNat 32 c.miss, BitVec.ofNat 32 c.evictions⟩ := by
  obtain ⟨hhit, hmiss, hevictions⟩ := hc
  have hblank : ∀ c ∈ [(32 : UInt8)], isspace c = true := by simp [isspace]
  have hnodigit : ∀ (b : UInt8) (text : List UInt8) (c : UInt8) (text' : List UInt8),
      isdigit b = false → b :: text = c :: text' → isdigit c = false := by
    rintro b text c text' hb ⟨⟩
    exact hb
  have hempty : ∀ c ∈ ([] : List UInt8), isspace c = true := by simp
  have hfirst := scanNumber_field unsigned hempty (numeral_showNat c.hit)
    (hnodigit 32 (showNat c.miss ++ 32 :: (showNat c.evictions ++ [10])) · · (by decide))
  have hsecond := scanNumber_field unsigned hblank (numeral_showNat c.miss)
    (hnodigit 32 (showNat c.evictions ++ [10]) · · (by decide))
  have hthird := scanNumber_field unsigned hblank (numeral_showNat c.evictions)
    (hnodigit 10 [] · · (by decide))
  simp only [List.nil_append, List.cons_append] at hfirst hsecond hthird
  simp only [readResults, summaryText, hfirst, hsecond, hthird,
    unsigned_showNat (Nat.lt_trans hhit (by decide)),
    unsigned_showNat (Nat.lt_trans hmiss (by decide)),
    unsigned_showNat (Nat.lt_trans hevictions (by decide))]
  rfl

/-! ## The options of the simulator -/

theorem foldl_digitsValue (hd : ∀ c ∈ digits, isdigit c = true) :
    digits.foldl (fun (n : Int) c => 10 * n + (c.toNat - 48)) 0 = digitsValue digits := by
  induction digits using List.reverseRecOn with
  | nil => rfl
  | append_singleton digits c ih =>
      have hc : 48 ≤ c.toNat := by
        have hdigit := hd c (by simp)
        simp only [isdigit, decide_eq_true_eq, UInt8.le_iff_toNat_le] at hdigit
        exact hdigit.1
      have hrest := ih fun b hb => hd b (List.mem_append_left _ hb)
      rw [digitsValue, List.foldl_append, List.foldl_append, hrest]
      simp only [List.foldl_cons, List.foldl_nil, digitsValue]
      omega

theorem atoi_showNat (hn : n < 2 ^ 31) : atoi (showNat n) = n := by
  obtain ⟨hne, hd, hvalue⟩ := numeral_showNat n
  obtain ⟨c, text, hcons⟩ := List.exists_cons_of_ne_nil hne
  have hfold := foldl_digitsValue hd
  rw [hvalue] at hfold
  rw [hcons] at hfold hd ⊢
  rw [atoi_digits hd, hfold, BitVec.toInt_ofInt, Int.bmod_def]
  omega

def options (g : Geometry) : Options := ⟨some (showNat g.s), some (showNat g.E), some (showNat g.b)⟩

theorem start_options {granted : Nat → Bool} (hg : g.Valid)
    (hgranted : ∀ k, k ≤ 2 ^ g.s → granted k = true) :
    CacheSim.start granted (options g) = .reads g := by
  have hs := hg.s
  have hbits := hg.bits
  have hint := hg.int
  have hwiden : ∀ n : Nat, n < 2 ^ 31 → widen (intOption (some (showNat n))) = n := by
    intro n hn
    rw [intOption, atoi_showNat hn, widen]
    omega
  have hphase : phaseCommand (options g) = some g := by
    rw [phaseCommand_eq, options, hwiden g.s (by omega), hwiden g.E hint, hwiden g.b (by omega)]
  have hpow : 2 ^ g.s ≤ 2 ^ 30 := Nat.pow_le_pow_right (by decide) hs
  have hok : cacheInitOk granted (sets g) g.E = true := by
    rw [sets_eq hg, cacheInitOk_iff]
    exact ⟨by omega, fun _ => by omega, hgranted⟩
  have hshift : g.s < 32 := Nat.lt_of_le_of_lt hs (by decide)
  simp only [CacheSim.start, hphase, if_pos hshift, if_pos hok]

/-! ## The part of the trace -/

namespace LogLine

variable {l : LogLine}

theorem printable {p : UInt8 → Bool} {c : UInt8} (hnul : p 0 = false) (hlf : p 10 = false)
    (hc : p c = true) : c ≠ 0 ∧ c ≠ 10 := by
  constructor
  · rintro rfl
    rw [hnul] at hc
    cases hc
  · rintro rfl
    rw [hlf] at hc
    cases hc

theorem access_chars {digits size : List UInt8} (h : LineParts [32] op [32] digits size)
    {c : UInt8} (hc : c ∈ (LogLine.access op digits size).text) : c ≠ 0 ∧ c ≠ 10 := by
  have hop : ∀ c, operation c = true → c ≠ 0 ∧ c ≠ 10 := fun _ => printable rfl rfl
  have hhex : ∀ c, isxdigit c = true → c ≠ 0 ∧ c ≠ 10 := fun _ => printable rfl rfl
  have hdigit : ∀ c, isdigit c = true → c ≠ 0 ∧ c ≠ 10 := fun _ => printable rfl rfl
  simp only [text, List.mem_cons, List.mem_append] at hc
  rcases hc with rfl | rfl | rfl | hc | rfl | hc
  · decide
  · exact hop c h.flag_op
  · decide
  · exact hhex c (h.digits_hex c hc)
  · decide
  · exact hdigit c (h.size_digits c hc)

theorem Proper.fits (h : l.Proper) : 10 ∉ l.text ∧ l.text.length < 999 := by
  cases l with
  | other line => exact ⟨h.1, h.2.1⟩
  | access op digits size =>
      refine ⟨fun hmem => (access_chars h.1 hmem).2 rfl, ?_⟩
      have hlen := h.2
      simp only [text, List.length_cons, List.length_append]
      omega

theorem access_whole {digits size : List UInt8} (h : LineParts [32] op [32] digits size) :
    ((LogLine.access op digits size).text ++ [10]).takeWhile (· ≠ 0) =
      (LogLine.access op digits size).text ++ [10] := by
  rw [List.takeWhile_eq_self_iff]
  intro c hc
  rcases List.mem_append.mp hc with hc | hc
  · simpa using (access_chars h hc).1
  · rw [List.mem_singleton] at hc
    subst hc
    decide

theorem access_read {digits size : List UInt8} (h : LineParts [32] op [32] digits size) :
    ∃ rest, accessText ((LogLine.access op digits size).text ++ [10]) = some rest ∧
      (scanHex rest).1 = some (BitVec.ofNat 64 (hexNumber digits)) := by
  refine ⟨digits ++ 44 :: (size ++ [10]), by simp [text, accessText, h.flag_op], ?_⟩
  have hspace : scanHex ([32] ++ (digits ++ 44 :: (size ++ [10]))) =
      scanHex (digits ++ 44 :: (size ++ [10])) := by
    rw [scanHex, scanHex]
    rfl
  rw [← hspace, h.scanned (size ++ [10])]

end LogLine

theorem upTo_cons (r : Record) (trace : List Record) :
    upTo stop (r :: trace) = if r.addr = stop then [r] else r :: upTo stop trace := by
  by_cases hr : r.addr = stop
  · simp [upTo, hr]
  · simp [upTo, hr]

def cutFrom (flag : Bool) (start stop : BitVec 64) (trace : List Record) : List Record :=
  (if flag then upTo stop trace else (upTo stop trace).dropWhile (·.addr ≠ start)).filter
    (isLow ·.addr)

theorem cutFrom_cons (flag : Bool) (r : Record) (trace : List Record) :
    cutFrom flag start stop (r :: trace) =
      (if (flag || r.addr = start) ∧ isLow r.addr then [r] else []) ++
        if r.addr = stop then [] else cutFrom (flag || r.addr = start) start stop trace := by
  have hcons : ∀ rest : List Record, (r :: rest).filter (isLow ·.addr) =
      (if isLow r.addr then [r] else []) ++ rest.filter (isLow ·.addr) := by
    intro rest
    by_cases hlow : isLow r.addr <;> simp [hlow]
  rw [cutFrom, upTo_cons]
  by_cases hflag : (flag || decide (r.addr = start)) = true
  · have hkeep : ∀ rest : List Record,
        (if flag then r :: rest else (r :: rest).dropWhile (·.addr ≠ start)) = r :: rest := by
      intro rest
      cases flag with
      | true => rfl
      | false =>
          have hstart : r.addr = start := by simpa using hflag
          simp [hstart]
    by_cases hstop : r.addr = stop
    · rw [if_pos hstop, if_pos hstop, hkeep, hcons, hflag]
      simp
    · rw [if_neg hstop, if_neg hstop, hkeep, hcons, hflag]
      simp [cutFrom]
  · obtain ⟨rfl, hstart⟩ : flag = false ∧ r.addr ≠ start := by simpa using hflag
    by_cases hstop : r.addr = stop
    · simp [hstop, hstop ▸ hstart]
    · simp [hstop, hstart, cutFrom]

def traceOf (log : List LogLine) : List Record := log.filterMap LogLine.record

theorem kept_line {l : LogLine} {r : Record} (hl : l.Proper) (hrecord : l.record = some r)
    (P : Prop) [Decidable P] (part : List UInt8) :
    ∃ first : List LogLine, (∀ l ∈ first, l.Proper ∧ l.record ≠ none) ∧
      traceOf first = (if P then [r] else []) ∧
      (if P then part ++ (l.text ++ [10]) else part) = part ++ logText first := by
  by_cases hP : P
  · rw [if_pos hP, if_pos hP]
    refine ⟨[l], ?_, ?_, ?_⟩
    · simp [hl, hrecord]
    · simp [traceOf, hrecord]
    · simp [logText]
  · rw [if_neg hP, if_neg hP]
    exact ⟨[], nofun, rfl, (List.append_nil part).symm⟩

/-- The loop writes lines of accesses, and their records are those to be cut out. -/
theorem extract_log {log : List LogLine} (start : BitVec 64) (hlog : ∀ l ∈ log, l.Proper)
    (v : Extraction) (hstop : ∃ r ∈ traceOf log, r.addr = stop) :
    ∃ kept : List LogLine, (∀ l ∈ kept, l.Proper ∧ l.record ≠ none) ∧
      traceOf kept = cutFrom v.flag start stop (traceOf log) ∧
      extract start stop v (log.map fun l => l.text ++ [10]) = some (v.part ++ logText kept) := by
  induction log generalizing v with
  | nil =>
      obtain ⟨r, hr, -⟩ := hstop
      cases hr
  | cons l log ih =>
      obtain ⟨hl, hrest⟩ := List.forall_mem_cons.mp hlog
      cases l with
      | other line =>
          obtain ⟨kept, hkept, htrace, hextract⟩ := ih hrest v hstop
          refine ⟨kept, hkept, htrace, ?_⟩
          rw [List.map_cons, extract]
          simp only [LogLine.text, hl.2.2]
          exact hextract
      | access op digits size =>
          obtain ⟨rest, htext, hscan⟩ := LogLine.access_read hl.1
          have hrecords : traceOf (.access op digits size :: log) =
              ⟨Char.ofUInt8 op, BitVec.ofNat 64 (hexNumber digits)⟩ :: traceOf log := rfl
          rw [hrecords] at hstop ⊢
          rw [cutFrom_cons, List.map_cons, extract]
          simp only [LogLine.access_whole hl.1, htext, hscan, Option.getD_some]
          generalize hl' : LogLine.access op digits size = l at hl ⊢
          have hrecord : l.record = some ⟨Char.ofUInt8 op, BitVec.ofNat 64 (hexNumber digits)⟩ := by
            rw [← hl']
            rfl
          generalize BitVec.ofNat 64 (hexNumber digits) = a at hrecord hstop ⊢
          obtain ⟨first, hfirst, htrace, hpart⟩ :=
            kept_line hl hrecord ((v.flag || decide (a = start)) = true ∧ isLow a = true) v.part
          rw [hpart, ← htrace]
          -- the line with the end marker is the last one that is looked at
          by_cases hend : a = stop
          · rw [if_pos hend, if_pos hend, List.append_nil]
            exact ⟨first, hfirst, rfl, rfl⟩
          · obtain ⟨kept, hkept, hcut, hextract⟩ :=
              ih hrest ⟨v.flag || decide (a = start), a, v.part ++ logText first⟩
                (by simpa [hend] using hstop)
            refine ⟨first ++ kept, ?_, ?_, ?_⟩
            · intro l hl
              rcases List.mem_append.mp hl with hl | hl
              · exact hfirst l hl
              · exact hkept l hl
            · rw [if_neg hend, ← hcut, traceOf, List.filterMap_append]
              rfl
            · rw [if_neg hend, hextract]
              simp [logText]

/-! ## The simulator reads the part back -/

theorem splitOn_line (hline : 10 ∉ line) (rest : List UInt8) :
    (line ++ 10 :: rest).splitOn 10 = line :: rest.splitOn 10 := by
  induction line with
  | nil => exact splitOn_newline rest
  | cons c line ih =>
      obtain ⟨hc, hline⟩ := not_or.mp (mt List.mem_cons.mpr hline)
      obtain ⟨first, others, hlines, hcons⟩ := splitOn_char (Ne.symm hc) (line ++ 10 :: rest)
      rw [ih hline] at hlines
      cases hlines
      exact hcons

theorem splitOn_logText {log : List LogLine} (hlog : ∀ l ∈ log, l.Proper) :
    (logText log).splitOn 10 = log.map LogLine.text ++ [[]] := by
  induction log with
  | nil => rfl
  | cons l log ih =>
      obtain ⟨hl, hrest⟩ := List.forall_mem_cons.mp hlog
      have htext : logText (l :: log) = l.text ++ 10 :: logText log := by simp [logText]
      rw [htext, splitOn_line hl.fits.1, ih hrest]
      rfl

theorem LogLine.Proper.lineRecord_eq {l : LogLine} (hl : l.Proper) (hr : l.record ≠ none) :
    lineRecord l.text = l.record := by
  cases l with
  | other line => exact absurd rfl hr
  | access op digits size =>
      exact lineRecord_eq_some_iff.mpr ⟨[32], op, [32], digits, size, hl.1, rfl, rfl⟩

theorem records_logText {kept : List LogLine} (hkept : ∀ l ∈ kept, l.Proper ∧ l.record ≠ none) :
    records (logText kept) = traceOf kept ∧ OnlyRecords (logText kept) := by
  have hsplit := splitOn_logText fun l hl => (hkept l hl).1
  constructor
  · rw [records, hsplit, List.filterMap_append, List.filterMap_map, traceOf]
    have hsame : kept.filterMap (lineRecord ∘ LogLine.text) = kept.filterMap LogLine.record :=
      List.filterMap_congr fun l hl => (hkept l hl).1.lineRecord_eq (hkept l hl).2
    rw [hsame]
    exact List.append_nil _
  · intro line hline hnone
    rw [hsplit, List.mem_append, List.mem_singleton] at hline
    rcases hline with hline | rfl
    · obtain ⟨l, hl, rfl⟩ := List.mem_map.mp hline
      rw [(hkept l hl).1.lineRecord_eq (hkept l hl).2] at hnone
      exact absurd hnone (hkept l hl).2
    · rfl

theorem cutLines_logText {log : List LogLine} (hlog : ∀ l ∈ log, l.Proper) :
    cutLines 999 ((logText log).length + 1) (logText log) = log.map fun l => l.text ++ [10] := by
  have hlen : log.length ≤ (logText log).length + 1 := by
    induction log with
    | nil => exact Nat.zero_le _
    | cons l log ih =>
        have hrest := ih (List.forall_mem_cons.mp hlog).2
        simp only [logText, List.flatMap_cons, List.length_append, List.length_cons,
          List.length_nil] at hrest ⊢
        omega
  have hfits : ∀ line ∈ log.map LogLine.text, 10 ∉ line ∧ line.length < 999 := by
    simpa using fun l hl => (hlog l hl).fits
  have hfuel : (log.map LogLine.text).length ≤ (logText log).length + 1 := by simpa using hlen
  have hcut := cutLines_lines hfits hfuel
  rw [List.flatMap_map, List.map_map] at hcut
  exact hcut

/-- `csim` counts the accesses between the markers, and `eval_perf` reads these
counts. -/
theorem eval_perf_counts {granted : Nat → Bool} {log : List LogLine} (addr₀ addr : BitVec 64)
    (hg : g.Valid) (hgranted : ∀ k, k ≤ 2 ^ g.s → granted k = true) (hlog : ∀ l ∈ log, l.Proper)
    (hstop : ∃ r ∈ traceOf log, r.addr = stop)
    (hrange : ((between start stop (traceOf log)).map accesses).sum < 2 ^ 31) :
    ∃ sim, simulate g (between start stop (traceOf log)) = some sim ∧
      evalPerf (csim granted addr₀) g.s g.E g.b addr (markerText start stop) (logText log) =
        some ⟨BitVec.ofNat 32 sim.counters.hit, BitVec.ofNat 32 sim.counters.miss,
          BitVec.ofNat 32 sim.counters.evictions⟩ := by
  have hshort := short_of_accesses hg hrange
  obtain ⟨sim, hsim, -⟩ := simulate_ok hg hshort _ (List.prefix_refl _)
  have hcounters := hshort _ sim (List.prefix_refl _) hsim
  refine ⟨sim, hsim, ?_⟩
  obtain ⟨kept, hkept, hcut, hextract⟩ := extract_log start hlog ⟨false, addr, []⟩ hstop
  obtain ⟨hrecords, honly⟩ := records_logText hkept
  have hcsim : csim granted addr₀ (options g) (logText kept) = some (summaryText sim.counters) := by
    have hread := readText_records hg (simOk_init hg).sets addr₀ honly
    rw [hrecords, hcut] at hread
    have hrun : readTrace g ⟨cacheInit (sets g) g.E, ⟨0, 0, 0⟩⟩
        (cutFrom false start stop (traceOf log)) = some sim := hsim
    simp only [csim, start_options hg hgranted, hread, hrun]
    rfl
  rw [evalPerf, readMarkers_markerText]
  simp only [bind, Option.bind_some, cutLines_logText hlog, hextract, List.nil_append]
  show (csim granted addr₀ (options g) (logText kept)).bind readResults = _
  rw [hcsim]
  exact readResults_summaryText hcounters

def sampleLog : List LogLine :=
  [.other (chars "==11324== Lackey, an example Valgrind tool"),
    .access 76 (chars "0060a0c0") (chars "8"), .access 83 (chars "00601060") (chars "1"),
    .other (chars "I  0400d7d4,8"), .access 76 (chars "0060a0c0") (chars "4"),
    .access 76 (chars "7ff000398") (chars "8"), .access 83 (chars "00601061") (chars "1")]

theorem sampleLog_proper : ∀ l ∈ sampleLog, l.Proper := by
  have haccess : ∀ op digits size, operation op = true → (∀ c ∈ digits, isxdigit c = true) →
      digits ≠ [] → hexNumber digits ≤ uint64Max → (∀ c ∈ size, isdigit c = true) → size ≠ [] →
      digits.length + size.length < 994 → (LogLine.access op digits size).Proper :=
    fun op digits size hop hd hne haddr hs hsne hlen =>
      ⟨⟨by decide +kernel, hop, by decide +kernel, by decide, hd, hne, haddr, hs, hsne⟩, hlen⟩
  simp only [sampleLog, List.forall_mem_cons, List.not_mem_nil, false_imp_iff, implies_true,
    and_true]
  refine ⟨?_, ?_, ?_, ?_, ?_, ?_, ?_⟩
  · exact ⟨by decide +kernel, by decide +kernel, by decide +kernel⟩
  · apply haccess <;> decide +kernel
  · apply haccess <;> decide +kernel
  · exact ⟨by decide +kernel, by decide +kernel, by decide +kernel⟩
  · apply haccess <;> decide +kernel
  · apply haccess <;> decide +kernel
  · apply haccess <;> decide +kernel

theorem eval_perf_counts_sample :
    ∃ sim, simulate ⟨5, 1, 5⟩ (between 0x601060 0x601061 (traceOf sampleLog)) = some sim ∧
      evalPerf (csim (fun _ => true) 0) 5 1 5 0 (markerText 0x601060 0x601061) (logText sampleLog) =
        some ⟨BitVec.ofNat 32 sim.counters.hit, BitVec.ofNat 32 sim.counters.miss,
          BitVec.ofNat 32 sim.counters.evictions⟩ :=
  eval_perf_counts (g := ⟨5, 1, 5⟩) 0 0 ⟨by decide, by decide, by decide, by decide⟩
    (fun _ _ => rfl) sampleLog_proper ⟨⟨Char.ofUInt8 83, 0x601061⟩, by decide, rfl⟩
    (by decide)

end CsappLabs.CacheSim
