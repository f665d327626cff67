import CsappLabs.CacheSim.Independence
import CsappLabs.Foundation.CString

/-!
# The text of a trace

`read_trace` reads the trace file with `fscanf(file, " %c %lx, %d", ...)` until
the end of the file.  A call that fails in the middle of a line leaves the rest
of the line to the next call, and `addr` as it was.
-/

namespace CsappLabs.CacheSim

open CsappLabs.Foundation

variable {g : Geometry} {sim : Sim} {addr : BitVec 64} {text rest line lead gap digits size :
  List UInt8} {c flag : UInt8} {r : Record} {trace : List Record} {fuel : Nat}

/-! ## The conversions -/

def isxdigit (c : UInt8) : Bool := isdigit c ∨ 97 ≤ c ∧ c ≤ 102 ∨ 65 ≤ c ∧ c ≤ 70

def xdigit (c : UInt8) : Nat :=
  if c ≤ 57 then c.toNat - 48 else if c ≤ 70 then c.toNat - 55 else c.toNat - 87

def hexNumber (digits : List UInt8) : Nat := digits.foldl (fun n c => 16 * n + xdigit c) 0

/-- `strtoul` saturates; a minus negates the value. -/
def strtoul (negative : Bool) (digits : List UInt8) : BitVec 64 :=
  if uint64Max < hexNumber digits then BitVec.ofNat 64 uint64Max
  else if negative then -BitVec.ofNat 64 (hexNumber digits)
  else BitVec.ofNat 64 (hexNumber digits)

def scanPrefix : List UInt8 → List UInt8
  | 48 :: c :: text => if c = 120 ∨ c = 88 then text else 48 :: c :: text
  | text => text

/-- `%lx`: the value, unless there are no digits, and the text that is left. -/
def scanHex (text : List UInt8) : Option (BitVec 64) × List UInt8 :=
  let (negative, text) := takeSign (text.dropWhile isspace)
  let text := scanPrefix text
  let digits := text.takeWhile isxdigit
  (if digits = [] then none else some (strtoul negative digits), text.dropWhile isxdigit)

/-- `%d`: the text that is left. -/
def scanInt (text : List UInt8) : List UInt8 :=
  (takeSign (text.dropWhile isspace)).2.dropWhile isdigit

/-- One call of `fscanf`; `none` is `EOF`.  Without an address the record has
the one that `addr` holds. -/
def fscanf (addr : BitVec 64) (text : List UInt8) : Option (Record × List UInt8) :=
  match text.dropWhile isspace with
  | [] => none
  | flag :: text =>
      match scanHex text with
      | (none, rest) => some (⟨Char.ofUInt8 flag, addr⟩, rest)
      | (some addr, 44 :: rest) => some (⟨Char.ofUInt8 flag, addr⟩, scanInt rest)
      | (some addr, rest) => some (⟨Char.ofUInt8 flag, addr⟩, rest)

/-- The values of `flag` and `addr` in each turn of the loop of `read_trace`. -/
def scanTrace : Nat → BitVec 64 → List UInt8 → Option (List Record)
  | 0, _, _ => none
  | fuel + 1, addr, text =>
      match fscanf addr text with
      | none => some []
      | some (r, rest) => do some (r :: (← scanTrace fuel r.addr rest))

def readText (g : Geometry) (sim : Sim) (addr : BitVec 64) (text : List UInt8) : Option Sim := do
  readTrace g sim (← scanTrace (text.length + 1) addr text)

/-! ## Accesses -/

def operation (c : UInt8) : Bool := c = 76 ∨ c = 77 ∨ c = 83

def accessing (trace : List Record) : List Record := trace.filter fun r => accesses r ≠ 0

theorem accesses_flag (c : UInt8) (addr : BitVec 64) :
    accesses ⟨Char.ofUInt8 c, addr⟩ ≠ 0 ↔ operation c = true := by
  rw [operation, decide_eq_true_eq, ← ofUInt8_inj, ← ofUInt8_inj (d := 77),
    ← ofUInt8_inj (d := 83)]
  show (if _ = 'L' ∨ _ = 'S' then 1 else if _ = 'M' then 2 else 0) ≠ 0 ↔
    (_ = 'L' ∨ _ = 'M' ∨ _ = 'S')
  split_ifs <;> tauto

theorem accessing_operation {c : UInt8} (hflag : r.flag = Char.ofUInt8 c) (hc : operation c = true)
    (trace : List Record) : accessing (r :: trace) = r :: accessing trace := by
  have hacc : accesses r ≠ 0 := by
    rw [← accesses_flag c r.addr, ← hflag] at hc
    exact hc
  exact List.filter_cons_of_pos (by simpa using hacc)

theorem accessing_other {c : UInt8} (hflag : r.flag = Char.ofUInt8 c) (hc : operation c ≠ true)
    (trace : List Record) : accessing (r :: trace) = accessing trace := by
  have hacc : ¬accesses r ≠ 0 := by
    rw [Ne, ← accesses_flag c r.addr, ← hflag] at hc
    exact hc
  exact List.filter_cons_of_neg (by simpa using hacc)

theorem readRecord_other (hg : g.Valid) (hsets : sim.cache.length = 2 ^ g.s)
    (h : accesses r = 0) : readRecord g sim r = some sim := by
  have hlt := setIndex_lt hg r.addr
  rw [← hsets] at hlt
  have hls : ¬(r.flag = 'L' ∨ r.flag = 'S') := by
    intro hls
    rw [accesses, if_pos hls] at h
    cases h
  have hm : r.flag ≠ 'M' := by
    intro hm
    rw [accesses, if_neg hls, if_pos hm] at h
    cases h
  simp only [readRecord, List.getElem?_eq_getElem hlt, if_neg hls, if_neg hm, bind, Option.bind,
    ite_self]

theorem readTrace_accessing (hg : g.Valid) (hsets : sim.cache.length = 2 ^ g.s)
    (trace : List Record) : readTrace g sim (accessing trace) = readTrace g sim trace := by
  induction trace generalizing sim with
  | nil => rfl
  | cons r trace ih =>
      by_cases hr : accesses r = 0
      · have hskip : accessing (r :: trace) = accessing trace :=
          List.filter_cons_of_neg (by simpa using hr)
        rw [hskip, readTrace, readRecord_other hg hsets hr]
        exact ih hsets
      · have hkeep : accessing (r :: trace) = r :: accessing trace :=
          List.filter_cons_of_pos (by simpa using hr)
        rw [hkeep, readTrace, readTrace]
        cases hone : readRecord g sim r with
        | none => rfl
        | some sim' => exact ih ((readRecord_length hone).trans hsets)

/-! ## What a conversion passes over -/

inductive Passes : List UInt8 → List UInt8 → Prop
  | refl (text : List UInt8) : Passes text text
  | skip {c : UInt8} {text rest : List UInt8} (hc : operation c = false)
      (h : Passes text rest) : Passes (c :: text) rest

theorem Passes.trans {mid : List UInt8} (h : Passes text mid) (h' : Passes mid rest) :
    Passes text rest := by
  induction h with
  | refl => exact h'
  | skip hc _ ih => exact .skip hc (ih h')

theorem Passes.filter (h : Passes text rest) : text.filter operation = rest.filter operation := by
  induction h with
  | refl => rfl
  | skip hc _ ih => rw [List.filter_cons_of_neg (by simp [hc]), ih]

theorem Passes.length_le (h : Passes text rest) : rest.length ≤ text.length := by
  induction h with
  | refl => exact Nat.le_refl _
  | skip _ _ ih => exact Nat.le_succ_of_le ih

theorem passes_dropWhile {p : UInt8 → Bool} (hp : ∀ c, p c = true → operation c = false)
    (text : List UInt8) : Passes text (text.dropWhile p) := by
  induction text with
  | nil => exact .refl _
  | cons c text ih =>
      by_cases hc : p c = true
      · rw [List.dropWhile_cons_of_pos hc]
        exact .skip (hp c hc) ih
      · rw [List.dropWhile_cons_of_neg hc]
        exact .refl _

theorem operation_isspace (c : UInt8) : isspace c = true → operation c = false := by
  simp only [isspace, operation, decide_eq_true_eq, decide_eq_false_iff_not, UInt8.le_iff_toNat_le,
    ← UInt8.toNat_inj, UInt8.reduceToNat]
  omega

theorem operation_isdigit (c : UInt8) : isdigit c = true → operation c = false := by
  simp only [isdigit, operation, decide_eq_true_eq, decide_eq_false_iff_not, UInt8.le_iff_toNat_le,
    ← UInt8.toNat_inj, UInt8.reduceToNat]
  omega

theorem operation_isxdigit (c : UInt8) : isxdigit c = true → operation c = false := by
  simp only [isxdigit, isdigit, operation, decide_eq_true_eq, decide_eq_false_iff_not,
    UInt8.le_iff_toNat_le, ← UInt8.toNat_inj, UInt8.reduceToNat]
  omega

theorem passes_takeSign (text : List UInt8) : Passes text (takeSign text).2 := by
  unfold takeSign
  split
  · exact .skip rfl (.refl _)
  · exact .skip rfl (.refl _)
  · exact .refl _

theorem passes_scanPrefix (text : List UInt8) : Passes text (scanPrefix text) := by
  unfold scanPrefix
  split
  · rename_i c text
    by_cases hc : c = 120 ∨ c = 88
    · rw [if_pos hc]
      refine .skip rfl (.skip ?_ (.refl _))
      rcases hc with rfl | rfl <;> rfl
    · rw [if_neg hc]
      exact .refl _
  · exact .refl _

theorem passes_scanHex (text : List UInt8) : Passes text (scanHex text).2 :=
  (passes_dropWhile operation_isspace text).trans <| (passes_takeSign _).trans <|
    (passes_scanPrefix _).trans (passes_dropWhile operation_isxdigit _)

theorem passes_scanInt (text : List UInt8) : Passes text (scanInt text) :=
  (passes_dropWhile operation_isspace text).trans <| (passes_takeSign _).trans <|
    passes_dropWhile operation_isdigit _

/-! ## The loop -/

theorem fscanf_eof (h : fscanf addr text = none) : Passes text [] := by
  have hpass := passes_dropWhile operation_isspace text
  unfold fscanf at h
  split at h
  · rename_i hnil
    rwa [hnil] at hpass
  · split at h <;> cases h

/-- Only `%c` can take an operation. -/
theorem fscanf_passes (h : fscanf addr text = some (r, rest)) :
    ∃ flag mid, Passes text (flag :: mid) ∧ r.flag = Char.ofUInt8 flag ∧ Passes mid rest ∧
      ∀ a rest', scanHex mid = (some a, 44 :: rest') → r.addr = a := by
  have hpass := passes_dropWhile operation_isspace text
  unfold fscanf at h
  split at h
  · cases h
  · rename_i flag mid hcons
    rw [hcons] at hpass
    have hhex := passes_scanHex mid
    refine ⟨flag, mid, hpass, ?_⟩
    split at h
    · rename_i rest' hscan
      rw [hscan] at hhex
      cases h
      exact ⟨rfl, hhex, fun a _ ha => by cases hscan.symm.trans ha⟩
    · rename_i a rest' hscan
      rw [hscan] at hhex
      cases h
      refine ⟨rfl, hhex.trans (.skip rfl (passes_scanInt _)), fun a' _ ha => ?_⟩
      cases hscan.symm.trans ha
      rfl
    · rename_i a rest' hne hscan
      rw [hscan] at hhex
      cases h
      refine ⟨rfl, hhex, fun a' _ ha => ?_⟩
      cases hscan.symm.trans ha
      rfl

theorem fscanf_length (h : fscanf addr text = some (r, rest)) : rest.length < text.length := by
  obtain ⟨flag, mid, hpass, -, hmid, -⟩ := fscanf_passes h
  have hle := hpass.length_le
  have hle' := hmid.length_le
  rw [List.length_cons] at hle
  omega

theorem scanTrace_terminates (addr : BitVec 64) (hfuel : text.length < fuel) :
    ∃ trace, scanTrace fuel addr text = some trace := by
  induction fuel generalizing addr text with
  | zero => cases hfuel
  | succ fuel ih =>
      unfold scanTrace
      split
      · exact ⟨[], rfl⟩
      · rename_i r rest hone
        have hlt := fscanf_length hone
        obtain ⟨trace, htrace⟩ := ih r.addr (show rest.length < fuel by omega)
        exact ⟨r :: trace, by rw [htrace]; rfl⟩

theorem scanTrace_flags (h : scanTrace fuel addr text = some trace) :
    (accessing trace).map Record.flag = (text.filter operation).map Char.ofUInt8 := by
  induction fuel generalizing addr text trace with
  | zero => cases h
  | succ fuel ih =>
      unfold scanTrace at h
      split at h
      · rename_i heof
        cases h
        rw [(fscanf_eof heof).filter]
        rfl
      · rename_i r rest hone
        obtain ⟨tail, htail, heq⟩ := Option.bind_eq_some_iff.mp h
        cases heq
        obtain ⟨flag, mid, hpass, hflag, hmid, -⟩ := fscanf_passes hone
        rw [hpass.filter]
        by_cases hop : operation flag = true
        · rw [accessing_operation hflag hop, List.filter_cons_of_pos hop, List.map_cons,
            List.map_cons, hflag, hmid.filter]
          exact congrArg _ (ih htail)
        · rw [accessing_other hflag hop, List.filter_cons_of_neg hop, hmid.filter]
          exact ih htail

end CsappLabs.CacheSim
