import Mathlib.Algebra.Group.Int.Defs
import Mathlib.Data.List.TakeWhile

/-!
# C strings

A C string is the bytes before its terminator, none of which is NUL.  A buffer
holds a string when one of its bytes is NUL; what follows the first NUL is not
part of the string.
-/

namespace CsappLabs.Foundation

structure CString where
  bytes : List UInt8
  noNul : 0 ∉ bytes
  deriving DecidableEq

namespace CString

variable {buf l : List UInt8}

def strlen (s : CString) : Nat := s.bytes.length

theorem not_mem_takeWhile (buf : List UInt8) : 0 ∉ buf.takeWhile (· ≠ 0) := by
  intro h
  simpa using List.mem_takeWhile_imp h

/-- The string at the start of a buffer.  Without a NUL in the buffer a reader
runs past its end, and the result is `none`. -/
def ofBuffer (buf : List UInt8) : Option CString :=
  if 0 ∈ buf then some ⟨buf.takeWhile (· ≠ 0), not_mem_takeWhile buf⟩ else none

theorem ofBuffer_of_mem (h : 0 ∈ buf) :
    ofBuffer buf = some ⟨buf.takeWhile (· ≠ 0), not_mem_takeWhile buf⟩ := if_pos h

theorem takeWhile_append (h : 0 ∉ l) (rest : List UInt8) :
    (l ++ rest).takeWhile (· ≠ 0) = l ++ rest.takeWhile (· ≠ 0) := by
  apply List.takeWhile_append_of_pos
  intro b hb
  have hb0 : b ≠ 0 := by
    rintro rfl
    exact h hb
  simpa using hb0

theorem takeWhile_append_nul (l rest : List UInt8) :
    (l ++ 0 :: rest).takeWhile (· ≠ 0) = l.takeWhile (· ≠ 0) := by
  induction l with
  | nil => simp
  | cons b l ih =>
      by_cases hb : b = 0
      · simp [hb]
      · have hpos : decide (b ≠ 0) = true := by simpa using hb
        rw [List.cons_append, List.takeWhile_cons, List.takeWhile_cons, if_pos hpos, if_pos hpos, ih]

theorem ofBuffer_append (h : 0 ∉ l) (rest : List UInt8) :
    ofBuffer (l ++ 0 :: rest) = some ⟨l, h⟩ := by
  have htake : (l ++ 0 :: rest).takeWhile (· ≠ 0) = l := by
    rw [takeWhile_append h]
    simp
  rw [ofBuffer_of_mem (by simp)]
  simp only [htake]

end CString

/-! ## Buffers -/

structure Buffer (size : Nat) where
  bytes : List UInt8
  length_eq : bytes.length = size

namespace Buffer

variable {size : Nat}

def str (buf : Buffer size) (i : Nat) : Option CString := CString.ofBuffer (buf.bytes.drop i)

/-- Storing at the start; `none` when the data does not fit. -/
def store (buf : Buffer size) (data : List UInt8) : Option (Buffer size) :=
  if h : data.length ≤ size then
    some ⟨data ++ buf.bytes.drop data.length, by
      rw [List.length_append, List.length_drop, buf.length_eq, Nat.add_sub_cancel' h]⟩
  else none

def get (buf : Buffer size) (i : Nat) : Option UInt8 := buf.bytes[i]?

def put (buf : Buffer size) (i : Nat) (b : UInt8) : Option (Buffer size) :=
  if i < size then some ⟨buf.bytes.set i b, by rw [List.length_set, buf.length_eq]⟩ else none

theorem str_zero {buf : Buffer size} {s : CString} (h : buf.str 0 = some s) :
    ∃ rest, buf.bytes = s.bytes ++ 0 :: rest := by
  rw [str, List.drop_zero] at h
  by_cases hmem : 0 ∈ buf.bytes
  · rw [CString.ofBuffer_of_mem hmem] at h
    cases h
    obtain ⟨pre, rest, hcut, hpre⟩ := List.eq_append_cons_of_mem hmem
    have htake : buf.bytes.takeWhile (· ≠ 0) = pre := by
      rw [hcut, CString.takeWhile_append hpre, List.takeWhile_cons_of_neg (by simp),
        List.append_nil]
    refine ⟨rest, ?_⟩
    show buf.bytes = buf.bytes.takeWhile (· ≠ 0) ++ 0 :: rest
    rw [htake, hcut]
  · rw [CString.ofBuffer, if_neg hmem] at h
    cases h

end Buffer

/-- `strchr`: the inner `none` is a null pointer. -/
def strchr (c : UInt8) : List UInt8 → Option (Option Nat)
  | [] => none
  | b :: text =>
      if b = c then some (some 0)
      else if b = 0 then some none
      else (strchr c text).map fun r => r.map (· + 1)

namespace Buffer

variable {size : Nat} {buf : Buffer size} {pre word rest : List UInt8} {b c : UInt8}

def strchr (buf : Buffer size) (i : Nat) (c : UInt8) : Option (Option Nat) :=
  (Foundation.strchr c (buf.bytes.drop i)).map fun r => r.map (i + ·)

theorem get_append (h : buf.bytes = pre ++ b :: rest) : buf.get pre.length = some b := by
  rw [get, h, List.getElem?_append_right (Nat.le_refl _), Nat.sub_self, List.getElem?_cons_zero]

theorem put_append (h : buf.bytes = pre ++ b :: rest) (v : UInt8) :
    ∃ buf', buf.put pre.length v = some buf' ∧ buf'.bytes = pre ++ v :: rest := by
  have hlt : pre.length < size := by
    rw [← buf.length_eq, h, List.length_append, List.length_cons]
    omega
  refine ⟨_, if_pos hlt, ?_⟩
  show buf.bytes.set pre.length v = _
  rw [h, List.set_append_right _ _ (Nat.le_refl _), Nat.sub_self, List.set_cons_zero]

theorem store_eq (buf : Buffer size) {data : List UInt8} (h : data.length ≤ size) :
    ∃ buf', buf.store data = some buf' ∧ buf'.bytes = data ++ buf.bytes.drop data.length :=
  ⟨_, dif_pos h, rfl⟩

theorem str_append (h : buf.bytes = pre ++ (word ++ 0 :: rest)) (hword : 0 ∉ word) :
    buf.str pre.length = some ⟨word, hword⟩ := by
  rw [str, h, List.drop_left, CString.ofBuffer_append hword]

end Buffer

theorem strchr_found {c : UInt8} {word : List UInt8} (hc : c ∉ word) (hnul : 0 ∉ word)
    (rest : List UInt8) : strchr c (word ++ c :: rest) = some (some word.length) := by
  induction word with
  | nil => rw [List.nil_append, strchr, if_pos rfl, List.length_nil]
  | cons b word ih =>
      rw [List.mem_cons, not_or] at hc hnul
      rw [List.cons_append, strchr, if_neg (Ne.symm hc.1), if_neg (Ne.symm hnul.1),
        ih hc.2 hnul.2]
      rfl

theorem strchr_missing {c : UInt8} {word : List UInt8} (hc : c ∉ word) (hc0 : c ≠ 0)
    (hnul : 0 ∉ word) (rest : List UInt8) : strchr c (word ++ 0 :: rest) = some none := by
  induction word with
  | nil => rw [List.nil_append, strchr, if_neg (Ne.symm hc0), if_pos rfl]
  | cons b word ih =>
      rw [List.mem_cons, not_or] at hc hnul
      rw [List.cons_append, strchr, if_neg (Ne.symm hc.1), if_neg (Ne.symm hnul.1),
        ih hc.2 hnul.2]
      rfl

namespace Buffer

variable {size : Nat} {buf : Buffer size} {pre word rest : List UInt8} {c : UInt8}

theorem strchr_found (h : buf.bytes = pre ++ (word ++ c :: rest)) (hc : c ∉ word)
    (hnul : 0 ∉ word) : buf.strchr pre.length c = some (some (pre.length + word.length)) := by
  rw [strchr, h, List.drop_left, Foundation.strchr_found hc hnul]
  rfl

theorem strchr_missing (h : buf.bytes = pre ++ (word ++ 0 :: rest)) (hc : c ∉ word) (hc0 : c ≠ 0)
    (hnul : 0 ∉ word) : buf.strchr pre.length c = some none := by
  rw [strchr, h, List.drop_left, Foundation.strchr_missing hc hc0 hnul]
  rfl

end Buffer

/-! ## String functions -/

def chars (s : String) : List UInt8 := s.toList.map fun c => UInt8.ofNat c.toNat

def tolower (c : UInt8) : UInt8 := if 65 ≤ c ∧ c ≤ 90 then c + 32 else c

def sameLetters (s t : List UInt8) : Bool := s.map tolower = t.map tolower

def isspace (c : UInt8) : Bool := c = 32 ∨ 9 ≤ c ∧ c ≤ 13

def isdigit (c : UInt8) : Bool := 48 ≤ c ∧ c ≤ 57

def takeSign : List UInt8 → Bool × List UInt8
  | 45 :: text => (true, text)
  | 43 :: text => (false, text)
  | text => (false, text)

/-- `atoi`: `strtol` saturates at 64 bits, and the result is cut to an `int`. -/
def atoi (s : List UInt8) : Int :=
  let (negative, s) := takeSign (s.dropWhile isspace)
  let n : Int := (s.takeWhile isdigit).foldl (fun n c => 10 * n + (c.toNat - 48)) 0
  let n := if negative then -n else n
  (BitVec.ofInt 32 (max (-2 ^ 63) (min n (2 ^ 63 - 1)))).toInt

theorem takeSign_of_ne {c : UInt8} {s : List UInt8} (hminus : c ≠ 45) (hplus : c ≠ 43) :
    takeSign (c :: s) = (false, c :: s) := by
  unfold takeSign
  split
  · rename_i heq
    cases heq
    exact absurd rfl hminus
  · rename_i heq
    cases heq
    exact absurd rfl hplus
  · rfl

theorem ofUInt8_inj {c d : UInt8} : Char.ofUInt8 c = Char.ofUInt8 d ↔ c = d := by
  refine ⟨fun h => ?_, congrArg Char.ofUInt8⟩
  have hval : c.toUInt32 = d.toUInt32 := congrArg Char.val h
  simpa [← UInt8.toNat_inj, ← UInt32.toNat_inj] using hval

theorem isdigit_not_space (c : UInt8) : isdigit c = true → ¬isspace c = true := by
  simp only [isdigit, isspace, decide_eq_true_eq, UInt8.le_iff_toNat_le,
    ← UInt8.toNat_inj, UInt8.reduceToNat]
  omega

theorem isdigit_not_sign (c : UInt8) : isdigit c = true → c ≠ 45 ∧ c ≠ 43 := by
  simp only [isdigit, ne_eq, decide_eq_true_eq, UInt8.le_iff_toNat_le,
    ← UInt8.toNat_inj, UInt8.reduceToNat]
  omega

theorem atoi_digits {c : UInt8} {s : List UInt8} (hall : ∀ b ∈ c :: s, isdigit b = true) :
    atoi (c :: s) = (BitVec.ofInt 32 (max (-2 ^ 63) (min
      ((c :: s).foldl (fun (n : Int) c => 10 * n + (c.toNat - 48)) 0) (2 ^ 63 - 1)))).toInt := by
  have hc := hall c List.mem_cons_self
  obtain ⟨hminus, hplus⟩ := isdigit_not_sign c hc
  have hdigits : (c :: s).takeWhile isdigit = c :: s := List.takeWhile_eq_self_iff.mpr hall
  rw [atoi, List.dropWhile_cons_of_neg (isdigit_not_space c hc), takeSign_of_ne hminus hplus]
  simp only [hdigits]
  rfl

theorem atoi_range (s : List UInt8) : -2 ^ 31 ≤ atoi s ∧ atoi s < 2 ^ 31 :=
  ⟨BitVec.le_toInt _, BitVec.toInt_lt⟩

def strstr (needle : List UInt8) : List UInt8 → Option Nat
  | [] => if needle = [] then some 0 else none
  | c :: text =>
      if needle.isPrefixOf (c :: text) then some 0 else (strstr needle text).map (· + 1)

theorem strstr_one {c : UInt8} {pre : List UInt8} (hc : c ∉ pre) (rest : List UInt8) :
    strstr [c] (pre ++ c :: rest) = some pre.length := by
  induction pre with
  | nil => simp [strstr]
  | cons b pre ih =>
      rw [List.mem_cons, not_or] at hc
      rw [List.cons_append, strstr, if_neg (by simpa using hc.1), ih hc.2]
      rfl

theorem strstr_one_some {c : UInt8} {text : List UInt8} {n : Nat} (h : strstr [c] text = some n) :
    ∃ pre rest, text = pre ++ c :: rest ∧ c ∉ pre ∧ pre.length = n := by
  induction text generalizing n with
  | nil => cases h
  | cons b text ih =>
      rw [strstr] at h
      by_cases hb : [c].isPrefixOf (b :: text) = true
      · rw [if_pos hb] at h
        cases h
        obtain rfl : c = b := by simpa using hb
        exact ⟨[], text, rfl, List.not_mem_nil, rfl⟩
      · rw [if_neg hb] at h
        obtain ⟨m, hm, rfl⟩ := Option.map_eq_some_iff.mp h
        obtain ⟨pre, rest, rfl, hc, rfl⟩ := ih hm
        have hne : c ≠ b := by simpa using hb
        exact ⟨b :: pre, rest, rfl, List.not_mem_cons_of_ne_of_not_mem hne hc, rfl⟩

/-- One conversion `%s` of `sscanf`: the word, empty when there is none, and
the text behind it. -/
def scanWord (text : List UInt8) : List UInt8 × List UInt8 :=
  let text := text.dropWhile isspace
  (text.takeWhile (! isspace ·), text.dropWhile (! isspace ·))

theorem length_eq_of_sameLetters {s t : List UInt8} (h : sameLetters s t) :
    s.length = t.length := by
  have hmap : s.map tolower = t.map tolower := of_decide_eq_true h
  simpa using congrArg List.length hmap

end CsappLabs.Foundation
