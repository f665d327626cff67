import CsappLabs.Foundation.CString
import Mathlib.Data.List.Forall2

/-!
# Command lines

`parseline` of `tsh.c` copies the command line into its static array, ends each
argument there with a NUL, and stores pointers into the array in `argv`.  A
store behind the last slot of `argv`, or outside of the array, is a fault.
-/

namespace CsappLabs.Shell

open CsappLabs.Foundation

abbrev maxLine : Nat := 1024

abbrev maxArgs : Nat := 128

/-! ## The scanner -/

/-- How many blanks `while (*buf && (*buf == ' ')) buf++` skips. -/
def blanks : List UInt8 → Option Nat
  | [] => none
  | c :: text => if c ≠ 0 ∧ c = 32 then (blanks text).map (· + 1) else some 0

/-- The next argument: `buf` and `delim` once the blanks are skipped. -/
def nextArg (array : Buffer maxLine) (buf : Nat) : Option (Nat × Option Nat) := do
  let buf := buf + (← blanks (array.bytes.drop buf))
  if (← array.get buf) = 39 then
    let buf := buf + 1
    some (buf, ← array.strchr buf 39)
  else some (buf, ← array.strchr buf 32)

/-- `while (delim)`, with the pointers stored so far. -/
def argLoop : Nat → Buffer maxLine → List Nat → Nat × Option Nat → Option (Buffer maxLine × List Nat)
  | 0, _, _, _ => none
  | _ + 1, array, argv, (_, none) => some (array, argv)
  | fuel + 1, array, argv, (buf, some delim) =>
      if argv.length < maxArgs then do
        let array ← array.put delim 0
        argLoop fuel array (argv ++ [buf]) (← nextArg array (delim + 1))
      else none

/-- The array and `argv` up to its NULL when `parseline` returns `bg`. -/
structure Parsed where
  array : Buffer maxLine
  argv : List Nat
  bg : Bool

/-- The statements behind the loop. -/
def endArgs (array : Buffer maxLine) (argv : List Nat) : Option Parsed :=
  -- `argv[argc] = NULL`
  if argv.length < maxArgs then
    match argv.getLast? with
    | none => some ⟨array, argv, true⟩
    | some last => do
        if (← array.get last) = 38 then some ⟨array, argv.dropLast, true⟩
        else some ⟨array, argv, false⟩
  else none

def parseline (array : Buffer maxLine) (cmdline : CString) : Option Parsed := do
  let array ← array.store (cmdline.bytes ++ [0])
  -- `buf[strlen(buf) - 1]`
  if cmdline.strlen = 0 then none
  else
    let array ← array.put (cmdline.strlen - 1) 32
    let (array, argv) ← argLoop maxLine array [] (← nextArg array 0)
    endArgs array argv

/-! ## Arguments -/

/-- How a text splits into arguments.  The rest of a text without a delimiter
is no argument. -/
inductive Splits : List UInt8 → List (List UInt8) → Prop
  | blank {gap : List UInt8} (hgap : ∀ c ∈ gap, c = 32) : Splits gap []
  | word {gap word : List UInt8} {c : UInt8} (hgap : ∀ c ∈ gap, c = 32) (hc : c ≠ 39)
      (hword : 32 ∉ c :: word) : Splits (gap ++ c :: word) []
  | unclosed {gap text : List UInt8} (hgap : ∀ c ∈ gap, c = 32) (htext : 39 ∉ text) :
      Splits (gap ++ 39 :: text) []
  | plain {gap word rest : List UInt8} {args : List (List UInt8)} {c : UInt8}
      (hgap : ∀ c ∈ gap, c = 32) (hc : c ≠ 39) (hword : 32 ∉ c :: word) (hrest : Splits rest args) :
      Splits (gap ++ (c :: word ++ 32 :: rest)) ((c :: word) :: args)
  | quoted {gap word rest : List UInt8} {args : List (List UInt8)} (hgap : ∀ c ∈ gap, c = 32)
      (hword : 39 ∉ word) (hrest : Splits rest args) :
      Splits (gap ++ 39 :: (word ++ 39 :: rest)) (word :: args)

variable {array : Buffer maxLine} {pre gap word text rest junk : List UInt8} {c d : UInt8}
  {args : List (List UInt8)} {argv : List Nat} {fuel : Nat}

theorem splits_total (text : List UInt8) : ∃ args, Splits text args := by
  induction hlen : text.length using Nat.strong_induction_on generalizing text with
  | _ n ih =>
      have hgap : ∀ c ∈ text.takeWhile (· = 32), c = 32 := fun c hc => by
        simpa using List.mem_takeWhile_imp hc
      have hsplit := List.takeWhile_append_dropWhile (p := (· = 32)) (l := text)
      cases hrest : text.dropWhile (· = 32) with
      | nil =>
          rw [hrest, List.append_nil] at hsplit
          exact ⟨[], hsplit ▸ .blank hgap⟩
      | cons c rest =>
          have hc32 : c ≠ 32 := by
            have hne : text.dropWhile (· = 32) ≠ [] := by simp [hrest]
            have hhead := List.head_dropWhile_not _ hne
            simpa [hrest] using hhead
          rw [hrest] at hsplit
          have hshort : rest.length < n := by
            rw [← hlen, ← hsplit, List.length_append, List.length_cons]
            omega
          rw [← hsplit]
          by_cases hc : c = 39
          · subst hc
            by_cases hmem : 39 ∈ rest
            · obtain ⟨word, tail, rfl, hword⟩ := List.eq_append_cons_of_mem hmem
              rw [List.length_append, List.length_cons] at hshort
              obtain ⟨args, hargs⟩ := ih _ (by omega) tail rfl
              exact ⟨_, .quoted hgap hword hargs⟩
            · exact ⟨[], .unclosed hgap hmem⟩
          · by_cases hmem : 32 ∈ rest
            · obtain ⟨word, tail, rfl, hword⟩ := List.eq_append_cons_of_mem hmem
              rw [List.length_append, List.length_cons] at hshort
              obtain ⟨args, hargs⟩ := ih _ (by omega) tail rfl
              exact ⟨_, .plain hgap hc (List.not_mem_cons_of_ne_of_not_mem (Ne.symm hc32) hword) hargs⟩
            · exact ⟨[], .word hgap hc (List.not_mem_cons_of_ne_of_not_mem (Ne.symm hc32) hmem)⟩

/-! ## What the scanner finds -/

theorem blanks_append (hgap : ∀ c ∈ gap, c = 32) (hc : c ≠ 32) (rest : List UInt8) :
    blanks (gap ++ c :: rest) = some gap.length := by
  induction gap with
  | nil => exact if_neg fun h => hc h.2
  | cons b gap ih =>
      rw [List.forall_mem_cons] at hgap
      obtain ⟨rfl, hgap⟩ := hgap
      rw [List.cons_append, blanks, if_pos (by decide), ih hgap]
      rfl

theorem nextArg_eq (h : array.bytes = pre ++ (gap ++ c :: rest)) (hgap : ∀ c ∈ gap, c = 32)
    (hc : c ≠ 32) :
    nextArg array pre.length =
      if c = 39 then (array.strchr (pre ++ gap ++ [c]).length 39).map fun delim =>
        ((pre ++ gap ++ [c]).length, delim)
      else (array.strchr (pre ++ gap).length 32).map fun delim => ((pre ++ gap).length, delim) := by
  have hblanks : blanks (array.bytes.drop pre.length) = some gap.length := by
    rw [h, List.drop_left, blanks_append hgap hc]
  have hget : array.get (pre.length + gap.length) = some c := by
    rw [← List.length_append]
    exact Buffer.get_append (by rw [h, List.append_assoc])
  simp only [nextArg, hblanks, hget, bind, Option.bind, List.length_append, List.length_singleton]
  split
  · cases array.strchr (pre.length + gap.length + 1) 39 <;> rfl
  · cases array.strchr (pre.length + gap.length) 32 <;> rfl

theorem nextArg_none (h : array.bytes = pre ++ (text ++ 0 :: junk)) (hnul : 0 ∉ text)
    (hsplits : Splits text []) : ∃ buf, nextArg array pre.length = some (buf, none) := by
  generalize hargs : ([] : List (List UInt8)) = args at hsplits
  cases hsplits with
  | blank hgap =>
      have hend : array.bytes = (pre ++ text) ++ ([] ++ 0 :: junk) := by simpa using h
      refine ⟨(pre ++ text).length, (nextArg_eq h hgap (by decide)).trans ?_⟩
      rw [if_neg (by decide), Buffer.strchr_missing hend List.not_mem_nil (by decide)
        List.not_mem_nil]
      rfl
  | @word gap word c hgap hc hword =>
      rw [List.mem_append, not_or] at hnul
      rw [List.append_assoc] at h
      have hc32 : c ≠ 32 := fun h32 => hword (h32 ▸ List.mem_cons_self)
      have hend : array.bytes = (pre ++ gap) ++ (c :: word ++ 0 :: junk) := by simpa using h
      refine ⟨(pre ++ gap).length, (nextArg_eq h hgap hc32).trans ?_⟩
      rw [if_neg hc, Buffer.strchr_missing hend hword (by decide) hnul.2]
      rfl
  | @unclosed gap text hgap htext =>
      rw [List.mem_append, List.mem_cons, not_or, not_or] at hnul
      rw [List.append_assoc] at h
      have hend : array.bytes = (pre ++ gap ++ [39]) ++ (text ++ 0 :: junk) := by simpa using h
      refine ⟨(pre ++ gap ++ [39]).length, (nextArg_eq h hgap (by decide)).trans ?_⟩
      rw [if_pos rfl, Buffer.strchr_missing hend htext (by decide) hnul.2.2]
      rfl
  | plain => cases hargs
  | quoted => cases hargs

theorem nextArg_plain (h : array.bytes = pre ++ (gap ++ (c :: word ++ 32 :: rest)))
    (hgap : ∀ c ∈ gap, c = 32) (hc : c ≠ 39) (hword : 32 ∉ c :: word) (hnul : 0 ∉ c :: word) :
    nextArg array pre.length =
      some ((pre ++ gap).length, some ((pre ++ gap).length + (c :: word).length)) := by
  have hc32 : c ≠ 32 := fun h32 => hword (h32 ▸ List.mem_cons_self)
  have harg : array.bytes = (pre ++ gap) ++ (c :: word ++ 32 :: rest) := by simpa using h
  rw [nextArg_eq h hgap hc32, if_neg hc, Buffer.strchr_found harg hword hnul]
  rfl

theorem nextArg_quoted (h : array.bytes = pre ++ (gap ++ 39 :: (word ++ 39 :: rest)))
    (hgap : ∀ c ∈ gap, c = 32) (hword : 39 ∉ word) (hnul : 0 ∉ word) :
    nextArg array pre.length =
      some ((pre ++ gap ++ [39]).length, some ((pre ++ gap ++ [39]).length + word.length)) := by
  have harg : array.bytes = (pre ++ gap ++ [39]) ++ (word ++ 39 :: rest) := by simpa using h
  rw [nextArg_eq h hgap (by decide), if_pos rfl, Buffer.strchr_found harg hword hnul]
  rfl

/-! ## The arguments in the array -/

def Reads (bytes : List UInt8) (argv : List Nat) (args : List (List UInt8)) : Prop :=
  List.Forall₂ (fun buf arg => ∃ pre rest, bytes = pre ++ (arg ++ 0 :: rest) ∧
    pre.length = buf ∧ 0 ∉ arg) argv args

theorem Reads.strings (h : Reads array.bytes argv args) :
    ∃ strs : List CString, argv.map array.str = strs.map some ∧ strs.map CString.bytes = args := by
  induction h with
  | nil => exact ⟨[], rfl, rfl⟩
  | cons hone _ ih =>
      obtain ⟨pre, rest, hbytes, rfl, hnul⟩ := hone
      obtain ⟨strs, hstrs, hargs⟩ := ih
      refine ⟨⟨_, hnul⟩ :: strs, ?_, by rw [List.map_cons, hargs]⟩
      rw [List.map_cons, List.map_cons, hstrs, Buffer.str_append hbytes hnul]

/-- What the loop does from a position on, when the rest of the text splits into
the arguments. -/
structure Scanned (fuel : Nat) (array : Buffer maxLine) (argv : List Nat) (pre : List UInt8)
    (args : List (List UInt8)) : Prop where
  fits : argv.length + args.length ≤ maxArgs → ∃ array' tail argv',
    (nextArg array pre.length).bind (argLoop fuel array argv) = some (array', argv ++ argv') ∧
      array'.bytes = pre ++ tail ∧ Reads array'.bytes argv' args
  full : argv.length ≤ maxArgs → maxArgs < argv.length + args.length →
    (nextArg array pre.length).bind (argLoop fuel array argv) = none

theorem Scanned.turn {lead : List UInt8}
    (h : array.bytes = (pre ++ lead) ++ (word ++ d :: (rest ++ 0 :: junk))) (hnul : 0 ∉ word)
    (hnext : nextArg array pre.length =
      some ((pre ++ lead).length, some ((pre ++ lead).length + word.length)))
    (hrest : ∀ array' : Buffer maxLine,
      array'.bytes = (pre ++ lead ++ word ++ [0]) ++ (rest ++ 0 :: junk) →
        Scanned fuel array' (argv ++ [(pre ++ lead).length]) (pre ++ lead ++ word ++ [0]) args) :
    Scanned (fuel + 1) array argv pre (word :: args) := by
  have hend : array.bytes = (pre ++ lead ++ word) ++ d :: (rest ++ 0 :: junk) := by
    rw [h, List.append_assoc (pre ++ lead)]
  obtain ⟨array', hput, hbytes⟩ := Buffer.put_append hend 0
  have hscan := hrest array' (by rw [hbytes]; simp)
  have hdelim : (pre ++ lead ++ word ++ [0]).length = (pre ++ lead).length + word.length + 1 := by
    rw [List.length_append, List.length_append]
    rfl
  have hturn : argv.length < maxArgs → (nextArg array pre.length).bind (argLoop (fuel + 1) array argv) =
      (nextArg array' (pre ++ lead ++ word ++ [0]).length).bind
        (argLoop fuel array' (argv ++ [(pre ++ lead).length])) := by
    intro hlt
    rw [List.length_append] at hput
    rw [hnext, Option.bind_some, argLoop, if_pos hlt, hput, hdelim]
    rfl
  constructor
  · intro hfits
    rw [List.length_cons] at hfits
    obtain ⟨last, tail, argv', hloop, hlast, hreads⟩ := hscan.fits (by simp; omega)
    refine ⟨last, lead ++ word ++ 0 :: tail, (pre ++ lead).length :: argv', ?_, ?_, ?_⟩
    · rw [hturn (by omega), hloop, List.append_assoc]
      rfl
    · rw [hlast]
      simp
    · exact .cons ⟨pre ++ lead, tail, by rw [hlast]; simp, rfl, hnul⟩ hreads
  · intro hle hfull
    rw [List.length_cons] at hfull
    by_cases hlt : argv.length < maxArgs
    · rw [hturn hlt]
      exact hscan.full (by simp; omega) (by simp; omega)
    · rw [hnext, Option.bind_some, argLoop, if_neg hlt]

theorem Scanned.done (hnone : ∃ buf, nextArg array pre.length = some (buf, none))
    (hbytes : array.bytes = pre ++ rest) (hfuel : 0 < fuel) : Scanned fuel array argv pre [] := by
  obtain ⟨fuel, rfl⟩ := Nat.exists_eq_succ_of_ne_zero (Nat.ne_of_gt hfuel)
  obtain ⟨buf, hbuf⟩ := hnone
  have hloop : (nextArg array pre.length).bind (argLoop (fuel + 1) array argv) =
      some (array, argv) := by
    rw [hbuf]
    rfl
  constructor
  · exact fun _ => ⟨array, rest, [], by rw [hloop, List.append_nil], hbytes, .nil⟩
  · intro hle hfull
    exact absurd hfull (Nat.not_lt.mpr hle)

theorem Splits.scanned (h : Splits text args) (hnul : 0 ∉ text)
    (hbytes : array.bytes = pre ++ (text ++ 0 :: junk)) (hfuel : args.length < fuel) :
    Scanned fuel array argv pre args := by
  induction h generalizing array argv pre fuel with
  | blank hgap => exact .done (nextArg_none hbytes hnul (.blank hgap)) hbytes hfuel
  | word hgap hc hword => exact .done (nextArg_none hbytes hnul (.word hgap hc hword)) hbytes hfuel
  | unclosed hgap htext =>
      exact .done (nextArg_none hbytes hnul (.unclosed hgap htext)) hbytes hfuel
  | @plain gap word rest args c hgap hc hword hrest ih =>
      obtain ⟨fuel, rfl⟩ := Nat.exists_eq_succ_of_ne_zero (Nat.ne_zero_of_lt hfuel)
      simp only [List.mem_append, List.mem_cons, not_or] at hnul
      have hnul' : 0 ∉ c :: word := by simpa using hnul.2.1
      have hcut : array.bytes = pre ++ (gap ++ (c :: word ++ 32 :: (rest ++ 0 :: junk))) := by
        simpa using hbytes
      have harg : array.bytes = (pre ++ gap) ++ (c :: word ++ 32 :: (rest ++ 0 :: junk)) := by
        simpa using hbytes
      refine .turn harg hnul' (nextArg_plain hcut hgap hc hword hnul') fun array' hbytes' => ?_
      exact ih hnul.2.2.2 hbytes' (Nat.lt_of_succ_lt_succ hfuel)
  | @quoted gap word rest args hgap hword hrest ih =>
      obtain ⟨fuel, rfl⟩ := Nat.exists_eq_succ_of_ne_zero (Nat.ne_zero_of_lt hfuel)
      simp only [List.mem_append, List.mem_cons, not_or] at hnul
      have hcut : array.bytes = pre ++ (gap ++ 39 :: (word ++ 39 :: (rest ++ 0 :: junk))) := by
        simpa using hbytes
      have harg : array.bytes = (pre ++ (gap ++ [39])) ++ (word ++ 39 :: (rest ++ 0 :: junk)) := by
        simpa using hbytes
      have hnext := nextArg_quoted hcut hgap hword hnul.2.2.1
      rw [List.append_assoc pre] at hnext
      refine .turn harg hnul.2.2.1 hnext fun array' hbytes' => ?_
      exact ih hnul.2.2.2.2 hbytes' (Nat.lt_of_succ_lt_succ hfuel)

theorem Splits.length_le (h : Splits text args) : args.length ≤ text.length := by
  induction h with
  | blank | word | unclosed => exact Nat.zero_le _
  | plain hgap hc hword hrest ih =>
      simp only [List.length_append, List.length_cons]
      omega
  | quoted hgap hword hrest ih =>
      simp only [List.length_append, List.length_cons]
      omega

/-! ## The result -/

def ampersandLast (args : List (List UInt8)) : Bool :=
  args.getLast?.any fun arg => arg.head? = some 38

def foregroundArgs (args : List (List UInt8)) : List (List UInt8) :=
  if ampersandLast args then args.dropLast else args

theorem Reads.concat {bytes : List UInt8} (h : Reads bytes argv (args ++ [word])) :
    ∃ argv' buf, argv = argv' ++ [buf] ∧ Reads bytes argv' args ∧
      ∃ pre rest, bytes = pre ++ (word ++ 0 :: rest) ∧ pre.length = buf := by
  have hfront := List.forall₂_take_append _ _ _ h
  have hlast := List.forall₂_drop_append _ _ _ h
  have hsplit := List.take_append_drop args.length argv
  cases hdrop : argv.drop args.length with
  | nil =>
      rw [hdrop] at hlast
      cases hlast
  | cons buf others =>
      rw [hdrop] at hlast hsplit
      cases hlast with
      | cons hone hnil =>
          cases hnil
          obtain ⟨pre, rest, hbytes, hlen, -⟩ := hone
          exact ⟨_, buf, hsplit.symm, hfront, pre, rest, hbytes, hlen⟩

structure Parses (p : Parsed) (args : List (List UInt8)) : Prop where
  argv : Reads p.array.bytes p.argv (foregroundArgs args)
  bg : p.bg = (args.isEmpty || ampersandLast args)

theorem endArgs_full (h : ¬argv.length < maxArgs) : endArgs array argv = none := if_neg h

theorem endArgs_spec (h : Reads array.bytes argv args) (hlen : args.length < maxArgs) :
    ∃ p, endArgs array argv = some p ∧ Parses p args := by
  have hargv : argv.length < maxArgs := by
    rw [h.length_eq]
    exact hlen
  rw [endArgs, if_pos hargv]
  rcases List.eq_nil_or_concat args with rfl | ⟨front, word, rfl⟩
  · cases h
    exact ⟨_, rfl, .nil, rfl⟩
  · rw [List.concat_eq_append] at h ⊢
    obtain ⟨argv', buf, rfl, hfront, pre, rest, hbytes, rfl⟩ := h.concat
    have hget : array.get pre.length = some (word.headD 0) := by
      cases word with
      | nil => exact Buffer.get_append hbytes
      | cons c word => exact Buffer.get_append hbytes
    have hhead : word.headD 0 = 38 ↔ ampersandLast (front ++ [word]) = true := by
      rw [ampersandLast, List.getLast?_concat]
      cases word with
      | nil => decide
      | cons c word => simp
    simp only [List.getLast?_concat, List.dropLast_concat, hget, bind, Option.bind_some]
    have hbg : (front ++ [word]).isEmpty = false := by simp
    by_cases hamp : word.headD 0 = 38
    · have hforeground : foregroundArgs (front ++ [word]) = front := by
        rw [foregroundArgs, if_pos (hhead.mp hamp), List.dropLast_concat]
      refine ⟨_, if_pos hamp, by rw [hforeground]; exact hfront, ?_⟩
      rw [hhead.mp hamp, Bool.or_true]
    · have hforeground : foregroundArgs (front ++ [word]) = front ++ [word] := by
        rw [foregroundArgs, if_neg (mt hhead.mpr hamp)]
      refine ⟨_, if_neg hamp, by rw [hforeground]; exact h, ?_⟩
      rw [hbg, Bool.eq_false_iff.mpr (mt hhead.mpr hamp)]
      rfl

theorem parseline_spec {front : List UInt8} {last : UInt8} (array : Buffer maxLine)
    (hnul : 0 ∉ front ++ [last]) (hlen : (front ++ [last]).length < maxLine)
    (hsplits : Splits (front ++ [32]) args) :
    (args.length < maxArgs → ∃ p, parseline array ⟨front ++ [last], hnul⟩ = some p ∧
      Parses p args) ∧
    (maxArgs ≤ args.length → parseline array ⟨front ++ [last], hnul⟩ = none) := by
  have hstore : (front ++ [last] ++ [0]).length ≤ maxLine := by
    rw [List.length_append]
    exact hlen
  obtain ⟨copy, hcopy, hbytes⟩ := array.store_eq hstore
  have hcut : copy.bytes = front ++ last :: 0 :: array.bytes.drop (front ++ [last] ++ [0]).length := by
    rw [hbytes]
    simp
  obtain ⟨line, hline, hblank⟩ := Buffer.put_append hcut 32
  have hstart : line.bytes = [] ++ (front ++ [32] ++
      0 :: array.bytes.drop (front ++ [last] ++ [0]).length) := by
    rw [hblank]
    simp
  have hnul' : 0 ∉ front ++ [32] := by
    simp only [List.mem_append, List.mem_singleton, not_or] at hnul ⊢
    exact ⟨hnul.1, by decide⟩
  have hcount : args.length < maxLine := by
    have hle := hsplits.length_le
    rw [List.length_append, List.length_singleton] at hle hlen
    omega
  have hscan : Scanned maxLine line [] [] args := hsplits.scanned hnul' hstart hcount
  have hparse : parseline array ⟨front ++ [last], hnul⟩ =
      ((nextArg line 0).bind (argLoop maxLine line [])).bind fun r => endArgs r.1 r.2 := by
    have hpos : CString.strlen ⟨front ++ [last], hnul⟩ = front.length + 1 := by
      simp [CString.strlen]
    simp only [parseline, hcopy, hpos, if_neg (Nat.succ_ne_zero _), Nat.add_sub_cancel, hline, bind,
      Option.bind_some]
    cases nextArg line 0 <;> rfl
  rw [hparse]
  constructor
  · intro hfew
    obtain ⟨array', tail, argv', hloop, -, hreads⟩ := hscan.fits (by simp; omega)
    obtain ⟨p, hp, hparses⟩ := endArgs_spec hreads hfew
    refine ⟨p, ?_, hparses⟩
    rw [List.length_nil] at hloop
    rw [hloop]
    exact hp
  · intro hmany
    by_cases hfits : args.length = maxArgs
    · obtain ⟨array', tail, argv', hloop, -, hreads⟩ := hscan.fits (by simp; omega)
      rw [List.length_nil] at hloop
      rw [hloop]
      refine endArgs_full ?_
      show ¬argv'.length < maxArgs
      rw [hreads.length_eq]
      omega
    · have hfull := hscan.full (Nat.zero_le _) (by simp; omega)
      rw [List.length_nil] at hfull
      rw [hfull]
      rfl

end CsappLabs.Shell
