import CsappLabs.Shell.Model
import CsappLabs.Shell.Parseline

/-!
# Lines that the shell reads

A line of arguments, quoted or not, with blanks between them is read back as it
was written.  A line that fits its buffer can still hold more arguments than
`argv` has slots.
-/

namespace CsappLabs.Shell

open CsappLabs.Foundation

variable {array : Buffer maxLine} {text lead trail gap : List UInt8} {args : List Arg}

inductive Arg where
  | plain (word : List UInt8) (ne : word ≠ []) (head : word.head? ≠ some 39)
      (clean : 32 ∉ word ∧ 10 ∉ word ∧ 0 ∉ word)
  | quoted (word : List UInt8) (clean : 39 ∉ word ∧ 10 ∉ word ∧ 0 ∉ word)

namespace Arg

def word : Arg → List UInt8
  | plain word _ _ _ => word
  | quoted word _ => word

def written : Arg → List UInt8
  | plain word _ _ _ => word
  | quoted word _ => 39 :: word ++ [39]

end Arg

inductive Separated : List Arg → List UInt8 → Prop
  | nil : Separated [] []
  | one (arg : Arg) : Separated [arg] arg.written
  | cons (arg next : Arg) {args : List Arg} {gap text : List UInt8} (hne : gap ≠ [])
      (hgap : ∀ c ∈ gap, c = 32) (htext : Separated (next :: args) text) :
      Separated (arg :: next :: args) (arg.written ++ (gap ++ text))

theorem Splits.behind {rest : List UInt8} {words : List (List UInt8)} (hlead : ∀ c ∈ lead, c = 32)
    (h : Splits rest words) : Splits (lead ++ rest) words := by
  have hgap : ∀ {gap : List UInt8}, (∀ c ∈ gap, c = 32) → ∀ c ∈ lead ++ gap, c = 32 :=
    fun hgap => List.forall_mem_append.mpr ⟨hlead, hgap⟩
  cases h with
  | blank h => exact .blank (hgap h)
  | word h hc hword =>
      rw [← List.append_assoc]
      exact .word (hgap h) hc hword
  | unclosed h htext =>
      rw [← List.append_assoc]
      exact .unclosed (hgap h) htext
  | plain h hc hword hrest =>
      rw [← List.append_assoc]
      exact .plain (hgap h) hc hword hrest
  | quoted h hword hrest =>
      rw [← List.append_assoc]
      exact .quoted (hgap h) hword hrest

theorem Splits.written {rest : List UInt8} {words : List (List UInt8)} (arg : Arg)
    (hlead : ∀ c ∈ lead, c = 32) (hrest : Splits rest words) :
    Splits (lead ++ (arg.written ++ 32 :: rest)) (arg.word :: words) := by
  cases arg with
  | plain word ne head clean =>
      obtain ⟨c, word, rfl⟩ := List.exists_cons_of_ne_nil ne
      have hc : c ≠ 39 := by simpa using head
      exact .plain hlead hc clean.1 hrest
  | quoted word clean =>
      have hblank : Splits ([32] ++ rest) words := hrest.behind (by simp)
      have hquoted := Splits.quoted hlead clean.1 hblank
      simpa [Arg.written, Arg.word] using hquoted

theorem Separated.splits (h : Separated args text) (hlead : ∀ c ∈ lead, c = 32)
    (htrail : ∀ c ∈ trail, c = 32) :
    Splits (lead ++ (text ++ (trail ++ [32]))) (args.map Arg.word) := by
  have hend : ∀ c ∈ trail ++ [32], c = 32 := List.forall_mem_append.mpr ⟨htrail, by simp⟩
  induction h generalizing lead with
  | nil => exact .blank (List.forall_mem_append.mpr ⟨hlead, hend⟩)
  | one arg =>
      obtain ⟨c, rest, hcons⟩ := List.exists_cons_of_ne_nil (List.append_ne_nil_of_right_ne_nil trail
        (List.cons_ne_nil 32 []))
      rw [hcons, List.forall_mem_cons] at hend
      obtain ⟨rfl, hrest⟩ := hend
      rw [hcons]
      exact .written arg hlead (.blank hrest)
  | @cons arg next args gap text hne hgap htext ih =>
      obtain ⟨c, gap, rfl⟩ := List.exists_cons_of_ne_nil hne
      rw [List.forall_mem_cons] at hgap
      obtain ⟨rfl, hgap⟩ := hgap
      have hwritten := Splits.written arg hlead (ih hgap)
      simpa using hwritten

theorem Separated.parses (array : Buffer maxLine) {cmdline : CString} (htext : Separated args text)
    (hline : cmdline.bytes = lead ++ text ++ trail ++ [10]) (hlead : ∀ c ∈ lead, c = 32)
    (htrail : ∀ c ∈ trail, c = 32) (hlen : cmdline.strlen < maxLine) :
    (args.length < maxArgs →
      ∃ p, parseline array cmdline = some p ∧ Parses p (args.map Arg.word)) ∧
    (maxArgs ≤ args.length → parseline array cmdline = none) := by
  obtain ⟨bytes, hnul⟩ := cmdline
  obtain rfl : bytes = lead ++ text ++ trail ++ [10] := hline
  have hsplits : Splits (lead ++ text ++ trail ++ [32]) (args.map Arg.word) := by
    simpa using htext.splits hlead htrail
  have hspec := parseline_spec array hnul hlen hsplits
  rwa [List.length_map] at hspec

/-- `parseline` yields the arguments that were written, without the last one
when it begins with `&`. -/
theorem arguments_read_back (array : Buffer maxLine) {cmdline : CString}
    (hline : cmdline.bytes = lead ++ text ++ trail ++ [10]) (htext : Separated args text)
    (hlead : ∀ c ∈ lead, c = 32) (htrail : ∀ c ∈ trail, c = 32) (hfew : args.length < maxArgs)
    (hlen : cmdline.strlen < maxLine) :
    ∃ (p : Parsed) (strs : List CString), parseline array cmdline = some p ∧
      p.argv.map p.array.str = strs.map some ∧
      strs.map CString.bytes = foregroundArgs (args.map Arg.word) ∧
      p.bg = (args.isEmpty || ampersandLast (args.map Arg.word)) := by
  obtain ⟨p, hp, hparses⟩ := (htext.parses array hline hlead htrail hlen).1 hfew
  obtain ⟨strs, hstrs, hargs⟩ := hparses.argv.strings
  refine ⟨p, strs, hp, hstrs, hargs, ?_⟩
  rw [hparses.bg, List.isEmpty_map]

theorem arguments_read_back_quoted :
    ∃ (p : Parsed) (strs : List CString),
      parseline ⟨List.replicate 1024 7, List.length_replicate⟩
        ⟨chars " ls  'a b' '' &\n", by decide⟩ = some p ∧
      p.argv.map p.array.str = strs.map some ∧
      strs.map CString.bytes = [chars "ls", chars "a b", []] ∧ p.bg = true := by
  have hlast : Separated [.quoted [] (by decide),
      .plain (chars "&") (by decide) (by decide) (by decide)] (chars "'' &") :=
    .cons _ _ (by decide : ([32] : List UInt8) ≠ []) (by simp) (.one _)
  have hmiddle : Separated [.quoted (chars "a b") (by decide), .quoted [] (by decide),
      .plain (chars "&") (by decide) (by decide) (by decide)] (chars "'a b' '' &") :=
    .cons _ _ (by decide : ([32] : List UInt8) ≠ []) (by simp) hlast
  have hseparated : Separated [.plain (chars "ls") (by decide) (by decide) (by decide),
      .quoted (chars "a b") (by decide), .quoted [] (by decide),
      .plain (chars "&") (by decide) (by decide) (by decide)] (chars "ls  'a b' '' &") :=
    .cons _ _ (by decide : ([32, 32] : List UInt8) ≠ []) (by simp) hmiddle
  have hline : (⟨chars " ls  'a b' '' &\n", by decide⟩ : CString).bytes =
      [32] ++ chars "ls  'a b' '' &" ++ [] ++ [10] := by
    decide
  exact arguments_read_back _ hline hseparated (by simp) (by simp) (by decide) (by decide)

def evalLine (array : Buffer maxLine) (cmdline : CString) : Option Line := do
  let p ← parseline array cmdline
  some ⟨cmdline, ← p.argv.mapM p.array.str, p.bg⟩

theorem mapM_eq_some {f : Nat → Option CString} {argv : List Nat} {strs : List CString}
    (h : argv.map f = strs.map some) : argv.mapM f = some strs := by
  induction argv generalizing strs with
  | nil =>
      obtain rfl : strs = [] := by simpa using h.symm
      rfl
  | cons buf argv ih =>
      cases strs with
      | nil => cases h
      | cons str strs =>
          rw [List.map_cons, List.map_cons, List.cons.injEq] at h
          rw [List.mapM_cons, h.1, ih h.2]
          rfl

theorem evalLine_separated (array : Buffer maxLine) {cmdline : CString}
    (hline : cmdline.bytes = lead ++ text ++ trail ++ [10]) (htext : Separated args text)
    (hlead : ∀ c ∈ lead, c = 32) (htrail : ∀ c ∈ trail, c = 32) (hfew : args.length < maxArgs)
    (hlen : cmdline.strlen < maxLine) :
    ∃ argv, evalLine array cmdline =
        some ⟨cmdline, argv, args.isEmpty || ampersandLast (args.map Arg.word)⟩ ∧
      argv.map CString.bytes = foregroundArgs (args.map Arg.word) := by
  obtain ⟨p, hp, hparses⟩ := (htext.parses array hline hlead htrail hlen).1 hfew
  obtain ⟨strs, hstrs, hargs⟩ := hparses.argv.strings
  refine ⟨strs, ?_, hargs⟩
  rw [evalLine, hp, ← List.isEmpty_map, ← hparses.bg]
  show (p.argv.mapM p.array.str).bind _ = _
  rw [mapM_eq_some hstrs]
  rfl

/-! ## Every line -/

/-- The string in `cmdline` after `fgets` has stored the line. -/
def fgetsLine (line : List UInt8) : CString :=
  ⟨line.takeWhile (· ≠ 0), CString.not_mem_takeWhile line⟩

def FewArgs (line : List UInt8) : Prop :=
  ∀ args, Splits ((fgetsLine line).bytes.dropLast ++ [32]) args → args.length < maxArgs

theorem parseline_empty (array : Buffer maxLine) {cmdline : CString} (h : cmdline.bytes = []) :
    parseline array cmdline = none := by
  have hzero : cmdline.strlen = 0 := by rw [CString.strlen, h, List.length_nil]
  unfold parseline
  simp only [if_pos hzero]
  cases array.store (cmdline.bytes ++ [0]) <;> rfl

/-- `parseline` stays within `argv` and its array, if and only if the line
does not begin with a NUL and has less than 128 arguments. -/
theorem stays_in_bounds_iff (array : Buffer maxLine) {line : List UInt8} (hpos : 1 ≤ line.length)
    (hlen : line.length < maxLine) :
    (parseline array (fgetsLine line)).isSome ↔ line.head? ≠ some 0 ∧ FewArgs line := by
  obtain ⟨c, rest, rfl⟩ := List.exists_cons_of_length_pos hpos
  by_cases hc : c = 0
  · subst hc
    rw [parseline_empty array rfl]
    simp
  · have hne : (fgetsLine (c :: rest)).bytes ≠ [] := by
      have hcons : (c :: rest).takeWhile (· ≠ 0) = c :: rest.takeWhile (· ≠ 0) :=
        List.takeWhile_cons_of_pos (by simpa using hc)
      show (c :: rest).takeWhile (· ≠ 0) ≠ []
      rw [hcons]
      exact List.cons_ne_nil _ _
    have hline := List.dropLast_append_getLast hne
    have hshort : (fgetsLine (c :: rest)).bytes.length < maxLine :=
      Nat.lt_of_le_of_lt (List.takeWhile_prefix _).length_le hlen
    rw [← hline] at hshort
    have hnul := (fgetsLine (c :: rest)).noNul
    rw [← hline] at hnul
    have hspec := fun args (h : Splits _ args) => parseline_spec array hnul hshort h
    have hsame : (⟨_, hnul⟩ : CString) = fgetsLine (c :: rest) := by
      rw [CString.mk.injEq]
      exact hline
    rw [hsame] at hspec
    constructor
    · intro hsome
      refine ⟨by simpa using hc, fun args hargs => ?_⟩
      by_contra hmany
      rw [(hspec args hargs).2 (Nat.not_lt.mp hmany)] at hsome
      cases hsome
    · rintro ⟨-, hfew⟩
      obtain ⟨args, hargs⟩ := splits_total ((fgetsLine (c :: rest)).bytes.dropLast ++ [32])
      obtain ⟨p, hp, -⟩ := (hspec args hargs).1 (hfew args hargs)
      rw [hp]
      rfl

theorem stays_in_bounds_iff_quoted :
    (parseline ⟨List.replicate 1024 0, List.length_replicate⟩ (fgetsLine (chars "ls 'a b\n"))).isSome ↔
      (chars "ls 'a b\n").head? ≠ some 0 ∧ FewArgs (chars "ls 'a b\n") :=
  stays_in_bounds_iff _ (by decide) (by decide)

theorem separated_replicate (arg : Arg) (n : Nat) :
    Separated (List.replicate (n + 1) arg)
      ((List.replicate n (arg.written ++ [32])).flatten ++ arg.written) := by
  induction n with
  | zero => exact .one arg
  | succ n ih =>
      have hcons := Separated.cons arg arg (List.cons_ne_nil 32 []) (by simp) ih
      simpa [List.replicate_succ] using hcons

/-- 128 words of one letter. -/
theorem too_many_arguments :
    ¬∀ (array : Buffer maxLine) (line : List UInt8), 1 ≤ line.length → line.length < maxLine →
      (parseline array (fgetsLine line)).isSome := by
  intro hall
  have hwords := separated_replicate (.plain [97] (by decide) (by decide) (by decide)) 127
  have hline : (fgetsLine ((List.replicate 127 [97, 32]).flatten ++ [97, 10])).bytes =
      [] ++ ((List.replicate 127 [97, 32]).flatten ++ [97]) ++ [] ++ [10] := by
    decide +kernel
  have hfault := (hwords.parses ⟨List.replicate 1024 0, List.length_replicate⟩ hline
    (by simp) (by simp) (by decide +kernel)).2 (by simp [maxArgs])
  have hsome := hall ⟨List.replicate 1024 0, List.length_replicate⟩
    ((List.replicate 127 [97, 32]).flatten ++ [97, 10]) (by decide +kernel) (by decide +kernel)
  rw [hfault] at hsome
  cases hsome

end CsappLabs.Shell
