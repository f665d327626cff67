import CsappLabs.Foundation.Lines
import CsappLabs.Proxy.Request.HeaderReads
import CsappLabs.Proxy.Tiny.Model

/-!
# The header that Tiny reads

On a connection that is not reset, the lines that are read are a function of
the bytes that the client sends.  `read_requesthdrs` returns when one of them
is the empty line.  When there is none it reads at the end of the input for
ever, since it does not look at the count.
-/

namespace CsappLabs.Proxy.Tiny

open CsappLabs.Foundation
open CsappLabs.Proxy.Request (Line crlf stringOf store_line store_nil)

def nextText (text : List UInt8) : Option (List UInt8 × List UInt8) :=
  if text = [] then none else some (cutLine (maxline - 1) text)

def splitLines (text : List UInt8) : List (List UInt8) := results nextText List.length text

variable {rp : Rio} {buf : Line} {text pre rest line : List UInt8} {fuel k : Nat}

/-! ## Cutting a text -/

theorem firstLine_ne_nil (htext : text ≠ []) : (cutLine (maxline - 1) text).1 ≠ [] :=
  cutLine_ne_nil (by decide) htext

theorem stringOf_cutLine : stringOf (cutLine k text).1 = crlf ↔ (cutLine k text).1 = crlf := by
  constructor
  · intro hblank
    apply @cutLine_starts text [13]
    show crlf <+: _
    rw [← hblank]
    exact List.takeWhile_prefix _
  · intro heq
    rw [heq]
    decide

/-! ## The lines of a text -/

theorem splitLines_nil : splitLines [] = [] := results_none rfl

theorem splitLines_cons (htext : text ≠ []) :
    splitLines text =
      (cutLine (maxline - 1) text).1 :: splitLines (cutLine (maxline - 1) text).2 := by
  apply results_some
  · intro s r s' hnext
    simp only [nextText, Option.ite_none_left_eq_some, Option.some.injEq] at hnext
    have hpos := List.length_pos_iff.mpr (firstLine_ne_nil hnext.1)
    have happend := cutLine_append (maxline - 1) s
    rw [hnext.2] at hpos happend
    rw [← happend, List.length_append]
    exact Nat.lt_add_of_pos_left hpos
  · rw [nextText, if_neg htext]

def EndsLine (pre : List UInt8) : Prop := ∀ b ∈ pre.getLast?, b = 10

theorem EndsLine.drop (h : EndsLine (pre ++ rest)) (hne : rest ≠ []) : EndsLine rest := by
  intro b hb
  apply h
  rwa [List.getLast?_append_of_ne_nil _ hne]

theorem EndsLine.tail {b : UInt8} (h : EndsLine (b :: pre)) : EndsLine pre := by
  by_cases hnil : pre = []
  · simp [EndsLine, hnil]
  · have hcons : b :: pre = [b] ++ pre := rfl
    exact (hcons ▸ h).drop hnil

theorem readChars_clean (hclean : rp.Clean) (k : Nat) :
    ∃ rp', readChars k rp = ((cutLine k rp.stream).1, true, rp') ∧
      rp'.stream = (cutLine k rp.stream).2 ∧ rp'.Clean := by
  induction k generalizing rp with
  | zero => exact ⟨rp, rfl, rfl, hclean⟩
  | succ k ih =>
      obtain ⟨bs, rp₁, hread, hcut, hlen, hnil, hclean₁⟩ := rioRead_spec hclean Nat.one_pos
      cases bs with
      | nil =>
          have hend := hnil rfl
          rw [List.nil_append, hend] at hcut
          exact ⟨rp₁, by simp [readChars, hread, hend, cutLine], by simp [hcut, hend, cutLine],
            hclean₁⟩
      | cons c bs =>
          obtain rfl : bs = [] := List.length_eq_zero_iff.mp (by simpa using hlen)
          rw [← hcut, List.singleton_append]
          by_cases hc : c = 10
          · exact ⟨rp₁, by simp [readChars, hread, hc, cutLine], by simp [cutLine, hc], hclean₁⟩
          · obtain ⟨rp', hrest, hstream, hclean'⟩ := ih hclean₁
            exact ⟨rp', by simp [readChars, hread, hc, cutLine, hrest],
              by simp [cutLine, hc, hstream], hclean'⟩

theorem rioReadlineb_clean (hclean : rp.Clean) (hne : rp.stream ≠ []) :
    ∃ rp', rioReadlineb rp maxline = ((cutLine (maxline - 1) rp.stream).1 ++ [0],
        some (cutLine (maxline - 1) rp.stream).1.length, rp') ∧
      rp'.stream = (cutLine (maxline - 1) rp.stream).2 ∧ rp'.Clean := by
  obtain ⟨rp', hread, hstream, hclean'⟩ := readChars_clean hclean (maxline - 1)
  refine ⟨rp', ?_, hstream, hclean'⟩
  have hline := firstLine_ne_nil hne
  simp [rioReadlineb, hread, hline]

theorem rioReadlineb_end (hclean : rp.Clean) (hend : rp.stream = []) :
    ∃ rp', rioReadlineb rp maxline = ([], some 0, rp') ∧ rp'.stream = [] ∧ rp'.Clean := by
  obtain ⟨rp', hread, hstream, hclean'⟩ := readChars_clean hclean (maxline - 1)
  have hcut : cutLine (maxline - 1) [] = ([], []) := rfl
  rw [hend, hcut] at hread hstream
  have hmax : 1 < maxline := by decide
  exact ⟨rp', by simp [rioReadlineb, hread, hmax], hstream, hclean'⟩

/-! ## `read_requesthdrs` -/

/-- At the end of the input the last line is looked at again and again. -/
theorem readRequesthdrs_end (hclean : rp.Clean) (hend : rp.stream = []) {last : CString}
    (hlast : buf.str 0 = some last) (hne : last.bytes ≠ crlf) (fuel : Nat) :
    readRequesthdrs fuel rp buf = .error (.stop .spinning) := by
  induction fuel generalizing rp with
  | zero => rfl
  | succ fuel ih =>
      obtain ⟨rp', hread, hstream, hclean'⟩ := rioReadlineb_end hclean hend
      simp only [readRequesthdrs, hread, store_nil, hlast, if_neg hne]
      exact ih hclean' hstream

/-- When nothing can be read, the array decides with what it held before. -/
theorem readRequesthdrs_nil (hclean : rp.Clean) (hend : rp.stream = []) (fuel : Nat) :
    readRequesthdrs (fuel + 1) rp buf =
      match buf.str 0 with
      | none => .error (.stop .fault)
      | some last => if last.bytes = crlf then .ok () else .error (.stop .spinning) := by
  obtain ⟨rp', hread, hstream, hclean'⟩ := rioReadlineb_end hclean hend
  simp only [readRequesthdrs, hread, store_nil]
  cases hlast : buf.str 0 with
  | none => rfl
  | some last =>
      by_cases hblank : last.bytes = crlf
      · simp only [if_pos hblank]
      · simp only [if_neg hblank, readRequesthdrs_end hclean' hstream hlast hblank]

theorem readRequesthdrs_eq (hclean : rp.Clean) (hne : rp.stream ≠ []) (fuel : Nat) :
    readRequesthdrs fuel rp buf =
      if crlf ∈ (splitLines rp.stream).take fuel then .ok () else .error (.stop .spinning) := by
  induction fuel generalizing rp buf with
  | zero => simp [readRequesthdrs]
  | succ fuel ih =>
      obtain ⟨rp', hread, hstream, hclean'⟩ := rioReadlineb_clean hclean hne
      obtain ⟨buf', last, hstore, hstr, hlast, -⟩ := store_line
        ⟨firstLine_ne_nil hne, length_cutLine_le _ _⟩ buf
      rw [splitLines_cons hne, List.take_succ_cons, ← hstream]
      simp only [readRequesthdrs, hread, hstore, hstr, hlast, stringOf_cutLine, List.mem_cons,
        eq_comm (a := crlf)]
      by_cases hblank : (cutLine (maxline - 1) rp.stream).1 = crlf
      · rw [if_pos hblank, if_pos (.inl hblank)]
      · rw [if_neg hblank]
        simp only [hblank, false_or]
        by_cases hend : rp'.stream = []
        · rw [readRequesthdrs_end hclean' hend hstr (by rwa [hlast, ne_eq, stringOf_cutLine]),
            hend, splitLines_nil]
          simp
        · exact ih hclean' hend

end CsappLabs.Proxy.Tiny
