import CsappLabs.Foundation.CString

/-!
# The lines of a text

A call that reads a line takes the text up to its first line feed, and no more
characters than fit into its buffer.
-/

namespace CsappLabs.Foundation

variable {text line rest : List UInt8} {k fuel : Nat} {lines : List (List UInt8)}

/-- The text up to the end of its first line, which has at most `k` characters. -/
def cutLine : Nat → List UInt8 → List UInt8 × List UInt8
  | 0, text => ([], text)
  | _ + 1, [] => ([], [])
  | k + 1, c :: text =>
      if c = 10 then ([c], text)
      else
        let (line, rest) := cutLine k text
        (c :: line, rest)

def cutLines (k : Nat) : Nat → List UInt8 → List (List UInt8)
  | 0, _ => []
  | fuel + 1, text =>
      if text = [] then []
      else (cutLine k text).1 :: cutLines k fuel (cutLine k text).2

theorem cutLine_append (k : Nat) (text : List UInt8) :
    (cutLine k text).1 ++ (cutLine k text).2 = text := by
  induction text generalizing k with
  | nil => cases k <;> rfl
  | cons c text ih =>
      cases k with
      | zero => rfl
      | succ k =>
          by_cases hc : c = 10
          · simp [cutLine, hc]
          · simp [cutLine, hc, ih]

theorem length_cutLine_le (k : Nat) (text : List UInt8) : (cutLine k text).1.length ≤ k := by
  induction text generalizing k with
  | nil => cases k <;> simp [cutLine]
  | cons c text ih =>
      cases k with
      | zero => simp [cutLine]
      | succ k =>
          by_cases hc : c = 10
          · simp [cutLine, hc]
          · simp [cutLine, hc, ih]

theorem cutLine_ne_nil (hk : 0 < k) (htext : text ≠ []) : (cutLine k text).1 ≠ [] := by
  obtain ⟨c, text, rfl⟩ := List.exists_cons_of_ne_nil htext
  obtain ⟨k, rfl⟩ := Nat.exists_eq_succ_of_ne_zero (Nat.ne_of_gt hk)
  by_cases hc : c = 10
  · simp [cutLine, hc]
  · simp [cutLine, hc]

theorem cutLine_starts (hpre : line ++ [10] <+: (cutLine k text).1) :
    (cutLine k text).1 = line ++ [10] := by
  induction text generalizing k line with
  | nil => cases k <;> simp [cutLine] at hpre
  | cons c text ih =>
      cases k with
      | zero => simp [cutLine] at hpre
      | succ k =>
          by_cases hc : c = 10
          · subst hc
            simp only [cutLine, if_true] at hpre ⊢
            have hlen := hpre.length_le
            simp only [List.length_append, List.length_singleton] at hlen
            obtain rfl : line = [] := List.length_eq_zero_iff.mp (by omega)
            rfl
          · simp only [cutLine, if_neg hc] at hpre ⊢
            cases line with
            | nil => exact absurd (List.cons_prefix_cons.mp hpre).1.symm hc
            | cons b line =>
                obtain ⟨rfl, htail⟩ := List.cons_prefix_cons.mp hpre
                rw [ih htail]
                rfl

theorem cutLine_line (hline : 10 ∉ line) (hk : line.length < k) (rest : List UInt8) :
    cutLine k (line ++ 10 :: rest) = (line ++ [10], rest) := by
  induction line generalizing k with
  | nil =>
      obtain ⟨k, rfl⟩ := Nat.exists_eq_succ_of_ne_zero (Nat.ne_of_gt hk)
      rfl
  | cons c line ih =>
      obtain ⟨k, rfl⟩ := Nat.exists_eq_succ_of_ne_zero (Nat.ne_of_gt (Nat.zero_lt_of_lt hk))
      obtain ⟨hc, hline⟩ := not_or.mp (mt List.mem_cons.mpr hline)
      simp [cutLine, Ne.symm hc, ih hline (Nat.lt_of_succ_lt_succ hk)]

theorem cutLines_lines (hlines : ∀ line ∈ lines, 10 ∉ line ∧ line.length < k)
    (hfuel : lines.length ≤ fuel) :
    cutLines k fuel (lines.flatMap fun line => line ++ [10]) =
      lines.map fun line => line ++ [10] := by
  induction lines generalizing fuel with
  | nil => cases fuel <;> rfl
  | cons line lines ih =>
      obtain ⟨fuel, rfl⟩ := Nat.exists_eq_add_of_lt (Nat.lt_of_lt_of_le (Nat.zero_lt_succ _) hfuel)
      obtain ⟨hline, hk⟩ := hlines line List.mem_cons_self
      have hcut := cutLine_line hline hk (lines.flatMap fun line => line ++ [10])
      have htext : ((line :: lines).flatMap fun line => line ++ [10]) =
          line ++ 10 :: lines.flatMap fun line => line ++ [10] := by simp
      rw [htext, Nat.zero_add, cutLines, if_neg (by simp), hcut,
        ih (fun l hl => hlines l (List.mem_cons_of_mem line hl)) (by simpa using hfuel)]
      rfl

end CsappLabs.Foundation
