import CsappLabs.Foundation.CString

/-!
# Numbers and words in a text

The conversions of the `scanf` family pass over white space, take the longest
piece of text that fits, and leave the rest to the next conversion.  A file is
written as fields, each a gap of white space and a word or a numeral; what a
field is read as does not depend on what comes behind the next gap.
-/

namespace CsappLabs.Foundation

variable {α : Type} {text rest gap digits word : List UInt8} {n : Nat}

/-! ## The conversions -/

def digitsValue (digits : List UInt8) : Nat := digits.foldl (fun n c => 10 * n + (c.toNat - 48)) 0

/-- A conversion to a number, from its sign and its digits: `none` when there
are no digits, and the text that is left. -/
def scanNumber (convert : Bool → List UInt8 → α) (text : List UInt8) : Option α × List UInt8 :=
  let (negative, text) := takeSign (text.dropWhile isspace)
  let digits := text.takeWhile isdigit
  (if digits = [] then none else some (convert negative digits), text.dropWhile isdigit)

/-! ## Fields -/

def Gap (gap : List UInt8) : Prop := gap ≠ [] ∧ ∀ c ∈ gap, isspace c = true

def Numeral (n : Nat) (digits : List UInt8) : Prop :=
  digits ≠ [] ∧ (∀ c ∈ digits, isdigit c = true) ∧ digitsValue digits = n

instance (gap : List UInt8) : Decidable (Gap gap) := inferInstanceAs (Decidable (_ ∧ _))

instance (n : Nat) (digits : List UInt8) : Decidable (Numeral n digits) :=
  inferInstanceAs (Decidable (_ ∧ _ ∧ _))

def Ends (rest : List UInt8) : Prop := rest = [] ∨ ∃ c text, rest = c :: text ∧ isspace c = true

theorem Gap.ends (h : Gap gap) (rest : List UInt8) : Ends (gap ++ rest) := by
  obtain ⟨c, gap', rfl⟩ := List.exists_cons_of_ne_nil h.1
  exact .inr ⟨c, gap' ++ rest, rfl, h.2 c List.mem_cons_self⟩

theorem dropWhile_spaces (hgap : ∀ c ∈ gap, isspace c = true) (rest : List UInt8) :
    (gap ++ rest).dropWhile isspace = rest.dropWhile isspace :=
  List.dropWhile_append_of_pos hgap

/-- A predicate cuts a text where a part on which it holds meets an end. -/
theorem cut_at_end {p : UInt8 → Bool} (hp : ∀ c, isspace c = true → p c = false)
    (hword : ∀ c ∈ word, p c = true) (hrest : Ends rest) :
    (word ++ rest).takeWhile p = word ∧ (word ++ rest).dropWhile p = rest := by
  rw [List.takeWhile_append_of_pos hword, List.dropWhile_append_of_pos hword]
  rcases hrest with rfl | ⟨c, text, rfl, hc⟩
  · exact ⟨List.append_nil word, rfl⟩
  · have hneg : ¬p c = true := by simp [hp c hc]
    rw [List.takeWhile_cons_of_neg hneg, List.dropWhile_cons_of_neg hneg]
    exact ⟨List.append_nil word, rfl⟩

theorem takeSign_digits (hne : digits ≠ []) (hdigits : ∀ c ∈ digits, isdigit c = true)
    (rest : List UInt8) : takeSign (digits ++ rest) = (false, digits ++ rest) := by
  obtain ⟨c, digits', rfl⟩ := List.exists_cons_of_ne_nil hne
  obtain ⟨hminus, hplus⟩ := isdigit_not_sign c (hdigits c List.mem_cons_self)
  exact takeSign_of_ne hminus hplus

theorem dropWhile_spaces_digits (hne : digits ≠ []) (hdigits : ∀ c ∈ digits, isdigit c = true)
    (rest : List UInt8) : (digits ++ rest).dropWhile isspace = digits ++ rest := by
  obtain ⟨c, digits', rfl⟩ := List.exists_cons_of_ne_nil hne
  exact List.dropWhile_cons_of_neg (isdigit_not_space c (hdigits c List.mem_cons_self))

theorem scanNumber_field (convert : Bool → List UInt8 → α)
    (hgap : ∀ c ∈ gap, isspace c = true) (hnum : Numeral n digits)
    (hrest : ∀ c text, rest = c :: text → isdigit c = false) :
    scanNumber convert (gap ++ (digits ++ rest)) = (some (convert false digits), rest) := by
  obtain ⟨hne, hdigits, -⟩ := hnum
  have hstart : takeSign ((gap ++ (digits ++ rest)).dropWhile isspace) =
      (false, digits ++ rest) := by
    rw [dropWhile_spaces hgap, dropWhile_spaces_digits hne hdigits,
      takeSign_digits hne hdigits]
  have htake : (digits ++ rest).takeWhile isdigit = digits := by
    rw [List.takeWhile_append_of_pos hdigits]
    cases rest with
    | nil => exact List.append_nil digits
    | cons c text =>
        rw [List.takeWhile_cons_of_neg (by simp [hrest c text rfl]), List.append_nil]
  have hdrop : (digits ++ rest).dropWhile isdigit = rest := by
    rw [List.dropWhile_append_of_pos hdigits]
    cases rest with
    | nil => rfl
    | cons c text => rw [List.dropWhile_cons_of_neg (by simp [hrest c text rfl])]
  simp only [scanNumber, hstart, htake, hdrop, if_neg hne]

theorem scanWord_field (hgap : ∀ c ∈ gap, isspace c = true) (hne : word ≠ [])
    (hword : ∀ c ∈ word, isspace c = false) (hrest : Ends rest) :
    scanWord (gap ++ (word ++ rest)) = (word, rest) := by
  have hstart : (word ++ rest).dropWhile isspace = word ++ rest := by
    obtain ⟨c, word', rfl⟩ := List.exists_cons_of_ne_nil hne
    exact List.dropWhile_cons_of_neg (by simp [hword c List.mem_cons_self])
  obtain ⟨htake, hdrop⟩ := cut_at_end (p := fun c => ! isspace c) (by simp)
    (by simpa using hword) hrest
  simp only [scanWord, dropWhile_spaces hgap, hstart, htake, hdrop]

theorem length_dropWhile_le (p : UInt8 → Bool) (text : List UInt8) :
    (text.dropWhile p).length ≤ text.length :=
  (List.dropWhile_sublist p).length_le

theorem length_takeSign_le (text : List UInt8) : (takeSign text).2.length ≤ text.length := by
  unfold takeSign
  split <;> simp

theorem length_scanNumber_le (convert : Bool → List UInt8 → α) (text : List UInt8) :
    (scanNumber convert text).2.length ≤ text.length :=
  (length_dropWhile_le _ _).trans <| (length_takeSign_le _).trans (length_dropWhile_le _ _)

theorem length_scanWord_lt (h : (scanWord text).1 ≠ []) :
    (scanWord text).2.length < text.length := by
  have hcut := congrArg List.length
    (List.takeWhile_append_dropWhile (p := fun c => ! isspace c) (l := text.dropWhile isspace))
  have hle := length_dropWhile_le isspace text
  have hpos := List.length_pos_iff.mpr h
  rw [List.length_append] at hcut
  simp only [scanWord] at hpos ⊢
  omega

end CsappLabs.Foundation
