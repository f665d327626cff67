import CsappLabs.Malloc.Driver.TraceFile

/-!
# How a trace file is written

The layout says nothing about the shape of the white space, of the words that
start with the letter of a request, or of zeros in front of a number.  Each
file of this layout is read as the trace that it writes, and the result of
`read_trace` is a function of that trace.
-/

namespace CsappLabs.Malloc.Driver

open CsappLabs.Foundation

variable {malloc : Nat → Nat → Bool} {unset : Unset} {t : Trace} {op : Traceop}
  {ops : List Traceop} {cur : Cursor} {text rest line args digits field gap : List UInt8}
  {n room fuel k : Nat}

/-! ## The layout -/

def Field (n : Nat) (field : List UInt8) : Prop :=
  ∃ gap digits, Gap gap ∧ Numeral n digits ∧ field = gap ++ digits

def letter : OpType → UInt8
  | .alloc => 97
  | .realloc => 114
  | .free => 102

/-- What stands behind the word of a request.  A letter `d` may follow the
number of a freed id. -/
def Args (op : Traceop) (args : List UInt8) : Prop :=
  match op.type with
  | .free => ∃ field, Field op.index field ∧ (args = field ∨ args = field ++ [100])
  | .alloc => ∃ f₁ f₂, Field op.index f₁ ∧ Field op.size f₂ ∧ args = f₁ ++ f₂
  | .realloc => ∃ f₁ f₂, Field op.index f₁ ∧ Field op.size f₂ ∧ args = f₁ ++ f₂

def Line (op : Traceop) (line : List UInt8) : Prop :=
  ∃ gap word args, Gap gap ∧ (∀ c ∈ word, isspace c = false) ∧ word.length + 1 < maxline ∧
    Args op args ∧ line = gap ++ (letter op.type :: word ++ args)

inductive Lines : List Traceop → List UInt8 → Prop
  | nil {rest : List UInt8} (h : ∀ c ∈ rest, isspace c = true) : Lines [] rest
  | cons {op : Traceop} {ops : List Traceop} {line rest : List UInt8} (hline : Line op line)
      (hrest : Lines ops rest) : Lines (op :: ops) (line ++ rest)

def Written (t : Trace) (text : List UInt8) : Prop :=
  ∃ lead digits f₁ f₂ f₃ body, (∀ c ∈ lead, isspace c = true) ∧
    Numeral t.suggHeapsize.toNat digits ∧ Field t.numIds.toNat f₁ ∧ Field t.numOps.toNat f₂ ∧
    Field t.weight.toNat f₃ ∧ Lines t.ops body ∧
    text = lead ++ (digits ++ (f₁ ++ (f₂ ++ (f₃ ++ body))))

/-- The element of the array: `read_trace` does not write the size of a request
that frees. -/
def stored (unset : Unset) (k : Nat) (op : Traceop) : Traceop :=
  if op.type = .free then { op with size := unset.sizes k } else op

theorem Field.ends (h : Field n field) (rest : List UInt8) : Ends (field ++ rest) := by
  obtain ⟨gap, digits, hgap, -, rfl⟩ := h
  rw [List.append_assoc]
  exact hgap.ends _

theorem Line.ends (h : Line op line) (rest : List UInt8) : Ends (line ++ rest) := by
  obtain ⟨gap, word, args, hgap, -, -, -, rfl⟩ := h
  rw [List.append_assoc]
  exact hgap.ends _

theorem Lines.ends (h : Lines ops text) : Ends text := by
  cases h with
  | nil hspace =>
      cases text with
      | nil => exact .inl rfl
      | cons c text => exact .inr ⟨c, text, rfl, hspace c List.mem_cons_self⟩
  | cons hline hrest => exact hline.ends _

def Cursor.after (cur : Cursor) (op : Traceop) : Cursor where
  index := op.index
  size := if op.type = .free then cur.size else op.size
  maxIndex := if op.type = .free then cur.maxIndex else max cur.maxIndex op.index
  opIndex := cur.opIndex

theorem Args.ends (h : Args op args) (rest : List UInt8) : Ends (args ++ rest) := by
  cases op with
  | mk type index size =>
      cases type with
      | alloc =>
          obtain ⟨f₁, f₂, hindex, -, rfl⟩ := h
          rw [List.append_assoc]
          exact hindex.ends _
      | realloc =>
          obtain ⟨f₁, f₂, hindex, -, rfl⟩ := h
          rw [List.append_assoc]
          exact hindex.ends _
      | free =>
          obtain ⟨field, hindex, rfl | rfl⟩ := h
          · exact hindex.ends _
          · rw [List.append_assoc]
            exact hindex.ends _

def Granted (malloc : Nat → Nat → Bool) (t : Trace) : Prop :=
  malloc 1 28 = true ∧ malloc 2 (arraySize t.numOps 12) = true ∧
    malloc 3 (arraySize t.numIds 4) = true ∧ malloc 4 (arraySize t.numIds 4) = true

theorem Field.intro (gap digits : List UInt8) (h : Gap gap ∧ Numeral n digits) :
    Field n (gap ++ digits) :=
  ⟨gap, digits, h.1, h.2, rfl⟩

end CsappLabs.Malloc.Driver
