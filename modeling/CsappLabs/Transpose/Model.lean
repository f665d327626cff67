import CsappLabs.Foundation.Loop

/-!
# The matrix transpositions

The functions of `trans.c` for `int A[N][M]` and `int B[M][N]`.  An access out
of the bounds of a matrix is a fault.  The local variables `tmp0` to `tmp7` are
a function of their number: all of them are loaded before one is stored.  The
macros `BLOCK_SIZE` and `SUB_BLOCK_SIZE` are 8 and 4.
-/

namespace CsappLabs.Transpose

open CsappLabs.Foundation

variable {α : Type}

structure Matrices (α : Type) where
  A : Nat → Nat → α
  B : Nat → Nat → α

/-! ## Statements -/

variable (M N : Nat)

/-- `tmp = A[row][col]`, for the first `n` variables. -/
def loadsA (n : Nat) (row col : Nat → Nat) (s : Matrices α) : Option (Nat → α) :=
  if ∀ k < n, row k < N ∧ col k < M then some fun k => s.A (row k) (col k) else none

/-- `tmp = B[row][col]`, for the first `n` variables. -/
def loadsB (n : Nat) (row col : Nat → Nat) (s : Matrices α) : Option (Nat → α) :=
  if ∀ k < n, row k < M ∧ col k < N then some fun k => s.B (row k) (col k) else none

def loadA (row col : Nat) (s : Matrices α) : Option α :=
  if row < N ∧ col < M then some (s.A row col) else none

def loadB (row col : Nat) (s : Matrices α) : Option α :=
  if row < M ∧ col < N then some (s.B row col) else none

def storeB (row col : Nat) (v : α) (s : Matrices α) : Option (Matrices α) :=
  if row < M ∧ col < N then
    some { s with B := fun r c => if r = row ∧ c = col then v else s.B r c }
  else none

/-- `B[row][col] = tmp`, for the first `n` variables. -/
def stores (row col : Nat → Nat) (tmp : Nat → α) : Nat → Matrices α → Option (Matrices α)
  | 0, s => some s
  | n + 1, s => do storeB M N (row n) (col n) (tmp n) (← stores row col tmp n s)

/-- `B[row][col] = B[row'][col']`, `n` times. -/
def moves (row col row' col' : Nat → Nat) : Nat → Matrices α → Option (Matrices α)
  | 0, s => some s
  | n + 1, s => do
      let s ← moves row col row' col' n s
      storeB M N (row n) (col n) (← loadB M N (row' n) (col' n) s) s

/-- `tmp0 = B[r][c]; B[r][c] = B[r'][c']; B[r'][c'] = tmp0;` -/
def swap (r c r' c' : Nat) (s : Matrices α) : Option (Matrices α) := do
  let tmp0 ← loadB M N r c s
  let s ← storeB M N r c (← loadB M N r' c' s) s
  storeB M N r' c' tmp0 s

def moveRow (ra ca rb cb : Nat) (s : Matrices α) : Option (Matrices α) := do
  let tmp ← loadsA M N 8 (fun _ => ra) (fun k => ca + k) s
  stores M N (fun _ => rb) (fun k => cb + k) tmp 8 s

/-! ## The functions -/

def trans (s : Matrices α) : Option (Matrices α) :=
  forLoop 0 N 1 (fun i => forLoop 0 M 1 fun j s => do
    storeB M N j i (← loadA M N i j s) s) s

def trans3232Block (i j : Nat) (s : Matrices α) : Option (Matrices α) := do
  -- `bj` starts at `j` and goes up with `bi`
  let s ← forLoop i (i + 8) 1 (fun bi => moveRow M N bi j (j + (bi - i)) i) s
  forLoop 0 8 1 (fun bi => forLoop (bi + 1) 8 1 fun bj =>
    swap M N (bi + j) (bj + i) (bj + j) (bi + i)) s

def trans3232Opt (s : Matrices α) : Option (Matrices α) :=
  forLoop 0 N 8 (fun i => forLoop 0 M 8 (trans3232Block M N i)) s

/-- The block on the diagonal, with the upper half of the block in the columns
from `j` on as scratch space. -/
def diagonalBlock (i j : Nat) (s : Matrices α) : Option (Matrices α) := do
  let s ← forLoop i (i + 4) 1 (fun bi => moveRow M N (bi + 4) i bi j) s
  let s ← forLoop 0 4 1 (fun bi => forLoop (bi + 1) 4 1 fun bj s => do
    let s ← swap M N (i + bi) (j + bj) (i + bj) (j + bi) s
    swap M N (i + bi) (j + bj + 4) (i + bj) (j + bi + 4) s) s
  let s ← forLoop i (i + 4) 1 (fun bi => moveRow M N bi i bi i) s
  let s ← forLoop i (i + 4) 1 (fun bi => forLoop (bi + 1) (i + 4) 1 fun bj s => do
    let s ← swap M N bi bj bj bi s
    swap M N bi (bj + 4) bj (bi + 4) s) s
  let s ← forLoop 0 4 1 (fun bi s => do
    let tmp ← loadsB M N 4 (fun _ => i + bi) (fun k => i + 4 + k) s
    let s ← moves M N (fun _ => i + bi) (fun k => i + 4 + k) (fun _ => i + bi) (fun k => j + k) 4 s
    stores M N (fun _ => i + bi) (fun k => j + k) tmp 4 s) s
  forLoop 0 4 1 (fun bi =>
    moves M N (fun _ => i + bi + 4) (fun k => i + k) (fun _ => i + bi) (fun k => j + k) 8) s

/-- A block off the diagonal.  Its upper right quarter is stored in the place
of the lower left one and moved later. -/
def offDiagonalBlock (i j : Nat) (s : Matrices α) : Option (Matrices α) := do
  let s ← forLoop j (j + 4) 1 (fun bi s => do
    let tmp ← loadsA M N 8 (fun _ => bi) (fun k => i + k) s
    let s ← stores M N (fun k => i + k) (fun _ => bi) tmp 4 s
    stores M N (fun k => i + k) (fun _ => bi + 4) (fun k => tmp (k + 4)) 4 s) s
  let s ← forLoop i (i + 4) 1 (fun bj s => do
    let tmp ← loadsA M N 4 (fun k => j + 4 + k) (fun _ => bj) s
    let tmp' ← loadsB M N 4 (fun _ => bj) (fun k => j + 4 + k) s
    let s ← stores M N (fun _ => bj) (fun k => j + 4 + k) tmp 4 s
    stores M N (fun _ => bj + 4) (fun k => j + k) tmp' 4 s) s
  forLoop (j + 4) (j + 8) 1 (fun bi s => do
    let tmp ← loadsA M N 4 (fun _ => bi) (fun k => i + 4 + k) s
    stores M N (fun k => i + 4 + k) (fun _ => bi) tmp 4 s) s

def trans6464 (s : Matrices α) : Option (Matrices α) :=
  forLoop 0 N 8 (fun i s => do
    let s ← diagonalBlock M N i (if i = 0 then 8 else 0) s
    forLoop 0 M 8 (fun j s => if i = j then some s else offDiagonalBlock M N i j s) s) s

/-- The body of the loops of `trans_61_67`, with `B_ROW_NUM` 8 and `B_COL_NUM`
23.  The sum `j + B_COL_NUM` is not compared with `M`. -/
def trans6167Block (i j : Nat) (s : Matrices α) : Option (Matrices α) := do
  let hi ← int (i + 8)
  let hj ← int (j + 23)
  if hi ≤ N ∧ hj ≠ 0 then
    forLoop j hj 1 (fun bj s => do
      let tmp ← loadsA M N 8 (fun k => i + k) (fun _ => bj) s
      stores M N (fun _ => bj) (fun k => i + k) tmp 8 s) s
  else
    forLoop i (min hi N) 1 (fun bi => forLoop j (min hj M) 1 fun bj s => do
      storeB M N bj bi (← loadA M N bi bj s) s) s

def trans6167 (s : Matrices α) : Option (Matrices α) :=
  forLoop 0 N 8 (fun i => forLoop 0 M 23 (trans6167Block M N i)) s

/-- `transpose_submit`; `none` inside is `exit`. -/
def transposeSubmit (s : Matrices α) : Option (Option (Matrices α)) :=
  if M = 32 ∧ N = 32 then (trans3232Opt M N s).map some
  else if M = 64 ∧ N = 64 then (trans6464 M N s).map some
  else if M = 61 ∧ N = 67 then (trans6167 M N s).map some
  else some none

end CsappLabs.Transpose
