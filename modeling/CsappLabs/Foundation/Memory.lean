import Mathlib.Data.Nat.Bitwise
import Mathlib.Tactic.Ring

/-!
# Byte-addressed memory with 32-bit words

A memory gives every address a byte.  Words are four bytes long and stored
little-endian; an address is a natural number and a word is a natural number
below `2 ^ 32`.  The lemmas say what one store, or one block copy, does to
every byte and to every word.
-/

namespace CsappLabs.Foundation

abbrev Mem := Nat → UInt8

def load (m : Mem) (a : Nat) : Nat :=
  (m a).toNat + 2 ^ 8 * (m (a + 1)).toNat + 2 ^ 16 * (m (a + 2)).toNat +
    2 ^ 24 * (m (a + 3)).toNat

def store (m : Mem) (a v : Nat) : Mem := fun x =>
  if a ≤ x ∧ x < a + 4 then UInt8.ofNat (v / 2 ^ (8 * (x - a))) else m x

/-- Copy `n` bytes from `src` to `dst`; the two ranges do not overlap. -/
def copy (m : Mem) (dst src n : Nat) : Mem := fun x =>
  if dst ≤ x ∧ x < dst + n then m (src + (x - dst)) else m x

def poke (m : Mem) (a : Nat) (v : UInt8) : Mem := fun x =>
  if x = a then v else m x

theorem load_lt (m : Mem) (a : Nat) : load m a < 2 ^ 32 := by
  have h0 := (m a).toNat_lt
  have h1 := (m (a + 1)).toNat_lt
  have h2 := (m (a + 2)).toNat_lt
  have h3 := (m (a + 3)).toNat_lt
  unfold load
  omega

theorem load_congr {m m' : Mem} {a : Nat}
    (h : ∀ x, a ≤ x → x < a + 4 → m' x = m x) : load m' a = load m a := by
  unfold load
  rw [h a (by omega) (by omega), h (a + 1) (by omega) (by omega),
    h (a + 2) (by omega) (by omega), h (a + 3) (by omega) (by omega)]

theorem store_of_outside (m : Mem) {a x : Nat} (v : Nat)
    (h : x < a ∨ a + 4 ≤ x) : store m a v x = m x := by
  have hx : ¬(a ≤ x ∧ x < a + 4) := by omega
  simp only [store, if_neg hx]

theorem store_byte (m : Mem) (a v i : Nat) (h : i < 4) :
    (store m a v (a + i)).toNat = v / 2 ^ (8 * i) % 2 ^ 8 := by
  have hx : a ≤ a + i ∧ a + i < a + 4 := by omega
  simp [store, hx]

theorem load_store_same (m : Mem) (a v : Nat) :
    load (store m a v) a = v % 2 ^ 32 := by
  have h0 := store_byte m a v 0 (by omega)
  have h1 := store_byte m a v 1 (by omega)
  have h2 := store_byte m a v 2 (by omega)
  have h3 := store_byte m a v 3 (by omega)
  simp only [Nat.mul_zero, Nat.pow_zero, Nat.div_one, Nat.add_zero] at h0
  simp only [Nat.mul_one] at h1
  unfold load
  rw [h0, h1, h2, h3]
  omega

theorem store_load (m : Mem) (a : Nat) : store m a (load m a) = m := by
  funext x
  by_cases hx : a ≤ x ∧ x < a + 4
  · obtain ⟨i, rfl⟩ := Nat.exists_eq_add_of_le hx.1
    have hi : i < 4 := by omega
    apply UInt8.toNat_inj.mp
    rw [store_byte m a _ i hi]
    have h0 := (m a).toNat_lt
    have h1 := (m (a + 1)).toNat_lt
    have h2 := (m (a + 2)).toNat_lt
    have h3 := (m (a + 3)).toNat_lt
    unfold load
    obtain rfl | rfl | rfl | rfl : i = 0 ∨ i = 1 ∨ i = 2 ∨ i = 3 := by omega
    · simp only [Nat.mul_zero, Nat.pow_zero, Nat.div_one, Nat.add_zero]
      omega
    · rw [show 8 * 1 = 8 from rfl]
      omega
    · rw [show 8 * 2 = 16 from rfl]
      omega
    · rw [show 8 * 3 = 24 from rfl]
      omega
  · exact store_of_outside m _ (by omega)

theorem load_store_of_apart (m : Mem) {a b : Nat} (v : Nat)
    (h : b + 4 ≤ a ∨ a + 4 ≤ b) : load (store m a v) b = load m b :=
  load_congr fun _ h₁ h₂ => store_of_outside m v (by omega)

theorem copy_of_outside (m : Mem) {dst n x : Nat} (src : Nat)
    (h : x < dst ∨ dst + n ≤ x) : copy m dst src n x = m x := by
  have hx : ¬(dst ≤ x ∧ x < dst + n) := by omega
  simp only [copy, if_neg hx]

theorem copy_of_inside (m : Mem) (dst src n i : Nat) (h : i < n) :
    copy m dst src n (dst + i) = m (src + i) := by
  have hx : dst ≤ dst + i ∧ dst + i < dst + n := by omega
  simp only [copy, if_pos hx, Nat.add_sub_cancel_left]

theorem poke_of_ne (m : Mem) {a x : Nat} (v : UInt8) (h : x ≠ a) :
    poke m a v x = m x := if_neg h

/-! ## Words that are packed from a multiple of eight and three low bits -/

theorem and_not_seven {w : Nat} (h : w < 2 ^ 32) :
    w &&& 0xFFFFFFF8 = w / 8 * 8 := by
  apply Nat.eq_of_testBit_eq
  intro i
  have hmask : Nat.testBit 0xFFFFFFF8 i = (decide (3 ≤ i) && decide (i < 32)) := by
    rw [show (0xFFFFFFF8 : Nat) = 2 ^ 3 * (2 ^ 29 - 1) by norm_num,
      Nat.testBit_two_pow_mul, Nat.testBit_two_pow_sub_one]
    by_cases h3 : 3 ≤ i <;> simp [h3]
    omega
  rw [Nat.testBit_and, hmask, show (8 : Nat) = 2 ^ 3 by norm_num, Nat.mul_comm,
    Nat.testBit_two_pow_mul, Nat.testBit_div_two_pow]
  by_cases h3 : 3 ≤ i
  · by_cases h32 : i < 32
    · simp [h3, h32]
    · have hbig : w.testBit i = false :=
        Nat.testBit_lt_two_pow (h.trans_le (Nat.pow_le_pow_right (by omega) (by omega)))
      simp [h3, h32, hbig]
  · simp [h3]

theorem or_low {n a : Nat} (hn : n % 8 = 0) (ha : a < 8) : n ||| a = n + a := by
  obtain ⟨k, rfl⟩ := Nat.dvd_of_mod_eq_zero hn
  exact (Nat.two_pow_add_eq_or_of_lt (i := 3) ha k).symm

end CsappLabs.Foundation
