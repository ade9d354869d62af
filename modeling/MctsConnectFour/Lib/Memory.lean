/-
A memory of bytes, and the words in it.

A word is read from the bytes at its address on, the least significant one
first, and written in the same order. What has been written is read back
(`readWord_writeWord`); a word depends on its own bytes only
(`readWord_congr`), so that a write elsewhere does not change it
(`readWord_writeWord_of_disjoint`, `readWord_setByte`).
-/
import Mathlib.Data.Nat.ModEq
import Mathlib.Tactic.Ring

namespace Memory

/-- A memory: the contents of every address. -/
abbrev Bytes : Type := Nat → UInt8

variable {m m' : Bytes} {a b n v : Nat}

/-- The number in `n` bytes. -/
def read (m : Bytes) (a : Nat) : Nat → Nat
  | 0 => 0
  | n + 1 => (m a).toNat + 256 * read m (a + 1) n

/-- A number written to `n` bytes. -/
def write (m : Bytes) (a n v : Nat) : Bytes := fun x =>
  if a ≤ x ∧ x < a + n then UInt8.ofNat (v / 256 ^ (x - a)) else m x

/-- One byte written. -/
def setByte (m : Bytes) (a : Nat) (byte : UInt8) : Bytes := fun x => if x = a then byte else m x

/-- A word of eight bytes. -/
def readWord (m : Bytes) (a : Nat) : Nat := read m a 8

def writeWord (m : Bytes) (a v : Nat) : Bytes := write m a 8 v

theorem read_congr (h : ∀ x, a ≤ x → x < a + n → m x = m' x) : read m a n = read m' a n := by
  induction n generalizing a with
  | zero => rfl
  | succ n ih =>
      have hrest : read m (a + 1) n = read m' (a + 1) n :=
        ih fun x hle hlt => h x (by omega) (by omega)
      rw [read, read, h a (Nat.le_refl a) (by omega), hrest]

/-- The bytes of a number, from the `i`-th on. -/
private theorem read_write_from {i k : Nat} (hk : i + k ≤ n) :
    read (write m a n v) (a + i) k = v / 256 ^ i % 256 ^ k := by
  induction k generalizing i with
  | zero => rw [read, Nat.pow_zero, Nat.mod_one]
  | succ k ih =>
      have hbyte : (write m a n v (a + i)).toNat = v / 256 ^ i % 256 := by
        rw [write, if_pos ⟨by omega, by omega⟩, Nat.add_sub_cancel_left, UInt8.toNat_ofNat']
      have hrest : read (write m a n v) (a + i + 1) k = v / 256 ^ (i + 1) % 256 ^ k :=
        ih (i := i + 1) (by omega)
      rw [read, hbyte, hrest, Nat.pow_succ 256 i, ← Nat.div_div_eq_div_mul, Nat.pow_succ',
        Nat.mod_mul]

theorem read_write (hv : v < 256 ^ n) : read (write m a n v) a n = v := by
  have hfrom := read_write_from (m := m) (a := a) (v := v) (i := 0) (k := n) (n := n) (by omega)
  rw [Nat.pow_zero, Nat.div_one, Nat.mod_eq_of_lt hv] at hfrom
  exact hfrom

theorem read_lt (m : Bytes) (a n : Nat) : read m a n < 256 ^ n := by
  induction n generalizing a with
  | zero => exact Nat.one_pos
  | succ n ih =>
      have hbyte := (m a).toNat_lt
      have hrest := ih (a + 1)
      rw [read, Nat.pow_succ]
      omega

-- =============================================================== words

theorem readWord_lt (m : Bytes) (a : Nat) : readWord m a < 2 ^ 64 := read_lt m a 8

theorem readWord_congr (h : ∀ x, a ≤ x → x < a + 8 → m x = m' x) :
    readWord m a = readWord m' a := read_congr h

theorem readWord_writeWord (hv : v < 2 ^ 64) : readWord (writeWord m a v) a = v :=
  read_write (by simpa using hv)

theorem readWord_writeWord_of_disjoint (h : b + 8 ≤ a ∨ a + 8 ≤ b) :
    readWord (writeWord m a v) b = readWord m b := by
  refine readWord_congr fun x hle hlt => ?_
  rw [writeWord, write, if_neg (by omega)]

theorem readWord_setByte {byte : UInt8} (h : a < b ∨ b + 8 ≤ a) :
    readWord (setByte m a byte) b = readWord m b := by
  refine readWord_congr fun x hle hlt => ?_
  rw [setByte, if_neg (by omega)]

end Memory
