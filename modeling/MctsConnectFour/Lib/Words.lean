/-
Words of a fixed width: odd words, shifts, steps and bits.

An odd word has an inverse, as the number of odd residues is a power of
two below the modulus. So multiplying by one loses nothing, and the
multiples of one, added to any word, pass every word before they repeat
(`existsUnique_step`). A word with itself, shifted, added to it without
carry can be told from the top downwards (`xorShift_injective`). The
weight of a word is the number of its bits that are set.
-/
import Mathlib.Data.BitVec
import Mathlib.Data.Finset.Card
import Mathlib.FieldTheory.Finite.Basic
import Mathlib.SetTheory.Cardinal.Finite
import Mathlib.Tactic.Ring

namespace Words

variable {w : Nat} {x y z g : BitVec w}

@[simp] theorem toNat_zero : (0 : BitVec w).toNat = 0 := Nat.zero_mod _

theorem toNat_one (hw : w ≠ 0) : (1 : BitVec w).toNat = 1 :=
  Nat.mod_eq_of_lt (Nat.one_lt_two_pow hw)

instance finite_word : Finite (BitVec w) := Finite.of_equiv _ BitVec.equivFin.symm.toEquiv

/-- There are as many words as bits can be set. -/
theorem card_word (w : Nat) : Nat.card (BitVec w) = 2 ^ w := by
  rw [Nat.card_congr BitVec.equivFin.toEquiv, Nat.card_fin]

-- ================================================================= odd

/-- The lowest bit is set. -/
abbrev IsOdd (x : BitVec w) : Prop := x.toNat % 2 = 1

theorem isOdd_iff : IsOdd x ↔ x.getLsbD 0 = true := by
  rw [IsOdd, ← BitVec.testBit_toNat, Nat.testBit_zero, decide_eq_true_eq]

theorem toNat_pow (x : BitVec w) (n : Nat) : (x ^ n).toNat = x.toNat ^ n % 2 ^ w := by
  induction n with
  | zero => rw [pow_zero, pow_zero]; rfl
  | succ n ih => rw [pow_succ, pow_succ, BitVec.toNat_mul, ih, Nat.mod_mul_mod]

/-- The power one below the modulus is the inverse. -/
theorem IsOdd.pow_mul_self (hx : IsOdd x) : x ^ (2 ^ w - 1) * x = 1 := by
  cases w with
  | zero => exact Subsingleton.elim _ _
  | succ w =>
      have hpow : x ^ 2 ^ (w + 1) = 1 := by
        have hcoprime : Nat.Coprime x.toNat (2 ^ (w + 1)) :=
          Nat.Coprime.pow_right _ (Nat.coprime_two_right.mpr (Nat.odd_iff.mpr hx))
        have hmod : x.toNat ^ 2 ^ w ≡ 1 [MOD 2 ^ (w + 1)] := by
          have htotient := Nat.ModEq.pow_totient hcoprime
          rwa [Nat.totient_prime_pow_succ Nat.prime_two, Nat.mul_one] at htotient
        have hhalf : x ^ 2 ^ w = 1 := by
          apply BitVec.toNat_injective
          rw [toNat_pow, hmod]
          rfl
        rw [pow_succ, pow_mul, hhalf, one_pow]
      rw [← pow_succ, Nat.sub_add_cancel (Nat.one_le_two_pow), hpow]

theorem IsOdd.cancel (hx : IsOdd x) (h : x * y = x * z) : y = z := by
  have hinv := hx.pow_mul_self
  calc y = x ^ (2 ^ w - 1) * x * y := by rw [hinv, one_mul]
    _ = x ^ (2 ^ w - 1) * x * z := by rw [mul_assoc, h, mul_assoc]
    _ = z := by rw [hinv, one_mul]

/-- What has an inverse is odd. -/
theorem isOdd_of_mul_eq_one (hw : 0 < w) (h : x * y = 1) : IsOdd x := by
  obtain ⟨w, rfl⟩ : ∃ k, w = k + 1 := ⟨w - 1, by omega⟩
  have hnat : x.toNat * y.toNat % 2 ^ (w + 1) = 1 := by
    rw [← BitVec.toNat_mul, h]
    exact Nat.mod_eq_of_lt (Nat.one_lt_two_pow (by omega))
  have hmod : x.toNat * y.toNat % 2 = 1 := by
    rw [← Nat.mod_mod_of_dvd _ (dvd_pow_self 2 (Nat.succ_ne_zero w)), hnat]
  rw [Nat.mul_mod] at hmod
  rcases Nat.mod_two_eq_zero_or_one x.toNat with hzero | hone
  · rw [hzero] at hmod
    simp at hmod
  · exact hone

theorem mul_injective (hg : IsOdd g) : Function.Injective fun x : BitVec w => x * g := by
  intro x y h
  apply hg.cancel
  rw [mul_comm g x, mul_comm g y]
  exact h

-- =============================================================== steps

/-- Steps of an odd width come to every word, and to each at one place of
a round. -/
theorem existsUnique_step (hg : IsOdd g) (x y : BitVec w) :
    ∃! n, n < 2 ^ w ∧ x + BitVec.ofNat w n * g = y := by
  refine ⟨((y - x) * g ^ (2 ^ w - 1)).toNat, ⟨BitVec.isLt _, ?_⟩, ?_⟩
  · simp only [BitVec.ofNat_toNat, BitVec.setWidth_eq]
    rw [mul_assoc, hg.pow_mul_self, mul_one]
    abel
  · intro n hn
    obtain ⟨hn, hy⟩ := hn
    have hsub : y - x = BitVec.ofNat w n * g := by
      rw [← hy]
      abel
    have hinv : g * g ^ (2 ^ w - 1) = 1 := by rw [mul_comm, hg.pow_mul_self]
    rw [hsub, mul_assoc, hinv, mul_one, BitVec.toNat_ofNat, Nat.mod_eq_of_lt hn]

-- ============================================================== shifts

/-- `x ^= x >> s`. -/
def xorShift (s : Nat) (x : BitVec w) : BitVec w := x ^^^ (x >>> s)

theorem getLsbD_xorShift (s : Nat) (x : BitVec w) (i : Nat) :
    (xorShift s x).getLsbD i = (x.getLsbD i ^^ x.getLsbD (s + i)) := by
  rw [xorShift, BitVec.getLsbD_xor, BitVec.getLsbD_ushiftRight]

/-- The bits can be told from the top downwards. -/
theorem xorShift_injective {s : Nat} (hs : 1 ≤ s) :
    Function.Injective (xorShift s : BitVec w → BitVec w) := by
  intro x y h
  -- by induction on how far a bit is from the top
  have hbits : ∀ d i, w ≤ i + d → x.getLsbD i = y.getLsbD i := by
    intro d
    induction d with
    | zero =>
        intro i hi
        rw [BitVec.getLsbD_of_ge _ _ (by omega), BitVec.getLsbD_of_ge _ _ (by omega)]
    | succ d ih =>
        intro i hi
        have hbit := congrArg (fun v : BitVec w => v.getLsbD i) h
        simp only [getLsbD_xorShift, ih (s + i) (by omega)] at hbit
        exact (Bool.xor_left_inj).mp hbit
  exact BitVec.eq_of_getLsbD_eq fun i _ => hbits w i (by omega)

-- =============================================================== parts

section Parts

variable {m n : Nat}

/-- A word is its upper and its lower part. -/
theorem eq_of_parts {x y : BitVec (m + n)}
    (hupper : (x >>> n).setWidth m = (y >>> n).setWidth m)
    (hlower : x.setWidth n = y.setWidth n) : x = y := by
  apply BitVec.eq_of_getLsbD_eq
  intro i hi
  by_cases hin : i < n
  · have hbit := congrArg (fun v : BitVec n => v.getLsbD i) hlower
    simpa [BitVec.getLsbD_setWidth, hin] using hbit
  · obtain ⟨j, rfl⟩ : ∃ j, i = n + j := ⟨i - n, by omega⟩
    have hj : j < m := by omega
    have hbit := congrArg (fun v : BitVec m => v.getLsbD j) hupper
    simpa [BitVec.getLsbD_setWidth, BitVec.getLsbD_ushiftRight, hj] using hbit

theorem exists_parts (v : BitVec m) (u : BitVec n) :
    ∃ x : BitVec (m + n), (x >>> n).setWidth m = v ∧ x.setWidth n = u := by
  refine ⟨v ++ u, ?_, ?_⟩
  · apply BitVec.eq_of_getLsbD_eq
    intro i hi
    simp [BitVec.getLsbD_ushiftRight, BitVec.getLsbD_append, hi]
  · apply BitVec.eq_of_getLsbD_eq
    intro i hi
    simp [BitVec.getLsbD_append, hi]

end Parts

-- ================================================================ bits

/-- The places of the bits that are set. -/
def bits (x : BitVec w) : Finset Nat := (Finset.range w).filter fun i => x.getLsbD i = true

/-- How many bits are set. -/
def weight (x : BitVec w) : Nat := (bits x).card

theorem mem_bits {i : Nat} : i ∈ bits x ↔ x.getLsbD i = true := by
  rw [bits, Finset.mem_filter, Finset.mem_range]
  exact ⟨And.right, fun h => ⟨BitVec.lt_of_getLsbD h, h⟩⟩

theorem weight_pos (hx : x ≠ 0) : 0 < weight x := by
  rw [weight, Finset.card_pos]
  by_contra hnone
  apply hx
  apply BitVec.eq_of_getLsbD_eq
  intro i _
  have hi : i ∉ bits x := fun h => hnone ⟨i, h⟩
  rw [mem_bits, Bool.not_eq_true] at hi
  rw [hi]
  exact BitVec.getLsbD_zero.symm

theorem weight_le (x : BitVec w) : weight x ≤ w := by
  calc (bits x).card ≤ (Finset.range w).card := Finset.card_filter_le _ _
    _ = w := Finset.card_range w

theorem weight_zero : weight (0 : BitVec w) = 0 := by
  rw [weight, Finset.card_eq_zero, Finset.eq_empty_iff_forall_notMem]
  intro i hi
  rw [mem_bits] at hi
  simp at hi

/-- A bit is set in a word or in its complement. -/
theorem weight_not (x : BitVec w) : weight (~~~x) + weight x = w := by
  have hnot : bits (~~~x) = (Finset.range w).filter fun i => ¬ x.getLsbD i = true := by
    ext i
    rw [mem_bits, Finset.mem_filter, Finset.mem_range, BitVec.getLsbD_not]
    simp
  rw [weight, weight, hnot, bits, Nat.add_comm, Finset.card_filter_add_card_filter_not,
    Finset.card_range]

/-- `x & ( x - 1 )` is `x` without its lowest bit. -/
theorem exists_lowest (hx : x ≠ 0) : ∃ k, x.getLsbD k = true
    ∧ ∀ i, (x &&& (x - 1)).getLsbD i = (x.getLsbD i && decide (i ≠ k)) := by
  have hpos : x.toNat ≠ 0 := fun h => hx (BitVec.eq_of_toNat_eq (h.trans toNat_zero.symm))
  obtain ⟨k, _, ⟨m, rfl⟩, hxk⟩ := Nat.exists_eq_two_pow_mul_odd hpos
  have hk := Nat.two_pow_pos k
  have hpred : (x - 1).toNat = 2 ^ k * (2 * m) + (2 ^ k - 1) := by
    have hw : w ≠ 0 := by
      intro hw
      subst hw
      exact hx (Subsingleton.elim _ _)
    have hone := toNat_one hw
    rw [BitVec.toNat_sub_of_le (by rw [BitVec.le_def, hone]; omega), hone, hxk]
    rw [Nat.mul_add, Nat.mul_one]
    omega
  have hbit : ∀ i, x.getLsbD i = (decide (k ≤ i) && (2 * m + 1).testBit (i - k)) := by
    intro i
    rw [← BitVec.testBit_toNat, hxk, Nat.testBit_two_pow_mul]
  have hbit' : ∀ i, (x - 1).getLsbD i = if i < k then true else (2 * m).testBit (i - k) := by
    intro i
    rw [← BitVec.testBit_toNat, hpred, Nat.testBit_two_pow_mul_add _ (by omega),
      Nat.testBit_two_pow_sub_one]
    split
    · next h => simp [h]
    · rfl
  refine ⟨k, by rw [hbit]; simp, fun i => ?_⟩
  rw [BitVec.getLsbD_and, hbit, hbit']
  -- below the lowest bit, at it, and above
  rcases Nat.lt_trichotomy i k with hlt | rfl | hgt
  · simp [Nat.not_le.mpr hlt]
  · simp
  · obtain ⟨j, rfl⟩ : ∃ j, i = k + (j + 1) := ⟨i - k - 1, by omega⟩
    have hodd : (2 * m + 1).testBit (j + 1) = (2 * m).testBit (j + 1) := by
      rw [Nat.testBit_succ, Nat.testBit_succ]
      congr 1
      omega
    simp [hodd]

theorem weight_clear (hx : x ≠ 0) : weight (x &&& (x - 1)) + 1 = weight x := by
  obtain ⟨k, hk, hbits⟩ := exists_lowest hx
  have herase : bits (x &&& (x - 1)) = (bits x).erase k := by
    ext i
    rw [mem_bits, hbits, Finset.mem_erase, mem_bits, Bool.and_eq_true, decide_eq_true_eq]
    exact and_comm
  rw [weight, herase, Finset.card_erase_of_mem (mem_bits.mpr hk)]
  exact Nat.sub_add_cancel (weight_pos hx)

end Words
