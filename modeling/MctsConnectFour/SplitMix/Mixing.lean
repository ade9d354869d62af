/-
What the helpers compute, and that mixing loses nothing.

`fast_exp ( )` is the power, by the usual invariant: the result times the
multiplier to the power that is left. With all bits of the power set it is
the inverse of what has one. `pop_count ( )` takes one bit off in a turn.

`mix64 ( )` puts shifts and odd multipliers one after the other, each of
which can be undone. `mix_gamma ( )` is after words whose neighbouring
bits differ often: where these are too few it changes every other bit,
which makes neighbours that were equal different and the other way round.
-/
import Mathlib.Data.Fintype.EquivFin
import Mathlib.Data.Nat.Size
import MctsConnectFour.SplitMix.Basic

namespace MctsConnectFour.SplitMix

open Loops
open Words

-- ============================================================= helpers

section Helpers

variable {w : Nat}

theorem ne_zero_of_bne {x : BitVec w} (h : (x != 0) = true) : x ≠ 0 := by simpa using h

theorem eq_zero_of_bne {x : BitVec w} (h : (x != 0) = false) : x = 0 := by simpa using h

/-- The lowest bit, as the source asks for it. -/
theorem and_one_bne_iff (x : BitVec w) : (x &&& 1 != 0) = true ↔ IsOdd x := by
  have hnat : (x &&& 1).toNat = x.toNat % 2 := by
    cases w with
    | zero => rw [Subsingleton.elim x 0]; rfl
    | succ w => rw [BitVec.toNat_and, toNat_one (Nat.succ_ne_zero w), Nat.and_one_is_mod]
  rw [bne_iff_ne, Ne, ← BitVec.toNat_inj, hnat, toNat_zero, IsOdd]
  omega

/-- A shift by one halves a word. -/
theorem toNat_shift_one (x : BitVec w) : (x >>> 1).toNat = x.toNat / 2 := by
  rw [BitVec.toNat_ushiftRight, Nat.shiftRight_eq_div_pow, pow_one]

theorem size_toNat_le (x : BitVec w) : x.toNat.size ≤ w := Nat.size_le.mpr x.isLt

/-- Which shortens it. -/
theorem size_shift_one_lt {x : BitVec w} (hx : x ≠ 0) : (x >>> 1).toNat.size < x.toNat.size := by
  have hpos : 0 < x.toNat := Nat.pos_of_ne_zero fun h =>
    hx (BitVec.eq_of_toNat_eq (h.trans toNat_zero.symm))
  have hsize : 0 < x.toNat.size := Nat.size_pos.mpr hpos
  obtain ⟨k, hk⟩ : ∃ k, x.toNat.size = k + 1 := ⟨x.toNat.size - 1, by omega⟩
  have hlt : x.toNat < 2 ^ (k + 1) := hk ▸ Nat.lt_size_self x.toNat
  rw [toNat_shift_one, hk, Nat.lt_succ_iff, Nat.size_le]
  rw [pow_succ] at hlt
  omega

/-- What a turn of `fast_exp ( )` keeps. -/
theorem fastExpStep_inv (s : BitVec w × BitVec w × BitVec w) :
    (fastExpStep s).1 * (fastExpStep s).2.1 ^ (fastExpStep s).2.2.toNat
      = s.1 * s.2.1 ^ s.2.2.toNat := by
  obtain ⟨result, multiplier, rest⟩ := s
  simp only [fastExpStep]
  rw [toNat_shift_one, mul_assoc, ← pow_two, ← pow_mul]
  congr 1
  by_cases hodd : IsOdd rest
  · rw [if_pos ((and_one_bne_iff rest).mpr hodd), ← pow_succ']
    congr 1
    unfold IsOdd at hodd
    omega
  · rw [if_neg (mt (and_one_bne_iff rest).mp hodd), one_mul]
    congr 1
    unfold IsOdd at hodd
    omega

/-- `fast_exp ( )` is the power. -/
theorem fastExp_eq (x power : BitVec w) : fastExp x power = some (x ^ power.toNat) := by
  obtain ⟨s, hs, hinv, hdone⟩ := whileLoop_spec (s := ((1 : BitVec w), x, power))
    (c := fun s : BitVec w × BitVec w × BitVec w => s.2.2 != 0)
    (b := fun s => some (fastExpStep s))
    (I := fun s => s.1 * s.2.1 ^ s.2.2.toNat = x ^ power.toNat) (fun s => s.2.2.toNat.size)
    (fun s hs hcond => ⟨_, rfl, (fastExpStep_inv s).trans hs,
      size_shift_one_lt (ne_zero_of_bne hcond)⟩)
    (one_mul _) (size_toNat_le power)
  rw [eq_zero_of_bne hdone, toNat_zero, pow_zero, mul_one] at hinv
  rw [fastExp, hs, Option.map_some, hinv]

theorem modularInverse_eq (x : BitVec w) : modularInverse x = some (x ^ (2 ^ w - 1)) := by
  rw [modularInverse, fastExp_eq]
  congr 2
  rw [BitVec.toNat_neg]
  cases w with
  | zero => rfl
  | succ w =>
      have hpos := Nat.two_pow_pos (w + 1)
      rw [toNat_one (Nat.succ_ne_zero w)]
      exact Nat.mod_eq_of_lt (by omega)

/-- `modular_inverse ( )` returns the inverse of a word that has one, and
these are the odd words. -/
theorem modularInverse_iff (hw : 0 < w) (x : BitVec w) :
    ∃ y, modularInverse x = some y ∧ (x * y = 1 ↔ IsOdd x) ∧ ((∃ z, x * z = 1) ↔ IsOdd x) := by
  have hinverse : IsOdd x → x * x ^ (2 ^ w - 1) = 1 := by
    intro hx
    rw [mul_comm, hx.pow_mul_self]
  refine ⟨_, modularInverse_eq x, ⟨isOdd_of_mul_eq_one hw, hinverse⟩, ?_, fun hx => ⟨_, hinverse hx⟩⟩
  intro h
  obtain ⟨z, hz⟩ := h
  exact isOdd_of_mul_eq_one hw hz

theorem modularInverse_iff_byte :
    ∃ y, modularInverse (3 : BitVec 8) = some y ∧ (3 * y = 1 ↔ IsOdd (3 : BitVec 8))
      ∧ ((∃ z, (3 : BitVec 8) * z = 1) ↔ IsOdd (3 : BitVec 8)) :=
  modularInverse_iff (by decide) 3

/-- `pop_count ( )` counts the bits that are set. -/
theorem popCount_eq (x : BitVec w) : popCount x = some (weight x) := by
  obtain ⟨s, hs, hinv, hdone⟩ := whileLoop_spec (s := (0, x))
    (c := fun s : Nat × BitVec w => s.2 != 0)
    (b := fun s => some (s.1 + 1, s.2 &&& (s.2 - 1)))
    (I := fun s => s.1 + weight s.2 = weight x) (fun s => weight s.2)
    (fun s hs hcond => by
      have hclear := weight_clear (ne_zero_of_bne hcond)
      exact ⟨_, rfl, by simp only; omega, by simp only; omega⟩)
    (Nat.zero_add _) (weight_le x)
  rw [eq_zero_of_bne hdone, weight_zero, Nat.add_zero] at hinv
  rw [popCount, hs, Option.map_some, hinv]

end Helpers

-- ============================================================== mixing

/-- What is asked of the arguments of a mixing function: multipliers that
have an inverse, and shifts. -/
structure Parameters.Mixes (P : Parameters) : Prop where
  m3 : IsOdd P.m3
  m4 : IsOdd P.m4
  shifts : 1 ≤ P.s ∧ 1 ≤ P.t ∧ 1 ≤ P.u

theorem splitmix64_mixes : splitmix64.Mixes := ⟨by decide, by decide, by decide⟩

/-- `mix64 ( )` loses nothing. -/
theorem Parameters.Mixes.injective {P : Parameters} (h : P.Mixes) :
    Function.Injective (mix64 P) := by
  intro x y hxy
  apply xorShift_injective h.shifts.1
  apply mul_injective h.m3
  apply xorShift_injective h.shifts.2.1
  apply mul_injective h.m4
  exact xorShift_injective h.shifts.2.2 hxy

theorem Parameters.Mixes.bijective {P : Parameters} (h : P.Mixes) :
    Function.Bijective (mix64 P) := Finite.injective_iff_bijective.mp h.injective

/-- A shift goes through `^`. -/
theorem xorShift_xor {w : Nat} (s : Nat) (x y : BitVec w) :
    xorShift s (x ^^^ y) = xorShift s x ^^^ xorShift s y := by
  apply BitVec.eq_of_getLsbD_eq
  intro i _
  rw [getLsbD_xorShift, BitVec.getLsbD_xor, BitVec.getLsbD_xor, BitVec.getLsbD_xor,
    getLsbD_xorShift, getLsbD_xorShift]
  cases x.getLsbD i <;> cases y.getLsbD i <;> cases x.getLsbD (s + i) <;>
    cases y.getLsbD (s + i) <;> rfl

/-- Every other bit changed: neighbours that differ are those that did
not. -/
theorem weight_alternate (x : BitVec 64) :
    weight (xorShift 1 (x ^^^ 0xaaaaaaaaaaaaaaaa)) + weight (xorShift 1 x) = 64 := by
  have halternate : xorShift 1 (0xaaaaaaaaaaaaaaaa : BitVec 64) = .allOnes 64 := by decide
  rw [xorShift_xor, halternate, BitVec.xor_allOnes, weight_not]

/-- `mix_gamma ( )` returns an odd word in which at least 24 bits differ
from the next, whatever it is given. -/
theorem mixGamma_spec (P : Parameters) (x : BitVec 64) :
    ∃ gamma, mixGamma P x = some gamma ∧ IsOdd gamma ∧ 24 ≤ weight (xorShift 1 gamma) := by
  unfold mixGamma
  simp only [popCount_eq, Option.map_some]
  generalize xorShift P.r _ = y
  have hodd := isOdd_or_one y
  generalize y ||| 1 = z at hodd
  refine ⟨_, rfl, ?_, ?_⟩
  · split
    · have hlowest : (0xaaaaaaaaaaaaaaaa : BitVec 64).getLsbD 0 = false := by decide
      rw [isOdd_iff] at hodd ⊢
      rw [BitVec.getLsbD_xor, hodd, hlowest]
      rfl
    · exact hodd
  · split
    · have hsum := weight_alternate z
      omega
    · omega

end MctsConnectFour.SplitMix
