/-
Row-major numbering, one dimension at a time.

If the tuples of a set are numbered `0 .. n - 1`, then a further leading
index from a range of `m` values, displaced by its first value and
weighted with `n`, numbers the longer tuples `0 .. m * n - 1`. Starting
from one displaced range (`bijOn_displace`) and adding dimensions
(`Set.BijOn.addDim`), every row-major addressing scheme with first
indices of its own is a bijection onto its offsets.
-/
import Mathlib.Order.ConditionallyCompleteLattice.Basic
import Mathlib.Data.Int.ConditionallyCompleteOrder
import Mathlib.Data.Set.Prod
import Mathlib.Order.Interval.Set.Basic
import Mathlib.Tactic.Ring

namespace RowMajor

variable {α : Type*} {s : Set α} {f : α → Int} {n : Nat}

/-- The `n` indices from `b` on. -/
def range (b : Int) (n : Nat) : Set Int := Set.Ico b (n + b)

/-- The offsets of `n` elements. -/
def offsets (n : Nat) : Set Int := Set.Ico 0 (n : Int)

@[simp] theorem mem_range {b i : Int} : i ∈ range b n ↔ b ≤ i ∧ i < n + b := Iff.rfl

@[simp] theorem mem_offsets {o : Int} : o ∈ offsets n ↔ 0 ≤ o ∧ o < n := Iff.rfl

/-- One displaced range is numbered from zero. -/
theorem bijOn_displace (b : Int) (n : Nat) :
    Set.BijOn (fun i => i - b) (range b n) (offsets n) := by
  refine Set.BijOn.mk ?_ ?_ ?_
  · intro i hi
    obtain ⟨hlo, hhi⟩ := hi
    exact ⟨sub_nonneg.mpr hlo, sub_lt_iff_lt_add.mpr hhi⟩
  · intro i _ j _ heq
    exact sub_left_inj.mp heq
  · intro o ho
    rw [mem_offsets] at ho
    refine ⟨o + b, ?_, add_sub_cancel_right o b⟩
    rw [mem_range]
    omega

/-- The leading index of a numbered tuple, and the number of the rest,
are read off its number. -/
theorem split_offset (c : Int) {o : Int} (ho : 0 ≤ o) (hon : o < n) :
    (c * n + o) / n = c ∧ (c * n + o) % n = o := by
  have hn : (n : Int) ≠ 0 := by omega
  constructor
  · rw [Int.add_comm, Int.add_mul_ediv_right _ _ hn, Int.ediv_eq_zero_of_lt ho hon, Int.zero_add]
  · rw [Int.add_comm, Int.add_mul_emod_self_right, Int.emod_eq_of_lt ho hon]

/-- A further leading dimension. -/
theorem bijOn_addDim (hf : Set.BijOn f s (offsets n)) (b : Int) (m : Nat) :
    Set.BijOn (fun p : Int × α => (p.1 - b) * n + f p.2) (range b m ×ˢ s)
      (offsets (m * n)) := by
  refine Set.BijOn.mk ?_ ?_ ?_
  · intro p hp
    obtain ⟨hi, hp⟩ := hp
    obtain ⟨hlo, hhi⟩ := hf.mapsTo hp
    rw [mem_range] at hi
    have hrow : 0 ≤ (p.1 - b) * (n : Int) := Int.mul_nonneg (by omega) (by omega)
    have hrows : (p.1 - b + 1) * (n : Int) ≤ m * n :=
      Int.mul_le_mul_of_nonneg_right (by omega) (by omega)
    have hexp : (p.1 - b + 1) * (n : Int) = (p.1 - b) * n + n := by ring
    rw [mem_offsets]
    push_cast
    omega
  · intro p hp q hq heq
    obtain ⟨hplo, hphi⟩ := hf.mapsTo hp.2
    obtain ⟨hqlo, hqhi⟩ := hf.mapsTo hq.2
    have hnum : (p.1 - b) * (n : Int) + f p.2 = (q.1 - b) * n + f q.2 := heq
    obtain ⟨hp₁, hp₂⟩ := split_offset (p.1 - b) hplo hphi
    obtain ⟨hq₁, hq₂⟩ := split_offset (q.1 - b) hqlo hqhi
    rw [hnum] at hp₁ hp₂
    have hindex : p.1 = q.1 := sub_left_inj.mp (hp₁.symm.trans hq₁)
    have hrest : p.2 = q.2 := hf.injOn hp.2 hq.2 (hp₂.symm.trans hq₂)
    exact Prod.ext hindex hrest
  · intro o ho
    rw [mem_offsets] at ho
    have hn : (0 : Int) < n := by
      cases n with
      | zero => simp at ho; omega
      | succ n => omega
    have hm : o < m * n := by exact_mod_cast ho.2
    obtain ⟨x, hx, hfx⟩ := hf.surjOn
      (show o % n ∈ offsets n from ⟨Int.emod_nonneg _ hn.ne', Int.emod_lt_of_pos _ hn⟩)
    refine ⟨(o / n + b, x), ⟨?_, hx⟩, ?_⟩
    · have hlo := Int.ediv_nonneg ho.1 hn.le
      have hhi := Int.ediv_lt_of_lt_mul hn hm
      show o / n + b ∈ range b m
      rw [mem_range]
      omega
    · show (o / n + b - b) * n + f x = o
      rw [hfx, add_sub_cancel_right, Int.mul_comm, Int.mul_ediv_add_emod]

end RowMajor
