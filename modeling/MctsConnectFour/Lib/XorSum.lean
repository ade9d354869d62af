/-
Exclusive-or over a list of machine words. The sum does not depend on
the order of the list, and toggling one word in or out of it is one
`xor` with that word, which is all an incrementally maintained hash
ever does.
-/
import Mathlib.Data.List.Perm.Basic
import Mathlib.Data.UInt

namespace XorSum

/-- The exclusive or of a list of words. -/
def xorSum (l : List UInt64) : UInt64 := l.foldr (· ^^^ ·) 0

@[simp] theorem xorSum_nil : xorSum [] = 0 := rfl

@[simp] theorem xorSum_cons (a : UInt64) (l : List UInt64) :
    xorSum (a :: l) = a ^^^ xorSum l := rfl

/-- Words that are zero do not count. -/
theorem xorSum_zero {α : Type*} (l : List α) : xorSum (l.map fun _ => 0) = 0 := by
  induction l with
  | nil => rfl
  | cons a l ih => rw [List.map_cons, xorSum_cons, ih, UInt64.xor_self]

/-- Two words in front of a third may trade places. -/
theorem xor_left_comm (a b c : UInt64) : a ^^^ (b ^^^ c) = b ^^^ (a ^^^ c) := by
  rw [← UInt64.xor_assoc, UInt64.xor_comm a b, UInt64.xor_assoc]

/-- A word toggled twice is gone. -/
@[simp] theorem xor_cancel_left (a b : UInt64) : a ^^^ (a ^^^ b) = b := by
  rw [← UInt64.xor_assoc, UInt64.xor_self, UInt64.zero_xor]

/-- The order of the words does not matter. -/
theorem xorSum_perm {l l' : List UInt64} (h : l.Perm l') : xorSum l = xorSum l' := by
  induction h with
  | nil => rfl
  | cons a _ ih => rw [xorSum_cons, xorSum_cons, ih]
  | swap a b l =>
      simp only [xorSum_cons]
      exact xor_left_comm b a _
  | trans _ _ ih₁ ih₂ => exact ih₁.trans ih₂

/-- Taking an element out of the list toggles its word. -/
theorem xorSum_map_erase {α : Type*} [DecidableEq α] (f : α → UInt64) {l : List α} {a : α}
    (ha : a ∈ l) : xorSum ((l.erase a).map f) = f a ^^^ xorSum (l.map f) := by
  have hperm := xorSum_perm ((List.perm_cons_erase ha).map f)
  rw [hperm, List.map_cons, xorSum_cons, xor_cancel_left]

/-- Changing the word of one element of the list toggles the old word
out and the new one in. -/
theorem xorSum_map_update {α : Type*} [DecidableEq α] {f g : α → UInt64} {l : List α} {a : α}
    (hl : l.Nodup) (ha : a ∈ l) (heq : ∀ b ∈ l, b ≠ a → g b = f b) :
    xorSum (l.map g) = g a ^^^ (f a ^^^ xorSum (l.map f)) := by
  have hrest : (l.erase a).map g = (l.erase a).map f :=
    List.map_congr_left fun b hb => heq b (List.mem_of_mem_erase hb) (hl.mem_erase_iff.mp hb).1
  rw [← xorSum_map_erase f ha, ← hrest, xorSum_map_erase g ha, xor_cancel_left]

end XorSum
