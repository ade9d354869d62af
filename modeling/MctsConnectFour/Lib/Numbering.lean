/-
Numberings that grow.

Elements are given numbers as they turn up, from zero on: `Numbered f size`
says that the numbers below `size` are given once each, and no others. An
element without one is given the next (`Numbered.extend`); the others keep
theirs (`keeps_number`), and what has a number then is the new element or
had it before (`Numbered.cases_next`).
-/
import Mathlib.Tactic.Common

namespace Numbering

variable {α : Type*} {f : α → Option Nat} {size k : Nat} {a c : α}

/-- The numbers below `size` are given once each. -/
structure Numbered (f : α → Option Nat) (size : Nat) : Prop where
  bound : ∀ {a k}, f a = some k → k < size
  inj : ∀ {a b k}, f a = some k → f b = some k → a = b
  surj : ∀ {k}, k < size → ∃ a, f a = some k

variable [DecidableEq α]

/-- Only `r` has a number, the first. -/
theorem first_iff {r : α} : (if a = r then some 0 else none) = some k ↔ a = r ∧ k = 0 := by
  split
  · next ha => exact ⟨fun heq => ⟨ha, (Option.some.inj heq).symm⟩, fun heq => by rw [heq.2]⟩
  · next ha => exact iff_of_false (by simp) fun heq => ha heq.1

/-- What has a number then is `r`. -/
theorem first_seen (r : α) (k : Nat) :
    (fun a => (if a = r then some k else none) ≠ none) = (· = r) := by
  funext a
  by_cases ha : a = r
  · simp [ha]
  · simp [ha]

theorem numbered_first (r : α) : Numbered (fun a => if a = r then some 0 else none) 1 := by
  constructor
  case bound =>
    intro a k ha
    rw [(first_iff.mp ha).2]
    exact Nat.one_pos
  case inj =>
    intro a b k ha hb
    rw [(first_iff.mp ha).1, (first_iff.mp hb).1]
  case surj =>
    intro k hk
    exact ⟨r, first_iff.mpr ⟨rfl, Nat.lt_one_iff.mp hk⟩⟩

/-- An element that has a number keeps it when `c` gets one. -/
theorem keeps_number (hc : f c = none) (ha : f a = some k) :
    (if a = c then some size else f a) = some k := by
  rw [if_neg fun heq => by rw [heq, hc] at ha; cases ha]
  exact ha

/-- What has a number once `c` has the next one. -/
theorem Numbered.cases_next (h : Numbered f size)
    (ha : (if a = c then some size else f a) = some k) :
    a = c ∧ k = size ∨ a ≠ c ∧ f a = some k ∧ k < size := by
  split at ha
  · next heq => exact Or.inl ⟨heq, (Option.some.inj ha).symm⟩
  · next hne => exact Or.inr ⟨hne, ha, h.bound ha⟩

/-- The next number is given to `c`. -/
theorem Numbered.extend (h : Numbered f size) (hc : f c = none) :
    Numbered (fun a => if a = c then some size else f a) (size + 1) := by
  constructor
  case bound =>
    intro a k ha
    rcases h.cases_next ha with ⟨-, rfl⟩ | ⟨-, -, hk⟩
    · exact Nat.lt_succ_self _
    · exact Nat.lt_succ_of_lt hk
  case inj =>
    intro a b k ha hb
    rcases h.cases_next ha with ⟨rfl, rfl⟩ | ⟨-, ha, hk⟩
    · rcases h.cases_next hb with ⟨rfl, -⟩ | ⟨-, -, hk⟩
      · rfl
      · exact absurd hk (Nat.lt_irrefl _)
    · rcases h.cases_next hb with ⟨-, rfl⟩ | ⟨-, hb, -⟩
      · exact absurd hk (Nat.lt_irrefl _)
      · exact h.inj ha hb
  case surj =>
    intro k hk
    rcases Nat.lt_succ_iff_lt_or_eq.mp hk with hk | rfl
    · obtain ⟨a, ha⟩ := h.surj hk
      exact ⟨a, keeps_number hc ha⟩
    · exact ⟨c, if_pos rfl⟩

end Numbering
