/-
How many places of a list hold a value, when the contents of the places
are a function that is updated place by place.
-/
import Mathlib.Data.List.Nodup
import Mathlib.Logic.Function.Basic
import Mathlib.Tactic.Common

namespace Tallies

variable {α β : Type*} [DecidableEq β]

/-- The places of `l` that hold `v`. -/
def tally (f : α → β) (l : List α) (v : β) : Nat := l.countP fun a => f a = v

variable {f g : α → β} {l : List α} {a : α} {u v w : β}

theorem tally_congr (h : ∀ a ∈ l, f a = g a) (v : β) : tally f l v = tally g l v :=
  List.countP_congr fun a ha => by rw [h a ha]

theorem tally_eq_zero : tally f l v = 0 ↔ ∀ a ∈ l, f a ≠ v := by
  simp [tally, List.countP_eq_zero]

/-- Three values that are all there are. -/
theorem tally_three (h : ∀ a ∈ l, f a = u ∨ f a = v ∨ f a = w) (huv : u ≠ v) (huw : u ≠ w)
    (hvw : v ≠ w) : tally f l u + tally f l v + tally f l w = l.length := by
  unfold tally
  induction l with
  | nil => rfl
  | cons a l ih =>
      obtain ⟨ha, hl⟩ := List.forall_mem_cons.mp h
      have ih := ih hl
      simp only [List.countP_cons, List.length_cons, decide_eq_true_eq]
      rcases ha with rfl | rfl | rfl
      · rw [if_pos rfl, if_neg huv, if_neg huw]
        omega
      · rw [if_neg (Ne.symm huv), if_pos rfl, if_neg hvw]
        omega
      · rw [if_neg (Ne.symm huw), if_neg (Ne.symm hvw), if_pos rfl]
        omega

variable [DecidableEq α]

/-- One place is given a new value. -/
theorem tally_update (hl : l.Nodup) (ha : a ∈ l) (v w : β) :
    tally (Function.update f a w) l v + (if f a = v then 1 else 0)
      = tally f l v + if w = v then 1 else 0 := by
  induction l with
  | nil => cases ha
  | cons b l ih =>
      obtain ⟨hb, hl⟩ := List.nodup_cons.mp hl
      have hcons : ∀ h : α → β, tally h (b :: l) v = tally h l v + if h b = v then 1 else 0 := by
        intro h
        simp [tally, List.countP_cons]
      rw [hcons, hcons]
      rcases List.mem_cons.mp ha with rfl | ha
      · have hrest : tally (Function.update f a w) l v = tally f l v :=
          tally_congr (fun c hc => Function.update_of_ne (ne_of_mem_of_not_mem hc hb) _ _) v
        rw [hrest, Function.update_self]
        omega
      · rw [Function.update_of_ne (ne_of_mem_of_not_mem ha hb).symm]
        have ih := ih hl ha
        omega

/-- Places that all hold `u` are given the value `w`, one after the
other. -/
theorem tally_foldl_update (hl : l.Nodup) (v w : β) : ∀ {as : List α} {f : α → β}, as.Nodup →
    (∀ a ∈ as, a ∈ l ∧ f a = u) →
      tally (as.foldl (fun f a => Function.update f a w) f) l v
          + (if u = v then as.length else 0)
        = tally f l v + if w = v then as.length else 0 := by
  intro as
  induction as with
  | nil => simp
  | cons a as ih =>
      intro f has hu
      obtain ⟨hnot, has⟩ := List.nodup_cons.mp has
      obtain ⟨⟨ha, hfa⟩, hu⟩ := List.forall_mem_cons.mp hu
      have hrest := ih (f := Function.update f a w) has (by
        intro b hb
        rw [Function.update_of_ne (ne_of_mem_of_not_mem hb hnot)]
        exact hu b hb)
      have hone := tally_update hl ha v w (f := f)
      rw [hfa] at hone
      rw [List.foldl_cons, List.length_cons]
      split_ifs at hrest hone ⊢ <;> omega

end Tallies
