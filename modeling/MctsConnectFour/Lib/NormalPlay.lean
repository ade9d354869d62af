/-
Games of two players who move in turn, where the player who moves last
wins.

`IsKernel` is a solution of such a game: the lost positions, from which
every move leads to one that is not lost, while from every other there is
a move to a lost one. A player who is not in a lost position and always
makes such a move is never in one, so it is the opponent who is without a
move in the end (`Play.lost_iff`). Nothing is assumed about the positions,
nor that games end.
-/
import Mathlib.Tactic.Common

namespace NormalPlay

variable {σ : Type*} {move : σ → σ → Prop} {lost : σ → Prop}

/-- `lost` are the positions from which the player to move loses. -/
structure IsKernel (move : σ → σ → Prop) (lost : σ → Prop) : Prop where
  leaves : ∀ {s s'}, lost s → move s s' → ¬ lost s'
  enters : ∀ {s}, ¬ lost s → ∃ s', move s s' ∧ lost s'

/-- The positions of a play, and whether it is our turn in them. Our moves
are `reply`, the opponent makes any. -/
inductive Play (move reply : σ → σ → Prop) (start : Bool × σ) : Bool × σ → Prop
  | start : Play move reply start start
  | ours {s s' : σ} : Play move reply start (true, s) → reply s s' →
      Play move reply start (false, s')
  | theirs {s s' : σ} : Play move reply start (false, s) → move s s' →
      Play move reply start (true, s')

/-- When the reply leads into the kernel we are never in it on our turn,
and the opponent always is. -/
theorem Play.lost_iff (h : IsKernel move lost) {reply : σ → σ → Prop}
    (hreply : ∀ {s s'}, ¬ lost s → reply s s' → lost s') {start x : Bool × σ}
    (hstart : lost start.2 ↔ start.1 = false) (hplay : Play move reply start x) :
    lost x.2 ↔ x.1 = false := by
  induction hplay with
  | start => exact hstart
  | ours _ hmove ih =>
      have hs : ¬ lost _ := fun hlost => by cases ih.mp hlost
      exact iff_of_true (hreply hs hmove) rfl
  | theirs _ hmove ih => exact iff_of_false (h.leaves (ih.mpr rfl) hmove) (by simp)

end NormalPlay
