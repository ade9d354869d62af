/-
Players and cell contents (player.hpp): one enumeration serves as the
side to move, as the content of a board cell and as the verdict on a
game. `invalid` marks cells that are not part of a board and games that
are not over; `vacant` marks empty cells and drawn games.
-/
import MctsConnectFour.Globals

namespace MctsConnectFour

/-- `Player::Type`. -/
inductive Player where
  | invalid
  | agent
  | vacant
  | human
deriving DecidableEq, Repr

namespace Player

instance : Inhabited Player := ⟨.vacant⟩

/-- `as_index`: the underlying value, `-2`, `-1`, `0` or `1`. -/
def asIndex : Player → Int
  | invalid => -2
  | agent => -1
  | vacant => 0
  | human => 1

/-- `opponent`: the negated value. The negation of `invalid` names no
enumerator; the program never asks for it, and the model leaves
`invalid` where it is. -/
def opponent : Player → Player
  | invalid => invalid
  | agent => human
  | vacant => vacant
  | human => agent

/-- `as_01index`: `0` for the agent, `1` for the human; the source
aborts on anything else, which the model marks with `-1`. -/
def as01Index : Player → Int
  | agent => 0
  | human => 1
  | _ => -1

/-- `occupied`: the value is odd. -/
def occupied (p : Player) : Bool := p.asIndex % 2 == 1

/-- `random`: the agent or the human. -/
def random (ω : Rng) : Player × Rng :=
  ((if (bernoulli ω).1 then agent else human), (bernoulli ω).2)

/-- A side of the game, as opposed to a marker. -/
def IsSide (p : Player) : Prop := p = agent ∨ p = human

instance (p : Player) : Decidable p.IsSide := inferInstanceAs (Decidable (_ ∨ _))

@[simp] theorem opponent_opponent (p : Player) : p.opponent.opponent = p := by
  cases p <;> rfl

theorem occupied_iff (p : Player) : p.occupied = true ↔ p.IsSide := by
  cases p <;> decide

theorem IsSide.opponent {p : Player} (h : p.IsSide) : p.opponent.IsSide := by
  rcases h with rfl | rfl
  · exact Or.inr rfl
  · exact Or.inl rfl

theorem IsSide.ne_vacant {p : Player} (h : p.IsSide) : p ≠ vacant := by
  rcases h with rfl | rfl <;> decide

theorem IsSide.ne_invalid {p : Player} (h : p.IsSide) : p ≠ invalid := by
  rcases h with rfl | rfl <;> decide

theorem IsSide.opponent_ne {p : Player} (h : p.IsSide) : p.opponent ≠ p := by
  rcases h with rfl | rfl <;> decide

/-- A side is one of the two, told from the other. -/
theorem IsSide.eq_or_eq_opponent {p q : Player} (hp : p.IsSide) (hq : q.IsSide) :
    q = p ∨ q = p.opponent := by
  rcases hp with rfl | rfl <;> rcases hq with rfl | rfl <;> decide

/-- What is neither a side nor a draw. -/
theorem eq_invalid {p : Player} (hfree : p.occupied = false) (hdraw : p ≠ vacant) :
    p = invalid := by
  cases p with
  | invalid => rfl
  | agent => exact absurd hfree (by decide)
  | vacant => exact absurd rfl hdraw
  | human => exact absurd hfree (by decide)

theorem random_isSide (ω : Rng) : (random ω).1.IsSide := by
  unfold random
  split
  · exact Or.inl rfl
  · exact Or.inr rfl

end Player

end MctsConnectFour
