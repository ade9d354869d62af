/-
Every game of Oska is finite.

A state has no counter of the moves made. What bounds a game is the rows
its stones still have to go (Oska/Stones.lean): every listed move takes
some away, and a full board of stones has `2 * S * ( 2 * S - 4 )` of them.
So the loop of `simulate ( )` ends; it ends when `moves ( )` returns false,
which is the end of the game if winner and moves have kept step.
-/
import MctsConnectFour.Oska.Laws

namespace MctsConnectFour.Oska

variable {S : Nat} {T : Statics S} {s₀ s : State S}

/-- A playout of a state that has a verdict where it needs one ends with a
verdict. -/
theorem simulate_ended (hS : 3 ≤ S) (hinit : Initialised T s₀)
    (hrun : (game T).Run (· ≠ .moveHash) s₀ s) {fuel : Nat} {ω ω' : Rng} {t : State S}
    (ht : (game T).simulate fuel s ω = some (t, ω')) : t.ended ≠ none := by
  obtain ⟨-, hT, hstart⟩ := hinit.start hS
  obtain ⟨hsteps, hdone⟩ :=
    (lawful hS hinit).simulate_run (hrun.mono fun _ _ => trivial) ht
  obtain ⟨h, hj⟩ := judged_run hS hT (hstart.coherent hS hT) (hstart.judged hS)
    (hrun.trans (hsteps.mono fun op hop => by rw [hop]; exact nofun))
  exact ended_ne_none_iff.mpr ((hj.moves_iff hS hT h .new).mp (hdone .new))

/-- Every listed move, made in any way, lowers the rows to go, so no line
from the start is longer than they are at most; a playout ends within
them, and with the game if the winner has followed every move. -/
theorem games_finite (hS : 3 ≤ S) (hinit : Initialised T s₀) :
    (∀ {s}, (game T).Mixed s₀ s → ∀ (op : Game.MoveOp) (m : Move), m ∈ (game T).legal s →
        remaining ((game T).apply op s m) < remaining s)
      ∧ (∀ line, (game T).ListedLine s₀ line → line.length ≤ 2 * S * (2 * S - 4))
      ∧ (∀ {s}, (game T).Mixed s₀ s → ∀ fuel, remaining s ≤ fuel → ∀ ω,
          ∃ r, (game T).simulate fuel s ω = some r)
      ∧ ∀ {s}, (game T).Run (fun op => op = .moveWinner ∨ op = .moveHashWinner) s₀ s →
          ∀ (fuel : Nat) (ω ω' : Rng) (t : State S),
            (game T).simulate fuel s ω = some (t, ω') → t.ended ≠ none := by
  obtain ⟨-, hT, hstart⟩ := hinit.start hS
  have h₀ := hstart.coherent hS hT
  have hfall : ∀ {s : State S} {m : Move}, (game T).Mixed s₀ s → ∀ op : Game.MoveOp,
      m ∈ (game T).legal s → remaining ((game T).apply op s m) < remaining s :=
    fun hs op hm => (coherent_run hS hT h₀ hs).remaining_apply hS hT op hm
  refine ⟨fun hs op m hm => hfall hs op hm, ?_, ?_, ?_⟩
  · intro line hline
    have hle := Game.length_line_le hfall .start hline
    have hmax := h₀.remaining_le hS hT
    omega
  · intro s hs fuel hfuel ω
    exact (lawful hS hinit).simulate_bound (fun ht hm => hfall ht .moveWinner hm) hs hfuel ω
  · intro s hrun fuel ω ω' t ht
    exact simulate_ended hS hinit hrun.winner_follows ht

/-- On the smallest board no game has more than twelve moves. -/
theorem games_finite_three :
    let G := game smallSetup.statics
    (∀ {s}, G.Mixed smallSetup.state s → ∀ (op : Game.MoveOp) (m : Move), m ∈ G.legal s →
        remaining (G.apply op s m) < remaining s)
      ∧ (∀ line, G.ListedLine smallSetup.state line → line.length ≤ 2 * 3 * (2 * 3 - 4))
      ∧ (∀ {s}, G.Mixed smallSetup.state s → ∀ fuel, remaining s ≤ fuel → ∀ ω,
          ∃ r, G.simulate fuel s ω = some r)
      ∧ ∀ {s}, G.Run (fun op => op = .moveWinner ∨ op = .moveHashWinner) smallSetup.state s →
          ∀ (fuel : Nat) (ω ω' : Rng) (t : State 3),
            G.simulate fuel s ω = some (t, ω') → t.ended ≠ none :=
  games_finite (by decide) (.once (Or.inl rfl) initializeState_small)

end MctsConnectFour.Oska
