/-
Who has won a game of Oska.

The rules look at the stones on the board: whoever has all its remaining
stones home has won, the one with more of them if both have, and whoever
has taken all stones of the other. `winner ( )` asks in another order. It
looks at the counters of the mover first; that the other is home it only
finds out in its last question, because stones that are home cannot move.

`Ruled` is the verdict by the rules. Its order of questions is that of the
source, once for a state in which `winner ( )` is called
(`Coherent.ruled`) and then for every state of a game.
-/
import MctsConnectFour.Oska.Stones
import MctsConnectFour.Oska.Verdict

namespace MctsConnectFour.Oska

variable {S : Nat} {T : Statics S} {s t : State S} {p : Player}

/-- The player with more stones on the board, or nobody. -/
def mostStones (s : State S) : Player :=
  if (stonesOn s .human).length < (stonesOn s .agent).length then .agent
  else if (stonesOn s .agent).length < (stonesOn s .human).length then .human
  else .vacant

/-- The verdict is the one of the rules. -/
structure Ruled (s : State S) : Prop where
  /-- one player is home -/
  home : ∀ p : Player, p.IsSide → AllHome s p → ¬ AllHome s p.opponent → s.winner = p
  /-- both are -/
  both : AllHome s .agent → AllHome s .human → s.winner = mostStones s
  /-- a player has no stones left -/
  bare : ∀ p : Player, p.IsSide → stonesOn s p = [] → s.winner = p.opponent
  /-- nothing of this, and the game can go on -/
  unfinished : ¬ AllHome s .agent → ¬ AllHome s .human → stonesOn s .agent ≠ [] →
    stonesOn s .human ≠ [] → CanMove s s.playerToMove → s.winner = .invalid

-- ============================================================ a new game

/-- Nobody has won at the start. -/
theorem Start.ruled (hS : 3 ≤ S) (h : Start s) : Ruled s where
  home p hp hall := absurd hall (h.not_allHome hS hp)
  both hall := absurd hall (h.not_allHome hS (Or.inl rfl))
  bare p hp hnone := by
    obtain ⟨hone, hown, -⟩ := h.corner hS hp
    obtain ⟨cell, -, hc, hr⟩ := hone.exists_cell hS
    have hmem : cell ∈ stonesOn s p := by
      apply (mem_stonesOn hS).mpr
      rw [← hc, ← hr]
      exact ⟨hone, hown⟩
    rw [hnone] at hmem
    cases hmem
  unfinished _ _ _ _ _ := h.winner

-- ============================================================= one verdict

section Judge

variable (hS : 3 ≤ S) (hT : Located T)

include hS hT

/-- A player that is home has all its stones in the counter. -/
theorem AllHome.noHome_eq (hp : p.IsSide) (hv : Viewed T s p) (h : AllHome s p) :
    s.noHome p = (stonesOn s p).length := by
  rw [hv.length_stonesOn hS hT hp]
  exact ((haveRemainingHome_iff_noHome hp).mp ((haveRemainingHome_iff hS hT hp hv).mpr h)).2

/-- With both home, the counters are compared like the stones. -/
theorem Coherent.playerMostHomeStones_eq (h : Coherent T s) (hagent : AllHome s .agent)
    (hhuman : AllHome s .human) : s.playerMostHomeStones = mostStones s := by
  have ha := hagent.noHome_eq hS hT (Or.inl rfl) (h.viewed _ (Or.inl rfl))
  have hh := hhuman.noHome_eq hS hT (Or.inr rfl) (h.viewed _ (Or.inr rfl))
  unfold mostStones
  rw [← ha, ← hh]
  rfl

omit hT in
/-- A player that is home has stones. -/
theorem AllHome.stonesOn_ne_nil (h : AllHome s p) : stonesOn s p ≠ [] := by
  obtain ⟨⟨c, r, hhex, hat⟩, -⟩ := h
  obtain ⟨cell, -, rfl, rfl⟩ := hhex.exists_cell hS
  exact List.ne_nil_of_mem ((mem_stonesOn hS).mpr ⟨hhex, hat⟩)

/-- What `winner ( )` sets, with its questions put to the board. -/
theorem Coherent.setWinner_spec (h : Coherent T t) (hopen : t.winner = .invalid) :
    (t.setWinner T).winner =
      open Classical in
      if AllHome t t.playerToMove then
        if AllHome t t.playerToMove.opponent then t.playerMostHomeStones else t.playerToMove
      else if stonesOn t t.playerToMove.opponent = [] then t.playerToMove
      else if CanMove t t.playerToMove.opponent then .invalid
      else t.playerToMove.opponent := by
  have hp := h.side
  have hv' := h.viewed _ hp.opponent
  have hhome := haveRemainingHome_iff hS hT hp (h.viewed _ hp)
  have hhome' := haveRemainingHome_iff hS hT hp.opponent hv'
  have hbare : t.notHaveStones t.playerToMove.opponent = true
      ↔ stonesOn t t.playerToMove.opponent = [] := by
    rw [notHaveStones_eq t hp.opponent, List.isEmpty_iff,
      hv'.stonesOn_eq_nil_iff hS hT hp.opponent]
  have hmoves := hasMoves_iff_canMove hS hT hp.opponent hv'
  unfold State.setWinner
  by_cases hwon : AllHome t t.playerToMove
  · rw [if_pos (hhome.mpr hwon), if_pos hwon]
    by_cases hboth : AllHome t t.playerToMove.opponent
    · rw [if_pos (hhome'.mpr hboth), if_pos hboth]
    · rw [if_neg (mt hhome'.mp hboth), if_neg hboth]
  · rw [if_neg (mt hhome.mp hwon), if_neg hwon]
    by_cases hnone : stonesOn t t.playerToMove.opponent = []
    · rw [if_pos (hbare.mpr hnone), if_pos hnone]
    · rw [if_neg (mt hbare.mp hnone), if_neg hnone]
      by_cases hcan : CanMove t t.playerToMove.opponent
      · rw [if_neg (by simp [hmoves.mpr hcan]), if_pos hcan]
        exact hopen
      · rw [if_pos (by simp [mt hmoves.mp hcan]), if_neg hcan]

/-- `winner ( )`, called on a game without a verdict, finds the one of the
rules. The mover has a stone, the one that has moved. -/
theorem Coherent.ruled (h : Coherent T t) (hopen : t.winner = .invalid)
    (hstone : t.stoneId t.playerToMove ≠ []) : Ruled ((t.setWinner T).next) := by
  have hp := h.side
  have hspec := h.setWinner_spec hS hT hopen
  have hjudged := h.judged hS hT hopen
  have hstones : ∀ q : Player, stonesOn ((t.setWinner T).next) q = stonesOn t q := fun q =>
    stonesOn_congr (board_setWinner_next q)
  have hmost : mostStones ((t.setWinner T).next) = mostStones t := by
    unfold mostStones
    rw [hstones, hstones]
  constructor
  case home =>
    intro q hq hall hother
    rw [allHome_setWinner_next] at hall hother
    rw [winner_setWinner_next, hspec]
    rcases hp.eq_or_eq_opponent hq with rfl | rfl
    · rw [if_pos hall, if_neg hother]
    · -- the mover is not home, and stones that are home cannot move
      rw [Player.opponent_opponent] at hother
      rw [if_neg hother, if_neg (hall.stonesOn_ne_nil hS),
        if_neg (hall.not_canMove hS hp.opponent (h.viewed _ hp.opponent))]
  case both =>
    intro hagent hhuman
    rw [allHome_setWinner_next] at hagent hhuman
    have hall : ∀ q : Player, q.IsSide → AllHome t q := by
      intro q hq
      rcases hq with rfl | rfl
      · exact hagent
      · exact hhuman
    rw [winner_setWinner_next, hspec, if_pos (hall _ hp), if_pos (hall _ hp.opponent), hmost]
    exact h.playerMostHomeStones_eq hS hT hagent hhuman
  case bare =>
    intro q hq hnone
    rw [hstones] at hnone
    rw [winner_setWinner_next, hspec]
    rcases hp.eq_or_eq_opponent hq with rfl | rfl
    · exact absurd (((h.viewed _ hp).stonesOn_eq_nil_iff hS hT hp).mp hnone) hstone
    · rw [Player.opponent_opponent]
      by_cases hwon : AllHome t t.playerToMove
      · have hnot : ¬ AllHome t t.playerToMove.opponent := fun hall =>
          hall.stonesOn_ne_nil hS hnone
        rw [if_pos hwon, if_neg hnot]
      · rw [if_neg hwon, if_pos hnone]
  case unfinished =>
    intro hagent hhuman _ _ hcan
    by_contra hover
    rcases hjudged.verdict.mp hover with hall | hcannot
    · rw [playerToMove_setWinner_next, Player.opponent_opponent] at hall
      rcases hp with hp | hp
      · rw [hp] at hall
        exact hagent hall
      · rw [hp] at hall
        exact hhuman hall
    · exact hcannot hcan

end Judge

-- ================================================================== games

/-- In every state of a game played by `move_winner ( )` and
`move_hash_winner ( )`, and so in the one in which it ends, the verdict is
the one of the rules. -/
theorem winner_ruled (hS : 3 ≤ S) {s₀ : State S} (hinit : Initialised T s₀)
    (hrun : (game T).Run (fun op => op = .moveWinner ∨ op = .moveHashWinner) s₀ s) : Ruled s := by
  obtain ⟨-, hT, hstart⟩ := hinit.start hS
  refine (hrun.invariant (I := fun s => (Coherent T s ∧ Judged s) ∧ Ruled s)
    ⟨⟨hstart.coherent hS hT, hstart.judged hS⟩, hstart.ruled hS⟩ ?_).2
  intro s op m h hop hm
  obtain ⟨⟨hc, hj⟩, -⟩ := h
  have hwinner : op ≠ .moveHash := by
    rcases hop with rfl | rfl
    · exact nofun
    · exact nofun
  obtain ⟨t, heq, ht, hopen, hstone⟩ := hj.made hS hT hc hwinner hm
  refine ⟨⟨hc.apply hS hT op hm, ?_⟩, ?_⟩
  · rw [heq]
    exact ht.judged hS hT hopen
  · rw [heq]
    exact ht.ruled hS hT hopen hstone

/-- After a first move on the smallest board. -/
theorem winner_ruled_three :
    Ruled (moveWinner smallSetup.statics smallSetup.state ⟨⟨1, 1⟩, ⟨2, 2⟩⟩) :=
  winner_ruled (by decide) (.once (Or.inl rfl) initializeState_small)
    (.move .moveWinner .start (Or.inl rfl) (by decide +kernel :
      (⟨⟨1, 1⟩, ⟨2, 2⟩⟩ : Move) ∈ (game smallSetup.statics).legal smallSetup.state))

end MctsConnectFour.Oska
