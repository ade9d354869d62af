/-
Starting a second game on a Connect Four state.

`initialize ( )` resets hash, counter, players, verdict and last move, but
not the board. A state on which stones have been played is left with all
of them and a counter and a hash that deny it. Only a state that is still
as it was constructed becomes a new one (`newGame_iff`).

The one thing a template without rows would lack are moves to list; a
template without columns has none to list.
-/
import MctsConnectFour.ConnectFour.Hash
import MctsConnectFour.Laws

namespace MctsConnectFour.ConnectFour

open MaMatrix (InRange)

variable {NumRows NumCols : Nat} {Z : ZobristTables NumRows NumCols}
  {s : State NumRows NumCols}

-- ============================================================== statements

/-- There is no stone on the board. -/
def Vacant (b : Board NumRows NumCols) : Prop :=
  ∀ i j, InRange NumRows NumCols i j → b.at' i j = .vacant

/-- A state from which a game can be started. -/
structure NewGame (Z : ZobristTables NumRows NumCols) (s : State NumRows NumCols) : Prop where
  vacant : Vacant s.board
  settled : Settled s
  /-- the counter counts the stones, and there are none -/
  counter : s.noMoves = 0 ∧ s.board.count Player.occupied = s.noMoves
  /-- the hash is that of the board, and of the empty one -/
  hash : s.zobristHash = Z.playerKey .vacant
    ∧ s.zobristHash = Z.playerKey .vacant ^^^ stoneKeys Z s.board
  winner : s.winner = .invalid
  moves : (game Z).legal s = (List.range NumCols).map fun col : Nat => Move.ofIndex col

-- ============================================================ a new state

theorem Vacant.eq_fill {b : Board NumRows NumCols} (h : Vacant b) : b = .fill .vacant := by
  apply MaMatrix.ext_at'
  intro i j hr
  rw [h i j hr, MaMatrix.at'_fill _ hr]

theorem vacant_new (p : Player) : Vacant (new Z p).board := fun _ _ hr => MaMatrix.at'_fill _ hr

/-- Nothing is listed when the counter says the board is full. -/
theorem legal_of_full (h : NumRows * NumCols = s.noMoves) : (game Z).legal s = [] := by
  by_contra hne
  obtain ⟨m, hm⟩ := List.exists_mem_of_ne_nil _ hne
  exact ((mem_legal_iff Z s m).mp hm).1 h

/-- A new state lists every column. -/
theorem legal_new (hrows : NumRows = 0 → NumCols = 0) (p : Player) :
    (game Z).legal (new Z p) = (List.range NumCols).map fun col : Nat => Move.ofIndex col := by
  rcases Nat.eq_zero_or_pos NumCols with hnone | hcols
  · subst hnone
    exact legal_of_full (Nat.mul_zero _)
  · obtain ⟨hret, hlist, -⟩ := moves_spec (new Z p) .new
    have hpos : 0 < NumRows * NumCols := by
      refine Nat.mul_pos (Nat.pos_of_ne_zero fun hnone => ?_) hcols
      exact hcols.ne' (hrows hnone)
    have hmore : ((new Z p).moves .new).1 = true := hret.mpr ⟨hpos.ne', rfl⟩
    unfold Game.legal
    rw [if_pos hmore, hlist hmore, List.filter_eq_self.mpr]
    intro col hcol
    rw [List.mem_range] at hcol
    rcases Nat.eq_zero_or_pos NumRows with hnone | hpos
    · exact absurd (hrows hnone) hcols.ne'
    · exact decide_eq_true (vacant_new p 0 col ⟨le_rfl, by omega, by omega, by omega⟩)

theorem newGame_new (hrows : NumRows = 0 → NumCols = 0) {p : Player} (hp : p.IsSide) :
    NewGame Z (new Z p) where
  vacant := vacant_new p
  settled := settled_new Z hp
  counter := ⟨rfl, MaMatrix.count_fill (by decide)⟩
  hash := by
    refine ⟨rfl, ?_⟩
    show Z.playerKey .vacant = Z.playerKey .vacant ^^^ stoneKeys Z (.fill .vacant)
    rw [stoneKeys_fill, UInt64.xor_zero]
  winner := rfl
  moves := legal_new hrows p

-- ============================================================ initialize

/-- On an empty board `initialize ( )` does what the constructor does. -/
theorem initializeState_of_vacant (h : Vacant s.board) (p : Player) :
    initializeState Z s p = new Z p := by
  unfold initializeState new
  rw [h.eq_fill]

/-- On any other it does not make a new game. -/
theorem newGame_initializeState_iff {p : Player} (hp : p.IsSide) :
    NewGame Z (initializeState Z s p) ↔ Vacant s.board ∧ (NumRows = 0 → NumCols = 0) := by
  constructor
  · intro h
    refine ⟨h.vacant, fun hnone => ?_⟩
    subst hnone
    have hempty : (game Z).legal (initializeState Z s p) = [] := legal_of_full (Nat.zero_mul _)
    have hlen := congrArg List.length h.moves
    rw [hempty, List.length_map, List.length_range] at hlen
    exact hlen.symm
  · intro h
    obtain ⟨hvacant, hrows⟩ := h
    rw [initializeState_of_vacant hvacant]
    exact newGame_new hrows hp

-- ================================================================== runs

/-- A state in play is new, or has a stone. -/
theorem new_or_stone (hcols : NumCols ≤ 128) {p : Player} (hp : p.IsSide)
    (hrun : (game Z).Mixed (new Z p) s) :
    Settled s ∧ (s = new Z p
      ∨ ∃ i j, InRange NumRows NumCols i j ∧ (s.board.at' i j).occupied = true) := by
  refine hrun.invariant (I := fun s : State NumRows NumCols => Settled s ∧ (s = new Z p
    ∨ ∃ i j, InRange NumRows NumCols i j ∧ (s.board.at' i j).occupied = true))
    ⟨settled_new Z hp, Or.inl rfl⟩ ?_
  intro s op m hI _ hm
  obtain ⟨h, hstone⟩ := hI
  have hrows : 1 ≤ NumRows := by
    by_contra hnone
    obtain rfl : NumRows = 0 := by omega
    rcases hstone with rfl | ⟨i, j, hr, -⟩
    · exact ((mem_legal_iff Z _ m).mp hm).1 (Nat.zero_mul _)
    · have hlo := hr.1
      have hhi := hr.2.1
      omega
  obtain ⟨row, col, hd⟩ := drops_of_legal hrows hcols h hm
  refine ⟨h.apply hrows hcols op hm, Or.inr ⟨row, col, hd.inRange, ?_⟩⟩
  rw [(apply_fields op s m).1, hd.at' hd.inRange, if_pos ⟨rfl, rfl⟩]
  exact (Player.occupied_iff _).mpr h.side.opponent

/-- For any state reached by a game, `initialize ( )` starts a new one
exactly when the board is still empty, and then makes the state a new
one; and the board is empty exactly when no move has been made, as long as
columns fit a move. -/
theorem newGame_iff {p q : Player} (hp : p.IsSide) (hq : q.IsSide)
    (hrun : (game Z).Mixed (new Z p) s) :
    (NewGame Z (initializeState Z s q) ↔ Vacant s.board ∧ (NumRows = 0 → NumCols = 0))
      ∧ (Vacant s.board → initializeState Z s q = new Z q)
      ∧ (NumCols ≤ 128 → (Vacant s.board ↔ s = new Z p)) := by
  refine ⟨newGame_initializeState_iff hq, fun h => initializeState_of_vacant h q, fun hcols => ?_⟩
  constructor
  · intro hvacant
    rcases (new_or_stone hcols hp hrun).2 with hnew | ⟨i, j, hr, hocc⟩
    · exact hnew
    · rw [hvacant i j hr] at hocc
      cases hocc
  · intro hnew
    rw [hnew]
    exact vacant_new p

/-- A column dropped on the default board. -/
def oneStone : State 6 7 :=
  moveHashWinner (sourceKeys 6 7) (new (sourceKeys 6 7) .agent) (Move.ofIndex 3)

theorem mixed_oneStone :
    (game (sourceKeys 6 7)).Mixed (new (sourceKeys 6 7) .agent) oneStone :=
  .move .moveHashWinner .start trivial (by decide +kernel :
    Move.ofIndex 3 ∈ (game (sourceKeys 6 7)).legal (new (sourceKeys 6 7) .agent))

theorem newGame_iff_oneStone :
    let Z := sourceKeys 6 7
    (NewGame Z (initializeState Z oneStone .agent) ↔ Vacant oneStone.board ∧ (6 = 0 → 7 = 0))
      ∧ (Vacant oneStone.board → initializeState Z oneStone .agent = new Z .agent)
      ∧ (7 ≤ 128 → (Vacant oneStone.board ↔ oneStone = new Z .agent)) :=
  newGame_iff (Or.inl rfl) (Or.inl rfl) mixed_oneStone

/-- After one move the stone stays. -/
theorem oneStone_not_newGame :
    ¬ ∀ s : State 6 7, (game (sourceKeys 6 7)).Mixed (new (sourceKeys 6 7) .agent) s →
      NewGame (sourceKeys 6 7) (initializeState (sourceKeys 6 7) s .agent) := by
  intro hall
  have hcell := (hall _ mixed_oneStone).vacant 5 3 (by decide)
  have hstone : (initializeState (sourceKeys 6 7) oneStone .agent).board.at' 5 3 = .human := by
    decide +kernel
  rw [hstone] at hcell
  cases hcell

end MctsConnectFour.ConnectFour
