/-
Playouts of Connect Four.

The guard of the loop of `simulate ( )` asks the counter and the winner,
the list it fills is read off the top row, and the loop body neither looks
at the size of the list nor at the winner. That they agree is a matter of
the invariants: a column with a vacant top is one that is not full
(`Settled.columnFull_iff`), and the winner follows every move
(`Verdict.moves_iff`). The counter rises with every move, which bounds
the loop.
-/
import MctsConnectFour.ConnectFour.Laws

namespace MctsConnectFour.ConnectFour

open MaMatrix (InRange)

variable {NumRows NumCols : Nat} {Z : ZobristTables NumRows NumCols} {s : State NumRows NumCols}

-- ============================================================== columns

/-- Every cell of a column holds a stone. -/
def ColumnFull (b : Board NumRows NumCols) (col : Nat) : Prop :=
  ∀ row, row < NumRows → (b.at' (row : Nat) col).occupied = true

instance (b : Board NumRows NumCols) (col : Nat) : Decidable (ColumnFull b col) :=
  inferInstanceAs (Decidable (∀ row, row < NumRows → _))

/-- A column is full when its top cell is. -/
theorem Settled.columnFull_iff (h : Settled s) (hrows : 1 ≤ NumRows) {col : Nat}
    (hcol : col < NumCols) : ColumnFull s.board col ↔ s.board.at' 0 col ≠ .vacant := by
  have htop : InRange NumRows NumCols 0 col := ⟨by omega, by omega, by omega, by omega⟩
  constructor
  · intro hfull
    exact (h.occupied_iff htop).mp (hfull 0 hrows)
  · intro hocc row hrow
    have hr : InRange NumRows NumCols row col := ⟨by omega, by omega, by omega, by omega⟩
    rw [h.occupied_iff hr]
    intro hvac
    rcases Nat.eq_zero_or_pos row with rfl | hpos
    · exact hocc hvac
    · exact hocc (h.vacant_above hr hvac 0 le_rfl (by omega))

/-- The columns that are not full, from the left. -/
def openColumns (b : Board NumRows NumCols) : List Nat :=
  (List.range NumCols).filter fun col => ¬ ColumnFull b col

/-- They are the columns `moves ( )` looks for. -/
theorem Settled.openColumns_eq (h : Settled s) (hrows : 1 ≤ NumRows) :
    openColumns s.board
      = (List.range NumCols).filter fun col : Nat => s.board.at' 0 col = .vacant := by
  apply List.filter_congr
  intro col hcol
  rw [decide_eq_decide, h.columnFull_iff hrows (List.mem_range.mp hcol), not_not]

-- ======================================================= the list of moves

/-- `moves ( )` leaves the container empty when it returns false. -/
theorem moves_toList_of_false {c : Moves Move NumCols} (hdone : (s.moves c).1 = false) :
    (s.moves c).2.toList = [] := by
  unfold State.moves at hdone ⊢
  split
  · exact Moves.toList_clear c
  · next hopen =>
      rw [if_neg hopen] at hdone
      cases hdone

/-- The columns of the listed moves ascend. -/
theorem openColumns_ascend (hnarrow : NumCols ≤ 128) (b : Board NumRows NumCols) :
    ((openColumns b).map fun col : Nat => Move.ofIndex col).Pairwise
      fun m m' => m.loc < m'.loc := by
  rw [List.pairwise_map]
  refine List.Pairwise.imp_of_mem ?_ (List.pairwise_lt_range.filter _)
  intro col col' hcol hcol' hlt
  rw [ofIndex_loc hnarrow (List.mem_range.mp (List.mem_filter.mp hcol).1),
    ofIndex_loc hnarrow (List.mem_range.mp (List.mem_filter.mp hcol').1)]
  exact_mod_cast hlt

/-- With the winner up to date, `moves ( )` returns false exactly when the
game has ended. -/
theorem Verdict.moves_iff (hv : Verdict s) (h : BoardInv s) (c : Moves Move NumCols) :
    (s.moves c).1 = false ↔ s.ended ≠ none := by
  rw [← Bool.not_eq_true, (moves_spec s c).1, ← not_iff_not, not_not, Ne, not_not,
    ended_eq_none_iff]
  constructor
  · intro hmore
    exact hmore.2
  · intro hopen
    exact ⟨mt h.full_iff.mpr (hv.unfinished.mp hopen).1, hopen⟩

-- ============================================================== the loop

/-- Every listed move counts. -/
theorem BoardInv.noMoves_apply (hrows : 1 ≤ NumRows) (hnarrow : NumCols ≤ 128)
    (hcells : NumRows * NumCols ≤ 255) (h : BoardInv s) (op : Game.MoveOp) {m : Move}
    (hm : m ∈ (game Z).legal s) : ((game Z).apply op s m).noMoves = s.noMoves + 1 := by
  obtain ⟨row, col, hd⟩ := drops_of_legal hrows hnarrow h.settled hm
  rw [(apply_fields op s m).2.1, hd.noMoves h hcells]

theorem BoardInv.noMoves_le (h : BoardInv s) : s.noMoves ≤ NumRows * NumCols := by
  rw [h.count]
  exact MaMatrix.count_le Player.occupied s.board

/-- A game that has ended has a verdict, worth to one player what it
costs the other. -/
theorem winner_of_ended (hended : s.ended ≠ none) :
    s.winner ∈ [.agent, .human, Player.vacant]
      ∧ ∀ q : Player, q.IsSide → s.result q = -s.result q.opponent := by
  have hopen := mt ended_eq_none_iff.mpr hended
  constructor
  · revert hopen
    cases s.winner <;> decide
  · intro q hq
    unfold State.result
    revert hopen
    rcases hq with rfl | rfl
    · cases s.winner <;> decide
    · cases s.winner <;> decide

/-- In a game in which the winner follows every move, `moves ( )` lists
the columns that are not full, in ascending order, until the game has
ended, and a playout ends by then, never drawing from an empty list, with
a result that is opposite for the two players. -/
theorem playouts_end (hrows : 1 ≤ NumRows) (hcols : 1 ≤ NumCols)
    (hcells : NumRows * NumCols ≤ 255) (hnarrow : NumCols ≤ 127) {p : Player} (hp : p.IsSide)
    (hrun : (game Z).Run (fun op => op = .moveWinner ∨ op = .moveHashWinner) (new Z p) s) :
    (∀ c, s.ended = none → (s.moves c).1 = true
        ∧ (s.moves c).2.toList = (openColumns s.board).map (fun col : Nat => Move.ofIndex col)
        ∧ (s.moves c).2.toList.Pairwise (fun m m' => m.loc < m'.loc)
        ∧ (s.moves c).2.size ≤ NumCols)
      ∧ (∀ c, (s.moves c).1 = false ∧ (s.moves c).2.toList = [] ↔ s.ended ≠ none)
      ∧ (∀ fuel, NumRows * NumCols - s.noMoves ≤ fuel → ∀ ω,
          ∃ r, (game Z).simulate fuel s ω = some r)
      ∧ (∀ ω c, Game.DrawsFrom (G := game Z) s ω c → c.toList ≠ [])
      ∧ ∀ (fuel : Nat) (ω ω' : Rng) (t : State NumRows NumCols),
          (game Z).simulate fuel s ω = some (t, ω') →
            t.winner ∈ [.agent, .human, Player.vacant]
              ∧ ∀ q : Player, q.IsSide → t.result q = -t.result q.opponent := by
  have hG := lawful (Z := Z) hrows hcols hcells hnarrow hp
  have hmixed : (game Z).Mixed (new Z p) s := hrun.mono fun _ _ => trivial
  have hjudged : (game Z).Run (· ≠ .moveHash) (new Z p) s := hrun.winner_follows
  obtain ⟨h, hv⟩ := verdict_run hrows hcols hcells (by omega) hp hjudged
  refine ⟨?_, ?_, ?_, fun ω c hc => hG.drawsFrom_ne_nil hmixed hc, ?_⟩
  · intro c hopen
    have hmore : (s.moves c).1 = true := by
      rw [← Bool.not_eq_false, hv.moves_iff h c]
      exact not_not_intro hopen
    obtain ⟨-, hlist, hsize⟩ := moves_spec s c
    have hcolumns : (s.moves c).2.toList
        = (openColumns s.board).map fun col : Nat => Move.ofIndex col := by
      rw [hlist hmore, h.settled.openColumns_eq hrows]
    refine ⟨hmore, hcolumns, ?_, hsize⟩
    rw [hcolumns]
    exact openColumns_ascend (by omega) s.board
  · intro c
    rw [← hv.moves_iff h c]
    constructor
    · intro hdone
      exact hdone.1
    · intro hdone
      exact ⟨hdone, moves_toList_of_false hdone⟩
  · intro fuel hfuel ω
    refine hG.simulate_bound (μ := fun s => NumRows * NumCols - s.noMoves) ?_ hmixed hfuel ω
    intro s m hs hm
    have hs := boardInv_run hrows (by omega) hcells (boardInv_new Z hp) hs
    have hcount := hs.noMoves_apply hrows (by omega) hcells .moveWinner hm
    have hle := (hs.apply hrows (by omega) hcells .moveWinner hm).noMoves_le
    show NumRows * NumCols - ((game Z).apply .moveWinner s m).noMoves
      < NumRows * NumCols - s.noMoves
    omega
  · intro fuel ω ω' t ht
    obtain ⟨hsteps, hdone⟩ := hG.simulate_run hmixed ht
    obtain ⟨h', hv'⟩ := verdict_run hrows hcols hcells (by omega) hp
      (hjudged.trans (hsteps.mono fun op hop => by rw [hop]; exact nofun))
    exact winner_of_ended ((hv'.moves_iff h' .new).mp (hdone .new))

/-- After a first move on the default board. -/
theorem playouts_end_six_seven :
    let Z := sourceKeys 6 7
    let s := moveWinner (new Z .agent) (Move.ofIndex 3)
    (∀ c, s.ended = none → (s.moves c).1 = true
        ∧ (s.moves c).2.toList = (openColumns s.board).map (fun col : Nat => Move.ofIndex col)
        ∧ (s.moves c).2.toList.Pairwise (fun m m' => m.loc < m'.loc)
        ∧ (s.moves c).2.size ≤ 7)
      ∧ (∀ c, (s.moves c).1 = false ∧ (s.moves c).2.toList = [] ↔ s.ended ≠ none)
      ∧ (∀ fuel, 6 * 7 - s.noMoves ≤ fuel → ∀ ω, ∃ r, (game Z).simulate fuel s ω = some r)
      ∧ (∀ ω c, Game.DrawsFrom (G := game Z) s ω c → c.toList ≠ [])
      ∧ ∀ (fuel : Nat) (ω ω' : Rng) (t : State 6 7),
          (game Z).simulate fuel s ω = some (t, ω') →
            t.winner ∈ [.agent, .human, Player.vacant]
              ∧ ∀ q : Player, q.IsSide → t.result q = -t.result q.opponent :=
  playouts_end (by decide) (by decide) (by decide) (by decide) (Or.inl rfl)
    (.move .moveWinner .start (Or.inl rfl) (by decide +kernel :
      Move.ofIndex 3 ∈ (game (sourceKeys 6 7)).legal (new (sourceKeys 6 7) .agent)))

end MctsConnectFour.ConnectFour
