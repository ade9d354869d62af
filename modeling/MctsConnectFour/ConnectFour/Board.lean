/-
The board invariant of Connect Four and what a listed move does to a
state that has it.

`move ( )` looks for its cell without a bound and `moves ( )` looks at
the top row only; the two fit together because stones never float
(`BoardInv.gravity`). The spec of the search is `landingRow_spec`, the
spec of the whole step `makeMove_spec`: one vacant cell of the column,
the lowest, turns into a stone of the player whose turn it is. Every
later fact about a move is drawn from these two.
-/
import MctsConnectFour.ConnectFour.Basic

namespace MctsConnectFour.ConnectFour

open MaMatrix (InRange)

variable {NumRows NumCols : Nat}

-- ======================================================= the invariant

/-- What needs no counter: cells hold stones or nothing, nothing is
vacant below a stone, and the player who just moved is a side. -/
structure Settled (s : State NumRows NumCols) : Prop where
  cell : ∀ i j, InRange NumRows NumCols i j → s.board.at' i j ≠ .invalid
  gravity : ∀ i j, InRange NumRows NumCols i j → InRange NumRows NumCols (i + 1) j →
    s.board.at' (i + 1) j = .vacant → s.board.at' i j = .vacant
  side : s.playerJustMoved.IsSide

/-- The invariant of a state in play: cells hold stones or nothing,
nothing is vacant below a stone, the counter counts the stones, and the
player who just moved is a side. -/
structure BoardInv (s : State NumRows NumCols) : Prop where
  cell : ∀ i j, InRange NumRows NumCols i j → s.board.at' i j ≠ .invalid
  gravity : ∀ i j, InRange NumRows NumCols i j → InRange NumRows NumCols (i + 1) j →
    s.board.at' (i + 1) j = .vacant → s.board.at' i j = .vacant
  count : s.noMoves = s.board.count Player.occupied
  side : s.playerJustMoved.IsSide

theorem BoardInv.settled {s : State NumRows NumCols} (h : BoardInv s) : Settled s :=
  ⟨h.cell, h.gravity, h.side⟩

/-- A cell that is not vacant holds a stone. -/
theorem Settled.occupied_iff {s : State NumRows NumCols} (h : Settled s) {i j : Int}
    (hr : InRange NumRows NumCols i j) :
    (s.board.at' i j).occupied = true ↔ s.board.at' i j ≠ .vacant := by
  have hcell := h.cell i j hr
  revert hcell
  cases s.board.at' i j <;> decide

/-- A new state has no stones. -/
theorem settled_new (Z : ZobristTables NumRows NumCols) {p : Player} (hp : p.IsSide) :
    Settled (new Z p) where
  cell i j hr := by
    rw [show (new Z p).board = .fill .vacant from rfl, MaMatrix.at'_fill _ hr]
    decide
  gravity i j hr _ _ := by
    rw [show (new Z p).board = .fill .vacant from rfl, MaMatrix.at'_fill _ hr]
  side := hp

/-- A new state satisfies the invariant. -/
theorem boardInv_new (Z : ZobristTables NumRows NumCols) {p : Player} (hp : p.IsSide) :
    BoardInv (new Z p) where
  cell := (settled_new Z hp).cell
  gravity := (settled_new Z hp).gravity
  count := (MaMatrix.count_fill (by decide)).symm
  side := hp

-- ======================================================= listed moves

/-- A column that fits the template survives the narrowing to eight
bits. -/
theorem ofIndex_loc (hcols : NumCols ≤ 128) {col : Nat} (hcol : col < NumCols) :
    (Move.ofIndex col).loc = col := by
  simp only [Move.ofIndex]
  rw [Int.bmod_def]
  split <;> omega

/-- `moves ( )` as a filter of the columns, and its return value. -/
theorem moves_spec (s : State NumRows NumCols) (m : Moves Move NumCols) :
    ((s.moves m).1 = true ↔ NumRows * NumCols ≠ s.noMoves ∧ s.winner = .invalid)
      ∧ ((s.moves m).1 = true → (s.moves m).2.toList
          = ((List.range NumCols).filter fun col : Nat =>
              s.board.at' 0 col = .vacant).map fun col : Nat => Move.ofIndex col)
      ∧ (s.moves m).2.size ≤ NumCols := by
  have hlen : ((List.range NumCols).filter fun col : Nat =>
      s.board.at' 0 col = .vacant).length ≤ NumCols :=
    (List.length_filter_le _ _).trans_eq List.length_range
  unfold State.moves
  by_cases hover : NumRows * NumCols = s.noMoves ∨ s.winner ≠ .invalid
  · rw [if_pos hover]
    simp only [Bool.false_eq_true, false_iff, not_and_or, not_not, IsEmpty.forall_iff,
      Moves.size_clear, Nat.zero_le, and_true]
    exact hover
  · rw [if_neg hover]
    have hfold : ((List.range NumCols).filter fun col : Nat => s.board.at' 0 col = .vacant).foldl
          (fun m (col : Nat) => m.pushBack (Move.ofIndex col)) m.clear
        = (List.range NumCols).foldl (fun m (col : Nat) =>
            if s.board.at' 0 col = .vacant then m.pushBack (Move.ofIndex col) else m) m.clear := by
      rw [List.foldl_filter]
      simp only [decide_eq_true_eq]
    obtain ⟨hlist, hsize⟩ := Moves.toList_foldl_pushBack
      (fun col : Nat => Move.ofIndex col)
      ((List.range NumCols).filter fun col : Nat => s.board.at' 0 col = .vacant)
      (m := m.clear) (by rw [Moves.size_clear]; omega)
    rw [hfold] at hlist hsize
    rw [not_or, not_not] at hover
    refine ⟨⟨fun _ => hover, fun _ => rfl⟩, fun _ => ?_, ?_⟩
    · rw [hlist]
      simp
    · rw [hsize]
      simpa using hlen

/-- The listed moves: the columns open at the top, while the game is
on. -/
theorem mem_legal_iff (Z : ZobristTables NumRows NumCols) (s : State NumRows NumCols) (m : Move) :
    m ∈ (game Z).legal s ↔ NumRows * NumCols ≠ s.noMoves ∧ s.winner = .invalid
      ∧ ∃ col : Nat, col < NumCols ∧ s.board.at' 0 col = .vacant ∧ m = Move.ofIndex col := by
  obtain ⟨hret, hlist, -⟩ := moves_spec s .new
  unfold Game.legal
  cases hb : (s.moves .new).1 with
  | true =>
      have hopen := hret.mp hb
      rw [if_pos rfl, hlist hb]
      simp only [List.mem_map, List.mem_filter, List.mem_range, decide_eq_true_eq]
      constructor
      · intro h
        obtain ⟨col, ⟨hcol, hvac⟩, rfl⟩ := h
        exact ⟨hopen.1, hopen.2, col, hcol, hvac, rfl⟩
      · intro h
        obtain ⟨-, -, col, hcol, hvac, rfl⟩ := h
        exact ⟨col, ⟨hcol, hvac⟩, rfl⟩
  | false =>
      rw [if_neg (by simp)]
      simp only [List.not_mem_nil, false_iff]
      intro h
      obtain ⟨hfull, hopen, -⟩ := h
      rw [hret.mpr ⟨hfull, hopen⟩] at hb
      cases hb

-- ================================================= the search of move

/-- The search finds the lowest vacant cell of a column whose top cell
is vacant. -/
theorem landingRow_spec {s : State NumRows NumCols} (h : Settled s) {col : Int}
    (hcol : 0 ≤ col ∧ col < NumCols) (htop : s.board.at' 0 col = .vacant) :
    ∀ n : Nat, 0 < n → n ≤ NumRows →
      0 ≤ landingRow s.board col n ∧ landingRow s.board col n < n
        ∧ s.board.at' (landingRow s.board col n) col = .vacant
        ∧ ∀ i : Int, landingRow s.board col n < i → i < n →
            (s.board.at' i col).occupied = true := by
  intro n
  induction n with
  | zero => intro hn; omega
  | succ n ih =>
      intro _ hle
      have hr : InRange NumRows NumCols n col := ⟨by omega, by omega, hcol.1, hcol.2⟩
      rw [landingRow]
      by_cases hocc : (s.board.at' n col).occupied = true
      · rw [if_pos hocc]
        have hn : 0 < n := by
          rcases Nat.eq_zero_or_pos n with rfl | hn
          · exact absurd htop ((h.occupied_iff hr).mp hocc)
          · exact hn
        obtain ⟨hlo, hhi, hvac, hbelow⟩ := ih hn (by omega)
        refine ⟨hlo, by omega, hvac, fun i hi hin => ?_⟩
        rcases Int.lt_or_le i n with hlt | hge
        · exact hbelow i hi hlt
        · rw [show i = n by omega]
          exact hocc
      · rw [if_neg hocc]
        refine ⟨by omega, by omega, ?_, fun i hi hin => by omega⟩
        by_contra hvac
        exact hocc ((h.occupied_iff hr).mpr hvac)

/-- What a listed move does: the lowest vacant cell `( row, col )` of
its column receives a stone of the player to move, and nothing else of
the board changes. -/
structure Drops (s : State NumRows NumCols) (m : Move) (row col : Int) : Prop where
  inRange : InRange NumRows NumCols row col
  vacant : s.board.at' row col = .vacant
  below : ∀ i, row < i → i < NumRows → (s.board.at' i col).occupied = true
  loc : m.loc = col
  board : (s.makeMove m).1.board = s.board.setAt row col s.playerJustMoved.opponent
  coordinates : (s.makeMove m).2 = ⟨row, col⟩

/-- Above a vacant cell the column is vacant. -/
theorem Settled.vacant_above {s : State NumRows NumCols} (h : Settled s) {row col : Int}
    (hr : InRange NumRows NumCols row col) (hvac : s.board.at' row col = .vacant) :
    ∀ i, 0 ≤ i → i < row → s.board.at' i col = .vacant := by
  -- downward from `row`, by the distance to it
  have hdown : ∀ k : Nat, (k : Int) ≤ row → s.board.at' (row - k) col = .vacant := by
    intro k
    induction k with
    | zero => intro _; simpa using hvac
    | succ k ih =>
        intro hk
        obtain ⟨hr₀, hr₁, hr₂, hr₃⟩ := hr
        have hstep := ih (by omega)
        rw [show row - (k : Int) = row - (k + 1 : Nat) + 1 by omega] at hstep
        exact h.gravity _ _ ⟨by omega, by omega, hr₂, hr₃⟩ ⟨by omega, by omega, hr₂, hr₃⟩ hstep
  intro i hi hlt
  have hat := hdown (row - i).toNat (by omega)
  rwa [show row - ((row - i).toNat : Int) = i by omega] at hat

/-- A listed move drops a stone. -/
theorem drops_of_legal {Z : ZobristTables NumRows NumCols} (hrows : 1 ≤ NumRows)
    (hcols : NumCols ≤ 128) {s : State NumRows NumCols} (h : Settled s) {m : Move}
    (hm : m ∈ (game Z).legal s) : ∃ row col, Drops s m row col := by
  obtain ⟨-, -, col, hcol, htop, rfl⟩ := (mem_legal_iff Z s m).mp hm
  have hloc := ofIndex_loc hcols hcol
  have hbounds : (0 : Int) ≤ col ∧ (col : Int) < NumCols := by omega
  obtain ⟨hlo, hhi, hvac, hbelow⟩ := landingRow_spec h hbounds htop NumRows hrows le_rfl
  have hr : InRange NumRows NumCols (landingRow s.board col NumRows) col :=
    ⟨hlo, hhi, hbounds.1, hbounds.2⟩
  refine ⟨_, _, hr, hvac, hbelow, hloc, ?_, ?_⟩
  · simp only [State.makeMove, hloc]
  · simp only [State.makeMove, hloc]

section Drop

variable {s : State NumRows NumCols} {m : Move} {row col : Int}

/-- The cells after a drop. -/
theorem Drops.at' (hd : Drops s m row col) {i j : Int} (hr : InRange NumRows NumCols i j) :
    (s.makeMove m).1.board.at' i j
      = if i = row ∧ j = col then s.playerJustMoved.opponent else s.board.at' i j := by
  rw [hd.board, MaMatrix.at'_setAt _ _ hd.inRange hr]

/-- A drop fills one cell. -/
theorem Drops.count (hd : Drops s m row col) (h : Settled s) :
    (s.makeMove m).1.board.count Player.occupied = s.board.count Player.occupied + 1 := by
  rw [hd.board]
  refine MaMatrix.count_setAt _ hd.inRange ?_ ?_
  · rw [hd.vacant]
    rfl
  · exact (Player.occupied_iff _).mpr h.side.opponent

/-- The move counter does not overflow: a board with room for another
stone is short of its at most 255 cells. -/
theorem Drops.noMoves (hd : Drops s m row col) (h : BoardInv s)
    (hcells : NumRows * NumCols ≤ 255) :
    (s.makeMove m).1.noMoves = s.noMoves + 1 := by
  have hcount := hd.count h.settled
  have hle := MaMatrix.count_le Player.occupied (s.makeMove m).1.board
  have hinv := h.count
  show (s.noMoves + 1) % 256 = s.noMoves + 1
  omega

/-- A listed move leaves no stone floating. -/
theorem Settled.makeMove (h : Settled s) (hd : Drops s m row col) :
    Settled (s.makeMove m).1 where
  cell i j hr := by
    rw [hd.at' hr]
    split
    · exact h.side.opponent.ne_invalid
    · exact h.cell i j hr
  gravity i j hr hr' := by
    rw [hd.at' hr, hd.at' hr']
    by_cases hnew : i + 1 = row ∧ j = col
    · rw [if_pos hnew]
      intro hvac
      exact absurd hvac h.side.opponent.ne_vacant
    · rw [if_neg hnew]
      intro hvac
      by_cases hat : i = row ∧ j = col
      · -- the cell under the dropped stone is not vacant
        obtain ⟨rfl, rfl⟩ := hat
        rw [if_pos ⟨rfl, rfl⟩]
        have hocc := hd.below (i + 1) (by omega) hr'.2.1
        exact absurd hvac ((h.occupied_iff hr').mp hocc)
      · rw [if_neg hat]
        exact h.gravity i j hr hr' hvac
  side := h.side.opponent

/-- A listed move preserves the board invariant. -/
theorem BoardInv.makeMove (h : BoardInv s) (hd : Drops s m row col)
    (hcells : NumRows * NumCols ≤ 255) : BoardInv (s.makeMove m).1 where
  cell := (h.settled.makeMove hd).cell
  gravity := (h.settled.makeMove hd).gravity
  count := by rw [hd.noMoves h hcells, hd.count h.settled, h.count]
  side := h.side.opponent

end Drop

-- ===================================================== ways of moving

section Moves

variable {Z : ZobristTables NumRows NumCols}

/-- Nothing here looks at hash, verdict and last move. -/
theorem Settled.congr {s t : State NumRows NumCols} (h : Settled s) (hb : t.board = s.board)
    (hp : t.playerJustMoved = s.playerJustMoved) : Settled t where
  cell := hb ▸ h.cell
  gravity := hb ▸ h.gravity
  side := hp ▸ h.side

theorem BoardInv.congr {s t : State NumRows NumCols} (h : BoardInv s) (hb : t.board = s.board)
    (hn : t.noMoves = s.noMoves) (hp : t.playerJustMoved = s.playerJustMoved) : BoardInv t where
  cell := hb ▸ h.cell
  gravity := hb ▸ h.gravity
  count := by rw [hn, hb, h.count]
  side := hp ▸ h.side

@[simp] theorem setWinner_board (s : State NumRows NumCols) (c : Coordinates) :
    (s.setWinner c).board = s.board := by
  unfold State.setWinner
  simp only
  split_ifs <;> rfl

@[simp] theorem setWinner_noMoves (s : State NumRows NumCols) (c : Coordinates) :
    (s.setWinner c).noMoves = s.noMoves := by
  unfold State.setWinner
  simp only
  split_ifs <;> rfl

@[simp] theorem setWinner_playerJustMoved (s : State NumRows NumCols) (c : Coordinates) :
    (s.setWinner c).playerJustMoved = s.playerJustMoved := by
  unfold State.setWinner
  simp only
  split_ifs <;> rfl

@[simp] theorem setWinner_zobristHash (s : State NumRows NumCols) (c : Coordinates) :
    (s.setWinner c).zobristHash = s.zobristHash := by
  unfold State.setWinner
  simp only
  split_ifs <;> rfl

@[simp] theorem setWinner_move (s : State NumRows NumCols) (c : Coordinates) :
    (s.setWinner c).move = s.move := by
  unfold State.setWinner
  simp only
  split_ifs <;> rfl

/-- The three ways of moving leave the same board, counter and side. -/
theorem apply_fields (op : Game.MoveOp) (s : State NumRows NumCols) (m : Move) :
    ((game Z).apply op s m).board = (s.makeMove m).1.board
      ∧ ((game Z).apply op s m).noMoves = (s.makeMove m).1.noMoves
      ∧ ((game Z).apply op s m).playerJustMoved = (s.makeMove m).1.playerJustMoved
      ∧ ((game Z).apply op s m).move = m := by
  cases op
  · exact ⟨rfl, rfl, rfl, rfl⟩
  · exact ⟨setWinner_board .., setWinner_noMoves .., setWinner_playerJustMoved ..,
      setWinner_move ..⟩
  · exact ⟨setWinner_board .., setWinner_noMoves .., setWinner_playerJustMoved ..,
      setWinner_move ..⟩

/-- A listed move leaves no stone floating, however it is made. -/
theorem Settled.apply (hrows : 1 ≤ NumRows) (hcols : NumCols ≤ 128) {s : State NumRows NumCols}
    (h : Settled s) (op : Game.MoveOp) {m : Move} (hm : m ∈ (game Z).legal s) :
    Settled ((game Z).apply op s m) := by
  obtain ⟨row, col, hd⟩ := drops_of_legal hrows hcols h hm
  obtain ⟨hb, -, hp, -⟩ := apply_fields (Z := Z) op s m
  exact (h.makeMove hd).congr hb hp

/-- A listed move preserves the board invariant, however it is made. -/
theorem BoardInv.apply (hrows : 1 ≤ NumRows) (hcols : NumCols ≤ 128)
    (hcells : NumRows * NumCols ≤ 255) {s : State NumRows NumCols} (h : BoardInv s)
    (op : Game.MoveOp) {m : Move} (hm : m ∈ (game Z).legal s) :
    BoardInv ((game Z).apply op s m) := by
  obtain ⟨row, col, hd⟩ := drops_of_legal hrows hcols h.settled hm
  obtain ⟨hb, hn, hp, -⟩ := apply_fields (Z := Z) op s m
  exact (h.makeMove hd hcells).congr hb hn hp

/-- Every state of a game satisfies the board invariant. -/
theorem boardInv_run (hrows : 1 ≤ NumRows) (hcols : NumCols ≤ 128)
    (hcells : NumRows * NumCols ≤ 255) {ops : Game.MoveOp → Prop} {s₀ s : State NumRows NumCols}
    (h₀ : BoardInv s₀) (hrun : (game Z).Run ops s₀ s) : BoardInv s :=
  hrun.invariant (I := BoardInv) h₀ fun _ op _ h _ hm => h.apply hrows hcols hcells op hm

end Moves

end MctsConnectFour.ConnectFour
