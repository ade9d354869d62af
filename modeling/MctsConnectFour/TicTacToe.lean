/-
Tic-tac-toe (old/tictactoe.hpp), for any number of rows and columns.

The generator and the container do not fit. `moves ( )` pushes a move for
every vacant cell, up to `NumRows * NumCols` of them, into a container of
capacity `NumCols`; and it builds them as `Location ( row, col )` where
the constructor takes the column first, so a listed move is played on the
transposed cell. On a square board the first alone shows at once, in the
new game: only the board of one cell plays as it should
(`playsFree_iff`).

`result ( )` and `ended ( )` do not bear on this and stand with the
verdict; `print ( )` is left out. The scans of `winner ( )` are those of
Connect Four, one step at a time along a line while the cells hold the
piece.
-/
import MctsConnectFour.ConnectFour.Basic

namespace MctsConnectFour

namespace TicTacToe

-- =============================================================== moves

/-- `Location`. -/
structure Location where
  c : Int
  r : Int
deriving DecidableEq, Repr

/-- `Location ( c_, r_ )`: the indices narrowed to eight bits. -/
def Location.ofIndices (c r : Int) : Location := ⟨c.bmod 256, r.bmod 256⟩

/-- `Move`. -/
structure Move where
  loc : Location
deriving DecidableEq, Repr

def Move.invalid : Move := ⟨.ofIndices (-3) (-3)⟩

instance : Inhabited Move := ⟨Move.invalid⟩

-- =============================================================== state

/-- `TicTacToe < NumRows, NumCols >`. -/
structure State (NumRows NumCols : Nat) where
  board : ConnectFour.Board NumRows NumCols
  playerJustMoved : Player
  winner : Player
  move : Move
  noMoves : Nat

variable {NumRows NumCols : Nat}

/-- A default constructed state; `p` is the outcome of
`Player::random ( )`. -/
def new (p : Player) : State NumRows NumCols where
  board := .fill .vacant
  playerJustMoved := p
  winner := .vacant
  move := Move.invalid
  noMoves := 0

/-- The length of the line through `( r, c )` along `( dr, dc )`: a scan
back while the cells are inside the first way, one forth while they are
inside the second, and the piece itself. -/
def lineLength (b : ConnectFour.Board NumRows NumCols) (piece : Player) (r c : Int)
    (back forth : Int → Int → Bool) (dr dc : Int) : Int :=
  let counter := ConnectFour.scanLine b piece back (-dr) (-dc) (r - dr) (c - dc) 1
  ConnectFour.scanLine b piece forth dr dc (r + dr) (c + dc) counter

/-- `winner ( )`: only lines of exactly three count. -/
def State.setWinner (s : State NumRows NumCols) : State NumRows NumCols :=
  let r := s.move.loc.r
  let c := s.move.loc.c
  let piece := s.board.at' r c
  -- horizontal
  if lineLength s.board piece r c (fun _ col => col ≥ 0) (fun _ col => sizeT col < NumCols)
      0 1 = 3 then
    { s with winner := piece }
  -- vertical
  else if lineLength s.board piece r c (fun row _ => row ≥ 0) (fun row _ => sizeT row < NumRows)
      1 0 = 3 then
    { s with winner := piece }
  -- diagonal nw to se
  else if lineLength s.board piece r c (fun row col => row ≥ 0 && col ≥ 0)
      (fun row col => sizeT row < NumRows && sizeT col < NumCols) 1 1 = 3 then
    { s with winner := piece }
  -- diagonal sw to ne
  else if lineLength s.board piece r c (fun row col => sizeT row < NumRows && col ≥ 0)
      (fun row col => row ≥ 0 && sizeT col < NumCols) (-1) 1 = 3 then
    { s with winner := piece }
  else s

/-- `move ( )`. -/
def State.makeMove (s : State NumRows NumCols) (m : Move) : State NumRows NumCols :=
  { s with
    move := m
    playerJustMoved := s.playerJustMoved.opponent
    board := s.board.setAt m.loc.r m.loc.c s.playerJustMoved.opponent
    noMoves := s.noMoves + 1 }

/-- `move_winner ( )`. -/
def State.moveWinner (s : State NumRows NumCols) (m : Move) : State NumRows NumCols :=
  (s.makeMove m).setWinner

/-- The cells in the order of the loops of `moves ( )`, as rows and
columns. -/
def cells (NumRows NumCols : Nat) : List (Int × Int) :=
  (List.range NumCols).flatMap fun (col : Nat) =>
    (List.range NumRows).map fun (row : Nat) => ((row : Int), (col : Int))

/-- `moves ( )`. -/
def State.moves (s : State NumRows NumCols) (m : Moves Move NumCols) :
    Bool × Moves Move NumCols :=
  if s.noMoves = NumRows * NumCols ∨ s.winner.occupied then (false, m)
  else
    (true, (cells NumRows NumCols).foldl (fun m x =>
      -- the row goes where the constructor expects the column
      if s.board.at' x.1 x.2 = .vacant then m.pushBack ⟨.ofIndices x.1 x.2⟩ else m) m.clear)

-- ======================================================= what is asked

/-- The states that `move_winner` reaches from a new one with the moves
of `moves ( )`; the container may hold anything before. -/
inductive Reachable : State NumRows NumCols → Prop
  | new {p : Player} (hp : p.IsSide) : Reachable (new p)
  | moveWinner {s : State NumRows NumCols} {m : Moves Move NumCols} {mv : Move}
      (h : Reachable s) (hmoves : (s.moves m).1 = true) (hmv : mv ∈ (s.moves m).2.toList) :
      Reachable (s.moveWinner mv)

/-- The moves of a state fit their container, each puts a stone on a
vacant cell of the board, and the counter counts the stones. -/
structure State.PlaysFree (s : State NumRows NumCols) : Prop where
  fits : ∀ m : Moves Move NumCols, (s.moves m).1 = true → (s.moves m).2.size ≤ NumCols
  free : ∀ (m : Moves Move NumCols) (mv : Move), (s.moves m).1 = true →
    mv ∈ (s.moves m).2.toList →
      MaMatrix.InRange NumRows NumCols mv.loc.r mv.loc.c
        ∧ s.board.at' mv.loc.r mv.loc.c = .vacant
        ∧ ((s.makeMove mv).board.at' mv.loc.r mv.loc.c).IsSide
  counted : s.noMoves = s.board.count Player.occupied

-- ==================================================== the larger boards

/-- A loop that pushes one entry per element that passes a test. -/
theorem size_foldl_pushBack {α : Type} (p : α → Prop) [DecidablePred p] (f : α → Move) :
    ∀ (l : List α) (m : Moves Move NumCols),
      (l.foldl (fun m a => if p a then m.pushBack (f a) else m) m).size
        = m.size + (l.filter p).length := by
  intro l
  induction l with
  | nil => exact fun m => rfl
  | cons a l ih =>
      intro m
      rw [List.foldl_cons, ih]
      by_cases ha : p a
      · rw [if_pos ha, List.filter_cons_of_pos (by simpa using ha), List.length_cons]
        simp only [Moves.pushBack]
        omega
      · rw [if_neg ha, List.filter_cons_of_neg (by simpa using ha)]

theorem length_cells (NumRows NumCols : Nat) :
    (cells NumRows NumCols).length = NumCols * NumRows := by
  simp [cells, List.length_flatMap]

theorem cells_inRange {x : Int × Int} (hx : x ∈ cells NumRows NumCols) :
    MaMatrix.InRange NumRows NumCols x.1 x.2 := by
  simp only [cells, List.mem_flatMap, List.mem_range, List.mem_map] at hx
  obtain ⟨col, hcol, row, hrow, rfl⟩ := hx
  unfold MaMatrix.InRange
  omega

/-- In the new game every cell is listed. -/
theorem moves_new (p : Player) (m : Moves Move NumCols) (hpos : 0 < NumRows * NumCols) :
    (((new p : State NumRows NumCols).moves m).1 = true)
      ∧ ((new p : State NumRows NumCols).moves m).2.size = NumCols * NumRows := by
  have hgo : ¬ ((new p : State NumRows NumCols).noMoves = NumRows * NumCols
      ∨ (new p : State NumRows NumCols).winner.occupied = true) := by
    intro hor
    rcases hor with hfull | hwon
    · exact hpos.ne hfull
    · exact Bool.false_ne_true hwon
  have hvacant : ∀ x ∈ cells NumRows NumCols,
      (new p : State NumRows NumCols).board.at' x.1 x.2 = .vacant :=
    fun x hx => MaMatrix.at'_fill _ (cells_inRange hx)
  unfold State.moves
  rw [if_neg hgo]
  refine ⟨rfl, ?_⟩
  rw [size_foldl_pushBack, List.filter_eq_self.mpr (by simpa using hvacant), length_cells]
  exact Nat.zero_add _

/-- So beyond one row the container is too small from the beginning. -/
theorem not_playsFree_new (p : Player) (hR : 2 ≤ NumRows) (hC : 1 ≤ NumCols) :
    ¬ (new p : State NumRows NumCols).PlaysFree := by
  intro hfree
  have hpos : 0 < NumRows * NumCols := Nat.mul_pos (by omega) (by omega)
  obtain ⟨hmoves, hsize⟩ := moves_new p (Moves.new : Moves Move NumCols) hpos
  have hle := hfree.fits Moves.new hmoves
  have hmul : NumCols * 2 ≤ NumCols * NumRows := Nat.mul_le_mul_left _ hR
  omega

-- =================================================== the board of one cell

/-- The game on one cell: before its move and after it. -/
structure OneCell (s : State 1 1) : Prop where
  side : s.playerJustMoved.IsSide
  counted : s.noMoves = s.board.count Player.occupied
  cell : (s.noMoves = 0 ∧ s.board.at' 0 0 = .vacant) ∨ s.noMoves = 1

/-- `winner ( )` leaves all but the verdict alone. -/
theorem setWinner_fields (s : State NumRows NumCols) :
    s.setWinner.board = s.board ∧ s.setWinner.noMoves = s.noMoves
      ∧ s.setWinner.playerJustMoved = s.playerJustMoved := by
  unfold State.setWinner
  dsimp only
  split
  · exact ⟨rfl, rfl, rfl⟩
  split
  · exact ⟨rfl, rfl, rfl⟩
  split
  · exact ⟨rfl, rfl, rfl⟩
  split <;> exact ⟨rfl, rfl, rfl⟩

/-- What is listed on one cell: the cell, if it is vacant. -/
theorem OneCell.moves {s : State 1 1} (h : OneCell s) {m : Moves Move 1}
    (hmoves : (s.moves m).1 = true) :
    s.noMoves = 0 ∧ s.board.at' 0 0 = .vacant ∧ (s.moves m).2.toList = [⟨⟨0, 0⟩⟩]
      ∧ (s.moves m).2.size = 1 := by
  have hgo : ¬ (s.noMoves = 1 * 1 ∨ s.winner.occupied) := by
    intro hover
    unfold State.moves at hmoves
    rw [if_pos hover] at hmoves
    exact Bool.false_ne_true hmoves
  rcases h.cell with ⟨hno, hvacant⟩ | hno
  · have heq : s.moves m = (true, m.clear.pushBack ⟨⟨0, 0⟩⟩) := by
      unfold State.moves
      rw [if_neg hgo]
      show (true, if s.board.at' 0 0 = .vacant then m.clear.pushBack ⟨⟨0, 0⟩⟩ else m.clear) = _
      rw [if_pos hvacant]
    rw [heq]
    refine ⟨hno, hvacant, ?_, rfl⟩
    rw [Moves.toList_pushBack (by simp)]
    rfl
  · exact absurd (Or.inl hno) hgo

/-- A move on one cell. -/
theorem OneCell.moveWinner {s : State 1 1} (h : OneCell s) {m : Moves Move 1} {mv : Move}
    (hmoves : (s.moves m).1 = true) (hmv : mv ∈ (s.moves m).2.toList) :
    OneCell (s.moveWinner mv) := by
  obtain ⟨hno, hvacant, hlist, -⟩ := h.moves hmoves
  rw [hlist, List.mem_singleton] at hmv
  subst hmv
  obtain ⟨hboard, hnoMoves, hplayer⟩ := setWinner_fields (s.makeMove ⟨⟨0, 0⟩⟩)
  refine ⟨?_, ?_, Or.inr ?_⟩
  · unfold State.moveWinner
    rw [hplayer]
    exact h.side.opponent
  · unfold State.moveWinner
    rw [hboard, hnoMoves]
    show s.noMoves + 1 = (s.board.setAt 0 0 s.playerJustMoved.opponent).count Player.occupied
    rw [MaMatrix.count_setAt s.board (by decide) (by rw [hvacant]; rfl)
      ((Player.occupied_iff _).mpr h.side.opponent), ← h.counted]
  · unfold State.moveWinner
    rw [hnoMoves]
    show s.noMoves + 1 = 1
    omega

theorem Reachable.oneCell {s : State 1 1} (h : Reachable s) : OneCell s := by
  induction h with
  | new hp =>
      refine ⟨hp, (MaMatrix.count_fill rfl).symm, Or.inl ⟨rfl, ?_⟩⟩
      exact MaMatrix.at'_fill _ (by decide)
  | moveWinner _ hmoves hmv ih => exact ih.moveWinner hmoves hmv

theorem OneCell.playsFree {s : State 1 1} (h : OneCell s) : s.PlaysFree := by
  refine ⟨?_, ?_, h.counted⟩
  · intro m hmoves
    obtain ⟨-, -, -, hsize⟩ := h.moves hmoves
    omega
  · intro m mv hmoves hmv
    obtain ⟨-, hvacant, hlist, -⟩ := h.moves hmoves
    rw [hlist, List.mem_singleton] at hmv
    subst hmv
    refine ⟨by decide, hvacant, ?_⟩
    show ((s.board.setAt 0 0 s.playerJustMoved.opponent).at' 0 0).IsSide
    rw [MaMatrix.at'_setAt _ _ (by decide) (by decide), if_pos ⟨rfl, rfl⟩]
    exact h.side.opponent

-- ========================================================== the result

/-- On a square board the game plays on free cells only, within its
container, exactly when the board is a single cell. -/
theorem playsFree_iff (hR : 1 ≤ NumRows) (hsquare : NumRows = NumCols) :
    (∀ s : State NumRows NumCols, Reachable s → s.PlaysFree) ↔ NumRows = 1 := by
  subst hsquare
  constructor
  · intro hall
    by_contra hne
    exact not_playsFree_new .agent (by omega) hR (hall _ (.new (Or.inl rfl)))
  · intro hone s hs
    subst hone
    exact hs.oneCell.playsFree

theorem playsFree_iff_one :
    (∀ s : State 1 1, Reachable s → s.PlaysFree) ↔ 1 = 1 :=
  playsFree_iff (Nat.le_refl 1) rfl

/-- On three by three the new game pushes nine moves into three places.
Of the moves in these places the second is played on the transposed cell,
so it is listed again, for a cell that is now occupied. -/
theorem three_by_three_overruns :
    let s : State 3 3 := new .agent
    let mv : Move := ⟨⟨1, 0⟩⟩
    let m := (s.moves Moves.new).2
    let s' := s.moveWinner mv
    let m' := (s'.moves Moves.new).2
    Reachable s ∧ ¬ s.PlaysFree ∧ m.size = 9
      ∧ mv ∈ m.toList ∧ s'.board.at' 0 1 = .human
      ∧ mv ∈ m'.toList ∧ (s'.board.at' mv.loc.r mv.loc.c).occupied = true := by
  refine ⟨.new (Or.inl rfl), not_playsFree_new .agent (by decide) (by decide), ?_⟩
  decide +kernel

end TicTacToe

end MctsConnectFour
