/-
The Connect Four state (connect_four.hpp), for any number of rows and
columns. Row zero is the top of the board; a stone dropped into a
column comes to rest on the lowest vacant cell.

The search of `move ( )` for that cell and the seven scans of
`winner ( )` are loops without a counter in the source. Here the first
recurses on the row and the others carry fuel, `NumRows + NumCols`
steps, which is more than any line of the board is long.

Template arguments are `std::size_t`, so the room checks of
`winner ( )` are carried out modulo `2 ^ 64` (`sizeT`); on boards with
fewer than four rows or columns their left operands wrap around.
`m_no_moves` is a `std::uint8_t`, and a move keeps its column in a
`std::int8_t`.
-/
import MctsConnectFour.Game

namespace MctsConnectFour

namespace ConnectFour

-- =============================================================== moves

/-- `Move`: a column. -/
structure Move where
  loc : Int
deriving DecidableEq, Repr

namespace Move

/-- `Move ( const index_t )`: the index narrowed to eight bits. -/
def ofIndex (m : Int) : Move := ⟨m.bmod 256⟩

def none : Move := ofIndex (-1)
def root : Move := ofIndex (-2)
def invalid : Move := ofIndex (-3)

instance : Inhabited Move := ⟨invalid⟩

end Move

-- ================================================================ keys

/-- The constants `m_zobrist_keys` is initialised with. -/
def zobristConstants : List UInt64 :=
  [0xa1a656cb9731c5d5, 0xc3dce6ad6465ea7a, 0x9e2556e2bbec18d3, 0x900670630f4f76af,
    0xda8071005889fa3c, 0xd1efb50aec8b61a9, 0x73203d10cf4db8b8, 0x6ab7fd70679d877f,
    0x3a56cdae74f9d816, 0xb3b48dc62bacaf9b, 0x27760b12660e6c3b, 0xd9ac7fb482854702,
    0xd35e698b064e4f93, 0x7b379503f68242bd, 0xdad6afcb4409d282, 0xf04b592c8e1183fe,
    0x6dbb4f77e63f5267, 0x970b0ae4e9e7d347, 0xd19027f157c2845a, 0x82a53746e2d25fa5,
    0xe2097dbb17c142f7, 0x5eba98d936a14c91, 0x963286f60ab69777, 0x96e9eb899e5e615b,
    0xecd8957747d0bef8, 0x961b3fb52b112218, 0x44c776ac7af4cc2d, 0xfa2708e399719ac4,
    0xe34b58c2f6acac45, 0x7f6d2cb0416a63ca, 0x287ecf88477a3e7d, 0xe57d268150b95703,
    0xf9cc76357617493c, 0xe956f77acaa2f112, 0x9a9441286a0a70e7, 0x5b5a62ba1d8dfd33,
    0xb3d1b947205bf8f4, 0x4aabdee7fb6aa20b, 0xa810d257d77576af, 0x6a1789922b7af41a,
    0x315833a0f0b5ceeb, 0x481a32e97fbd47d8, 0x11e80a41d2022fdc, 0xfab59400ba6c780c,
    0xfce9f47e1dc3037d, 0xf5f404421f6c78b2, 0x274ef7151bd8503e, 0x1d5268cdadd43ad3,
    0x59ed9dc04b81a0c1, 0x3c10ea92d1a6d79d, 0x595d9292d07ee51d, 0x1a62a32bb174ee71,
    0x417fd9b9b0bc7a47, 0x3e266eca431347d6, 0x74a093aeceb1fd60, 0x7720a5e78ae8d571,
    0x9645ae72f6f57362, 0xcc7279ab05731ef7, 0xf5a0574bc2385c6f, 0xb254ccf017ebc43b,
    0x34184cd5945aff3e, 0x4c5ede78a68fd1a5, 0x49adf513d838ce5d, 0x44940842e2c75c16,
    0x7aacd877d0831e19, 0x9d8d5e4f7c511acd, 0xac2f78583e0e9692, 0x03e2da677110440c,
    0x07d2a6b527f4ef05, 0x91a680f12222cf16, 0x08617f45641626d0, 0xb2df85147e2a11cb,
    0x6bf333747f7f10a4, 0xc6f2a33e3a94b2c1, 0xf5358b1cb75e528f, 0x904af33725c150b5,
    0xd75d6d3f202f964b, 0x8d58eeece3979331, 0xb58f905351a0d8f1, 0x38ad67581ffcbdfb,
    0xcd5f48e9ac464398, 0xfcc2df3237564c0c, 0x1ea8202ddf77efde, 0x000617fafba044ad]

/-- `m_zobrist_keys` and `m_zobrist_player_key_values`: the list has keys
for 42 cells, and what an initialiser list does not reach is zero. -/
def sourceKeys (NumRows NumCols : Nat) : ZobristTables NumRows NumCols where
  keys := ⟨Vector.ofFn fun i => zobristConstants[i.val]?.getD 0⟩
  playerKeyValues := #v[0x41fec34015a1bef2, 0x8b80677c9c144514, 0xf6242292160d5bb7]

-- =============================================================== state

/-- `Board`. -/
abbrev Board (NumRows NumCols : Nat) := MaMatrix Player NumRows NumCols

/-- `ConnectFour < NumRows, NumCols >`. -/
structure State (NumRows NumCols : Nat) where
  zobristHash : UInt64
  board : Board NumRows NumCols
  noMoves : Nat
  playerJustMoved : Player
  winner : Player
  move : Move

/-- `Coordinates`. -/
structure Coordinates where
  row : Int
  col : Int

variable {NumRows NumCols : Nat} (Z : ZobristTables NumRows NumCols)

/-- A default constructed state; `p` is the outcome of
`Player::random ( )`. -/
def new (p : Player) : State NumRows NumCols where
  zobristHash := Z.playerKey .vacant
  board := .fill .vacant
  noMoves := 0
  playerJustMoved := p
  winner := .invalid
  move := Move.root

/-- `initialize ( )`; `p` is the outcome of `Player::random ( )`. -/
def initializeState (s : State NumRows NumCols) (p : Player) : State NumRows NumCols :=
  { s with
    zobristHash := Z.playerKey .vacant
    noMoves := 0
    playerJustMoved := p
    winner := .invalid
    move := Move.root }

-- ============================================================== winner

/-- One scan of `winner ( )`: step from `( row, col )` by `( dr, dc )`
while the cell is `inside` and holds `piece`, adding to `counter`. -/
def scan (b : Board NumRows NumCols) (piece : Player) (inside : Int → Int → Bool)
    (dr dc : Int) : Nat → Int → Int → Int → Int
  | 0, _, _, counter => counter
  | fuel + 1, row, col, counter =>
      if inside row col && b.at' row col == piece then
        scan b piece inside dr dc fuel (row + dr) (col + dc) (counter + 1)
      else counter

/-- A scan with enough fuel for any line of the board. -/
def scanLine (b : Board NumRows NumCols) (piece : Player) (inside : Int → Int → Bool)
    (dr dc row col counter : Int) : Int :=
  scan b piece inside dr dc (NumRows + NumCols) row col counter

/-- The horizontal check. -/
def horizontal (b : Board NumRows NumCols) (piece : Player) (c : Coordinates) : Bool :=
  let counter :=
    if c.col > 0 then
      scanLine b piece (fun _ col => col ≥ 0) 0 (-1) c.row (c.col - 1) 1
    else 1
  sizeT c.col < sizeT (NumCols - 4 + counter) &&
    scanLine b piece (fun _ col => sizeT col < NumCols) 0 1 c.row (c.col + 1) counter > 3

/-- The vertical check. -/
def vertical (b : Board NumRows NumCols) (piece : Player) (c : Coordinates) : Bool :=
  sizeT c.row < sizeT (NumRows - 3) &&
    scanLine b piece (fun row _ => sizeT row < NumRows) 1 0 (c.row + 1) c.col 1 > 3

/-- The diagonal check from nw to se. -/
def diagonalNwSe (b : Board NumRows NumCols) (piece : Player) (c : Coordinates) : Bool :=
  let counter :=
    if c.row > 0 && c.col > 0 then
      scanLine b piece (fun row col => row ≥ 0 && col ≥ 0) (-1) (-1) (c.row - 1) (c.col - 1) 1
    else 1
  sizeT c.row < sizeT (NumRows - 4 + counter) && sizeT c.col < sizeT (NumCols - 4 + counter) &&
    scanLine b piece (fun row col => sizeT row < NumRows && sizeT col < NumCols) 1 1
      (c.row + 1) (c.col + 1) counter > 3

/-- The diagonal check from sw to ne. -/
def diagonalSwNe (b : Board NumRows NumCols) (piece : Player) (c : Coordinates) : Bool :=
  let counter :=
    if sizeT c.row < sizeT (NumRows - 1) && c.col > 0 then
      scanLine b piece (fun row col => sizeT row < NumRows && col ≥ 0) 1 (-1)
        (c.row + 1) (c.col - 1) 1
    else 1
  c.row > 3 - counter && sizeT c.col < sizeT (NumCols - 4 + counter) &&
    scanLine b piece (fun row col => row ≥ 0 && sizeT col < NumCols) (-1) 1
      (c.row - 1) (c.col + 1) counter > 3

/-- `winner ( )`: only lines through the last stone are looked at; a
full board without one is drawn. -/
def State.setWinner (s : State NumRows NumCols) (c : Coordinates) : State NumRows NumCols :=
  let piece := s.board.at' c.row c.col
  if horizontal s.board piece c || vertical s.board piece c || diagonalNwSe s.board piece c
      || diagonalSwNe s.board piece c then
    { s with winner := piece }
  else if NumRows * NumCols = s.noMoves then
    { s with winner := .vacant }
  else s

-- ============================================================== moving

/-- `while ( m_board.at ( --c.row, c.col ).occupied ( ) );`, entered
with `c.row` equal to the argument. The source has no bound on the
row; `-1` stands for having run off the board. -/
def landingRow (b : Board NumRows NumCols) (col : Int) : Nat → Int
  | 0 => -1
  | row + 1 => if (b.at' row col).occupied then landingRow b col row else row

/-- `move ( )`. -/
def State.makeMove (s : State NumRows NumCols) (m : Move) : State NumRows NumCols × Coordinates :=
  let c : Coordinates := ⟨landingRow s.board m.loc NumRows, m.loc⟩
  let p := s.playerJustMoved.opponent
  ({ s with
      move := m
      playerJustMoved := p
      board := s.board.setAt c.row c.col p
      noMoves := (s.noMoves + 1) % 256 }, c)

/-- `hash ( )`. -/
def State.hash (s : State NumRows NumCols) (c : Coordinates) : State NumRows NumCols :=
  { s with zobristHash := s.zobristHash ^^^ Z.keys.at' s.playerJustMoved.as01Index c.row c.col }

/-- `move_hash ( )`. -/
def moveHash (s : State NumRows NumCols) (m : Move) : State NumRows NumCols :=
  (s.makeMove m).1.hash Z (s.makeMove m).2

/-- `move_hash_winner ( )`. -/
def moveHashWinner (s : State NumRows NumCols) (m : Move) : State NumRows NumCols :=
  ((s.makeMove m).1.hash Z (s.makeMove m).2).setWinner (s.makeMove m).2

/-- `move_winner ( )`. -/
def moveWinner (s : State NumRows NumCols) (m : Move) : State NumRows NumCols :=
  (s.makeMove m).1.setWinner (s.makeMove m).2

/-- `zobrist ( )`. -/
def zobrist (s : State NumRows NumCols) : UInt64 :=
  s.zobristHash ^^^ Z.playerKey s.playerJustMoved

/-- `moves ( )`: the columns whose top cell is vacant, unless the game
is over or the counter says the board is full. -/
def State.moves (s : State NumRows NumCols) (m : Moves Move NumCols) :
    Bool × Moves Move NumCols :=
  let m := m.clear
  if NumRows * NumCols = s.noMoves ∨ s.winner ≠ .invalid then (false, m)
  else
    (true, (List.range NumCols).foldl (fun m (col : Nat) =>
      if s.board.at' 0 col = .vacant then m.pushBack (Move.ofIndex col) else m) m)

-- ============================================================= verdict

/-- `result ( )`. -/
def State.result (s : State NumRows NumCols) (p : Player) : Int :=
  if s.winner = .vacant then 0 else if s.winner = p then 1 else -1

/-- `ended ( )`. -/
def State.ended (s : State NumRows NumCols) : Option Player :=
  if s.winner = .invalid then Option.none else some s.winner

/-- Connect Four as the search sees it. -/
abbrev game : Game where
  State := State NumRows NumCols
  Move := Move
  maxNoMoves := NumCols
  noneMove := Move.none
  zobrist := zobrist Z
  moves := State.moves
  playerJustMoved := State.playerJustMoved
  lastMove := State.move
  moveHash := moveHash Z
  moveHashWinner := moveHashWinner Z
  moveWinner := moveWinner
  ended := State.ended
  result := State.result
  Position := Board NumRows NumCols × Player
  position := fun s => (s.board, s.playerJustMoved.opponent)

end ConnectFour

end MctsConnectFour
