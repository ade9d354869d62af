/-
The Oska state (oska.hpp), for any size `S`: the number of hexagons, and
of stones, on a player's first row.

The board is held twice, as the agent and as the human see it; a
location or a move is always in the perspective of the player it
belongs to, an id always in the agent's. `at_r` is how the source turns
one perspective into the other.

`StoneID` has room for eight stones and `once_initialize` reserves `S`,
so it throws when `S` is larger (`none`). Below that, no location, id or
counter of a game comes near the limits of its integer type, and they
are plain integers here. The hexagons' pixel positions (`m_hexagons`,
`m_point_to_id`) belong to the user interface and are left out.

# Statics

The location tables and the keys are static members; they are a
parameter of everything that reads them (`Statics`), and
`once_initialize`, which fills them, returns them.
-/
import MctsConnectFour.Game

namespace MctsConnectFour

namespace Oska

-- =============================================================== moves

/-- `Location`. -/
structure Location where
  c : Int
  r : Int
deriving DecidableEq, Repr

instance : Inhabited Location := ⟨⟨-3, -3⟩⟩

/-- `Move`. -/
structure Move where
  mFrom : Location
  mTo : Location
deriving DecidableEq, Repr

namespace Move

def none : Move := ⟨⟨-1, -1⟩, ⟨-1, -1⟩⟩
def root : Move := ⟨⟨-2, -2⟩, ⟨-2, -2⟩⟩

/-- `Move::invalid` is initialised from itself, that is from static
storage still zero. -/
def invalid : Move := ⟨⟨0, 0⟩, ⟨0, 0⟩⟩

instance : Inhabited Move := ⟨invalid⟩

/-- `isCapture ( )`. -/
def isCapture (m : Move) : Bool := m.mTo.r - m.mFrom.r == 2 && (m.mTo.c - m.mFrom.c).natAbs == 2

/-- `captured ( )`. -/
def captured (m : Move) : Location :=
  ⟨(m.mFrom.c + m.mTo.c).tdiv 2, (m.mFrom.r + m.mTo.r).tdiv 2⟩

end Move

-- ========================================================== dimensions

def noCols (S : Nat) : Nat := S
def noRows (S : Nat) : Nat := 2 * (S - 2) + 1
def obCols (S : Nat) : Nat := noCols S + (S - 1) + 2
def obRows (S : Nat) : Nat := noRows S + 2
def obHomeRow (S : Nat) : Nat := obRows S - 2
def noHexagons (S : Nat) : Nat := S * (S + 1) - 4

/-- `Board`. -/
abbrev Board (S : Nat) := MaMatrix Player (obCols S) (obRows S)

/-- The static members. -/
structure Statics (S : Nat) where
  locationToId : MaMatrix Int (obCols S) (obRows S)
  idToLocation : MaVector Location (noHexagons S)
  zobrist : ZobristTables (obCols S) (obRows S)

/-- `OskaStateTemplate < S >`. -/
structure State (S : Nat) where
  zobristHash : UInt64
  agentBoard : Board S
  humanBoard : Board S
  agentStoneId : List Int
  humanStoneId : List Int
  noHomeAgent : Nat
  noHomeHuman : Nat
  playerToMove : Player
  winner : Player
  lastMove : Move
  isOnceInitialized : Bool

variable {S : Nat}

/-- A default constructed state; `p` is the outcome of
`Player::random ( )`. -/
def new (T : Statics S) (p : Player) : State S where
  zobristHash := T.zobrist.playerKey .vacant
  agentBoard := .fill default
  humanBoard := .fill default
  agentStoneId := []
  humanStoneId := []
  noHomeAgent := 0
  noHomeHuman := 0
  playerToMove := p
  winner := .invalid
  lastMove := Move.root
  isOnceInitialized := false

-- ====================================================== initialisation

/-- The variables `r`, `li` and `ri` of the two row loops. -/
structure RowLoop where
  r : Nat
  li : Nat
  ri : Nat

/-- `++r, ++li, --ri` -/
def RowLoop.narrow (x : RowLoop) : RowLoop := ⟨x.r + 1, x.li + 1, x.ri - 1⟩

/-- `++r, --li, ++ri` -/
def RowLoop.widen (x : RowLoop) : RowLoop := ⟨x.r + 1, x.li - 1, x.ri + 1⟩

/-- `for ( c = li; c < ri; c += 2 )` -/
def RowLoop.cells (x : RowLoop) : List (Nat × Nat) :=
  (List.range' x.li ((x.ri - x.li + 1) / 2) 2).map fun c => (c, x.r)

/-- The cells `( c, r )` of the top of the board, in loop order. -/
def topCells (S : Nat) : List (Nat × Nat) :=
  (List.iterate RowLoop.narrow ⟨1, 1, obCols S - 1⟩ (obRows S / 2 - 1)).flatMap RowLoop.cells

/-- The cells of the bottom of the board; `r`, `li` and `ri` fall
through from the top. -/
def bottomCells (S : Nat) : List (Nat × Nat) :=
  (List.iterate RowLoop.widen (RowLoop.narrow^[obRows S / 2 - 1] ⟨1, 1, obCols S - 1⟩)
    (obRows S - 1 - obRows S / 2)).flatMap RowLoop.cells

/-- The part of a loop body that fills the boards and the stone list of
`p`, whose stones start on `row`. -/
def State.placeStone (p : Player) (row : Nat) (s : State S) (cell : Nat × Nat) (id : Int) :
    State S :=
  let content := if cell.2 = row then p else .vacant
  { s with
    agentBoard := s.agentBoard.setAt cell.1 cell.2 content
    humanBoard := s.humanBoard.setAtR cell.1 cell.2 content
    agentStoneId := if cell.2 = row ∧ p = .agent then s.agentStoneId ++ [id] else s.agentStoneId
    humanStoneId := if cell.2 = row ∧ p ≠ .agent then s.humanStoneId ++ [id] else s.humanStoneId }

/-- What the row loops of `once_initialize ( )` change. -/
structure Setup (S : Nat) where
  statics : Statics S
  state : State S
  id : Int
  rng : Rng

/-- The body of the row loops of `once_initialize ( )`. -/
def Setup.placeCell (p : Player) (row : Nat) (x : Setup S) (cell : Nat × Nat) : Setup S :=
  let keys := (x.statics.zobrist.keys.setAt 0 cell.1 cell.2 (UInt64.ofNat (x.rng 0))).setAt 1
    cell.1 cell.2 (UInt64.ofNat (x.rng.tail 0))
  let s := x.state.placeStone p row cell x.id
  { statics :=
      { locationToId := x.statics.locationToId.setAt cell.1 cell.2 x.id
        idToLocation := x.statics.idToLocation.setAt x.id ⟨cell.1, cell.2⟩
        zobrist := { x.statics.zobrist with keys := keys } }
    state :=
      if cell.2 = row then
        { s with zobristHash := s.zobristHash ^^^ keys.at' p.as01Index cell.1 cell.2 }
      else s
    id := x.id + 1
    rng := x.rng.tail.tail }

/-- `once_initialize ( )`; the first two loops set every cell of three
matrices. -/
def onceInitialize (T : Statics S) (s : State S) (ω : Rng) : Option (Setup S) :=
  if 8 < S then none
  else
    let x : Setup S :=
      { statics := { T with locationToId := .fill (-1) }
        state := { s with agentBoard := .fill .invalid, humanBoard := .fill .invalid }
        id := 0
        rng := ω }
    let x := (topCells S).foldl (Setup.placeCell .agent 1) x
    some ((bottomCells S).foldl (Setup.placeCell .human (obHomeRow S)) x)

/-- `initialize ( )`. -/
def initializeState (T : Statics S) (s : State S) (ω : Rng) : Option (Setup S) :=
  if s.isOnceInitialized = false then onceInitialize T { s with isOnceInitialized := true } ω
  else
    let s :=
      { s with
        agentBoard := .fill .invalid
        humanBoard := .fill .invalid
        agentStoneId := []
        humanStoneId := [] }
    let x := (topCells S).foldl (fun (x : State S × Int) cell =>
      (x.1.placeStone .agent 1 cell x.2, x.2 + 1)) (s, 0)
    let x := (bottomCells S).foldl (fun (x : State S × Int) cell =>
      (x.1.placeStone .human (obHomeRow S) cell x.2, x.2 + 1)) x
    some
      { statics := T
        state :=
          { x.1 with
            noHomeAgent := 0
            noHomeHuman := 0
            playerToMove := (Player.random ω).1
            winner := .invalid
            lastMove := Move.root }
        id := x.2
        rng := (Player.random ω).2 }

-- ===================================================== searching moves

/-- `leftMove`; the location is in the player's perspective. -/
def leftMove (b : Board S) (c r : Int) : Move :=
  let player := b.at' (c + 1) (r + 1)
  if player = .vacant then ⟨⟨c, r⟩, ⟨c + 1, r + 1⟩⟩
  else if player = (b.at' c r).opponent ∧ b.at' (c + 2) (r + 2) = .vacant then
    ⟨⟨c, r⟩, ⟨c + 2, r + 2⟩⟩
  else Move.invalid

/-- `rightMove`; the location is in the player's perspective. -/
def rightMove (b : Board S) (c r : Int) : Move :=
  let player := b.at' (c - 1) (r + 1)
  if player = .vacant then ⟨⟨c, r⟩, ⟨c - 1, r + 1⟩⟩
  else if player = (b.at' c r).opponent ∧ b.at' (c - 2) (r + 2) = .vacant then
    ⟨⟨c, r⟩, ⟨c - 2, r + 2⟩⟩
  else Move.invalid

/-- `moves ( )`. With a winner the container is left as it is. -/
def State.moves (T : Statics S) (s : State S) (m : Moves Move (2 * S)) :
    Bool × Moves Move (2 * S) :=
  if s.winner.occupied then (false, m)
  else
    let pushMove := fun (m : Moves Move (2 * S)) (move : Move) =>
      if move ≠ Move.invalid then m.pushBack move else m
    let m := m.clear
    let m :=
      if s.playerToMove = .agent then
        s.agentStoneId.foldl (fun m id =>
          let l := T.idToLocation.at' id
          pushMove (pushMove m (leftMove s.agentBoard l.c l.r)) (rightMove s.agentBoard l.c l.r)) m
      else
        s.humanStoneId.foldl (fun m id =>
          let l := T.idToLocation.atR id
          pushMove (pushMove m (leftMove s.humanBoard l.c l.r)) (rightMove s.humanBoard l.c l.r)) m
    (m.size != 0, m)

/-- `hasMoves ( )`. -/
def State.hasMoves (T : Statics S) (s : State S) (p : Player) : Bool :=
  if p = .agent then
    s.agentStoneId.any fun id =>
      let l := T.idToLocation.at' id
      leftMove s.agentBoard l.c l.r != Move.invalid || rightMove s.agentBoard l.c l.r != Move.invalid
  else
    s.humanStoneId.any fun id =>
      let l := T.idToLocation.atR id
      leftMove s.humanBoard l.c l.r != Move.invalid || rightMove s.humanBoard l.c l.r != Move.invalid

-- ============================================================= verdict

/-- `notHaveStones ( )`. -/
def State.notHaveStones (s : State S) (p : Player) : Bool :=
  if p = .agent then s.agentStoneId.isEmpty else s.humanStoneId.isEmpty

/-- `haveRemainingHome ( )`. -/
def State.haveRemainingHome (s : State S) (p : Player) : Bool :=
  if p = .agent then s.noHomeAgent != 0 && s.noHomeAgent == s.agentStoneId.length
  else s.noHomeHuman != 0 && s.noHomeHuman == s.humanStoneId.length

/-- `playerMostHomeStones ( )`. -/
def State.playerMostHomeStones (s : State S) : Player :=
  if s.noHomeAgent > s.noHomeHuman then .agent
  else if s.noHomeAgent < s.noHomeHuman then .human
  else .vacant

/-- `winner ( )`, called before the player swap. -/
def State.setWinner (T : Statics S) (s : State S) : State S :=
  if s.haveRemainingHome s.playerToMove then
    { s with
      winner := if s.haveRemainingHome s.playerToMove.opponent then s.playerMostHomeStones
        else s.playerToMove }
  else if s.notHaveStones s.playerToMove.opponent then { s with winner := s.playerToMove }
  else if !s.hasMoves T s.playerToMove.opponent then
    { s with winner := s.playerToMove.opponent }
  else s

/-- `ended ( )`. -/
def State.ended (s : State S) : Option Player :=
  if s.winner = .invalid then Option.none else some s.winner

/-- `result ( )`. -/
def State.result (s : State S) (p : Player) : Int :=
  if s.winner = .vacant then 0 else if s.winner = p then 1 else -1

-- ============================================================== moving

/-- `moveStone ( )`. -/
def State.moveStone (T : Statics S) (s : State S) (p : Player) (m : Move) : State S :=
  if p = .agent then
    { s with
      agentBoard := (s.agentBoard.setAt m.mFrom.c m.mFrom.r .vacant).setAt m.mTo.c m.mTo.r .agent
      humanBoard := (s.humanBoard.setAtR m.mFrom.c m.mFrom.r .vacant).setAtR m.mTo.c m.mTo.r .agent
      agentStoneId := s.agentStoneId.replace (T.locationToId.at' m.mFrom.c m.mFrom.r)
        (T.locationToId.at' m.mTo.c m.mTo.r)
      noHomeAgent := s.noHomeAgent + if m.mTo.r = obHomeRow S then 1 else 0 }
  else
    { s with
      humanBoard := (s.humanBoard.setAt m.mFrom.c m.mFrom.r .vacant).setAt m.mTo.c m.mTo.r .human
      agentBoard := (s.agentBoard.setAtR m.mFrom.c m.mFrom.r .vacant).setAtR m.mTo.c m.mTo.r .human
      humanStoneId := s.humanStoneId.replace (T.locationToId.atR m.mFrom.c m.mFrom.r)
        (T.locationToId.atR m.mTo.c m.mTo.r)
      noHomeHuman := s.noHomeHuman + if m.mTo.r = obHomeRow S then 1 else 0 }

/-- `captureStone ( )`. -/
def State.captureStone (T : Statics S) (s : State S) (p : Player) (m : Move) : State S :=
  let captured := m.captured
  if p = .agent then
    { s with
      agentBoard := s.agentBoard.setAt captured.c captured.r .vacant
      humanBoard := s.humanBoard.setAtR captured.c captured.r .vacant
      humanStoneId := s.humanStoneId.filter (· ≠ T.locationToId.at' captured.c captured.r) }
  else
    { s with
      humanBoard := s.humanBoard.setAt captured.c captured.r .vacant
      agentBoard := s.agentBoard.setAtR captured.c captured.r .vacant
      agentStoneId := s.agentStoneId.filter (· ≠ T.locationToId.atR captured.c captured.r) }

/-- `moveStoneHash ( )`: `moveStone ( )`, and the two keys. -/
def State.moveStoneHash (T : Statics S) (s : State S) (p : Player) (m : Move) : State S :=
  let side := if p = .agent then 0 else 1
  { s.moveStone T p m with
    zobristHash := s.zobristHash ^^^ T.zobrist.keys.at' side m.mFrom.c m.mFrom.r
      ^^^ T.zobrist.keys.at' side m.mTo.c m.mTo.r }

/-- `captureStoneHash ( )`: `captureStone ( )`, and the key of the
captured stone in its owner's perspective. -/
def State.captureStoneHash (T : Statics S) (s : State S) (p : Player) (m : Move) : State S :=
  let captured := m.captured
  let side := if p = .agent then 1 else 0
  { s.captureStone T p m with
    zobristHash := s.zobristHash ^^^ T.zobrist.keys.at' side ((obCols S - 1) - captured.c)
      ((obRows S - 1) - captured.r) }

/-- `m_last_move`, `moveStoneHash ( )` and `captureStoneHash ( )`, with
which `move_hash ( )` and `move_hash_winner ( )` begin. -/
def State.playHash (T : Statics S) (s : State S) (m : Move) : State S :=
  let s := ({ s with lastMove := m } : State S).moveStoneHash T s.playerToMove m
  if m.isCapture then s.captureStoneHash T s.playerToMove m else s

/-- The same without the hash, with which `move_winner ( )` begins. -/
def State.place (T : Statics S) (s : State S) (m : Move) : State S :=
  let s := ({ s with lastMove := m } : State S).moveStone T s.playerToMove m
  if m.isCapture then s.captureStone T s.playerToMove m else s

/-- `m_player_to_move.next ( )`. -/
def State.next (s : State S) : State S := { s with playerToMove := s.playerToMove.opponent }

/-- `move_hash ( )`. -/
def moveHash (T : Statics S) (s : State S) (m : Move) : State S := (s.playHash T m).next

/-- `move_hash_winner ( )`. -/
def moveHashWinner (T : Statics S) (s : State S) (m : Move) : State S :=
  ((s.playHash T m).setWinner T).next

/-- `move_winner ( )`. -/
def moveWinner (T : Statics S) (s : State S) (m : Move) : State S :=
  ((s.place T m).setWinner T).next

/-- `zobrist ( )`. -/
def zobrist (T : Statics S) (s : State S) : UInt64 :=
  s.zobristHash ^^^ T.zobrist.playerKey s.playerToMove

/-- Oska as the search sees it. -/
abbrev game (T : Statics S) : Game where
  State := State S
  Move := Move
  maxNoMoves := 2 * S
  noneMove := Move.none
  zobrist := zobrist T
  moves := State.moves T
  playerJustMoved := fun s => s.playerToMove.opponent
  lastMove := State.lastMove
  moveHash := moveHash T
  moveHashWinner := moveHashWinner T
  moveWinner := moveWinner T
  ended := State.ended
  result := State.result
  Position := Board S × Player
  position := fun s => (s.agentBoard, s.playerToMove)

end Oska

end MctsConnectFour
