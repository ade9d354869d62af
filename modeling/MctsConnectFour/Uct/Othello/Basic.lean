/-
`OthelloState`: Othello on a square board of any even size, where the game
ends as soon as the player about to move cannot.

A square is a pair of integers, as in the source, which steps off the
board and asks `IsOnBoard ( )` before it reads. The `while` of
`SandwichedCounters ( )` takes fewer steps than the board has rows
(`walk_spec`, Othello/Sandwich.lean), which is its fuel.
-/
import Mathlib.Data.Rat.Defs
import MctsConnectFour.Lib.Tally
import MctsConnectFour.Uct.Basic

namespace MctsConnectFour.Uct.Othello

open Loops (whileLoop)

/-- A square, or a place beside the board. -/
abbrev Square : Type := Int × Int

/-- `board [ x ] [ y ]`. -/
def getCell {n : Nat} (b : Vector (Vector Int n) n) (c : Square) : Int :=
  (b[c.1.toNat]?.bind fun row => row[c.2.toNat]?).getD 0

/-- `board [ x ] [ y ] = v`. -/
def putCell {n : Nat} (b : Vector (Vector Int n) n) (c : Square) (v : Int) :
    Vector (Vector Int n) n :=
  match b[c.1.toNat]? with
  | some row => b.setIfInBounds c.1.toNat (row.setIfInBounds c.2.toNat v)
  | none => b

/-- `OthelloState`. -/
structure OthelloState where
  playerJustMoved : Int
  size : Nat
  board : Vector (Vector Int size) size

/-- The eight directions, in the order of the source. -/
def directions : List (Int × Int) :=
  [(0, 1), (1, 1), (1, 0), (1, -1), (0, -1), (-1, -1), (-1, 0), (-1, 1)]

/-- `x += dx; y += dy`. -/
def step (c : Square) (d : Int × Int) : Square := (c.1 + d.1, c.2 + d.2)

namespace OthelloState

variable (s : OthelloState)

/-- `IsOnBoard ( x, y )`. -/
def isOnBoard (c : Square) : Bool := c.1 ≥ 0 && c.1 < s.size && c.2 ≥ 0 && c.2 < s.size

/-- `board [ x ] [ y ]`; the source reads no place beside the board. -/
def cell (c : Square) : Int := if s.isOnBoard c then getCell s.board c else 0

/-- `board [ x ] [ y ] = v`. -/
def setCell (c : Square) (v : Int) : OthelloState where
  playerJustMoved := s.playerJustMoved
  size := s.size
  board := putCell s.board c v

/-- `for x in range ( size ) for y in range ( size )`. -/
def squares : List Square :=
  (List.range s.size).flatMap fun (x : Nat) =>
    (List.range s.size).map fun (y : Nat) => ((x : Int), (y : Int))

/-- A counter of the player who has just moved. -/
def isEnemy (c : Square) : Bool := s.isOnBoard c && s.cell c == s.playerJustMoved

/-- A counter of the player to move. -/
def isOwn (c : Square) : Bool := s.isOnBoard c && s.cell c == 3 - s.playerJustMoved

/-- The loop of `SandwichedCounters ( )`: the place it has come to, and
what it has passed. -/
def walk (c : Square) (d : Int × Int) : Option (Square × List Square) :=
  whileLoop (fun x => s.isEnemy x.1) (fun x => some (step x.1 d, x.2 ++ [x.1]))
    s.size (step c d, [])

/-- `SandwichedCounters ( x, y, dx, dy )`. -/
def sandwichedCounters (c : Square) (d : Int × Int) : List Square :=
  match s.walk c d with
  | some x => if s.isOwn x.1 then x.2 else []
  | none => []

/-- `AdjacentEnemyDirections ( x, y )`. -/
def adjacentEnemyDirections (c : Square) : List (Int × Int) :=
  directions.filter fun d => s.isEnemy (step c d)

/-- `ExistsSandwichedCounter ( x, y )`. -/
def existsSandwichedCounter (c : Square) : Bool :=
  (s.adjacentEnemyDirections c).any fun d => (s.sandwichedCounters c d).length > 0

/-- `GetAllSandwichedCounters ( x, y )`. -/
def getAllSandwichedCounters (c : Square) : List Square :=
  (s.adjacentEnemyDirections c).flatMap (s.sandwichedCounters c)

/-- `DoMove ( move )`. -/
def doMove (move : Square) : Option OthelloState :=
  if s.isOnBoard move && s.cell move == 0 then
    let m := s.getAllSandwichedCounters move
    let mover := 3 - s.playerJustMoved
    let placed := { s with playerJustMoved := mover }.setCell move mover
    some (m.foldl (fun s c => s.setCell c mover) placed)
  else none

/-- `GetMoves ( )`. -/
def getMoves : List Square :=
  s.squares.filter fun c => s.cell c == 0 && s.existsSandwichedCounter c

/-- `len ( [ ( x, y ) ... if board [ x ] [ y ] == v ] )`. -/
def count (v : Int) : Nat := Tallies.tally s.cell s.squares v

/-- `GetResult ( playerjm )`. -/
def getResult (playerjm : Int) : Option Rat :=
  let jmcount := s.count playerjm
  let notjmcount := s.count (3 - playerjm)
  some (if jmcount > notjmcount then 1 else if notjmcount > jmcount then 0 else 1 / 2)

/-- `Clone ( )`. -/
def clone : OthelloState where
  playerJustMoved := s.playerJustMoved
  size := s.size
  board := Vector.ofFn fun i => s.board[i]

/-- A board with the first four counters in the middle. -/
def start (sz : Nat) : OthelloState :=
  let empty : OthelloState := {
    playerJustMoved := 2
    size := sz
    board := .replicate sz (.replicate sz 0) }
  let h : Int := sz / 2
  (((empty.setCell (h, h) 1).setCell (h - 1, h - 1) 1).setCell (h, h - 1) 2).setCell (h - 1, h) 2

/-- `OthelloState ( sz )`. A board without rows has no middle to put the
first counters on. -/
def new (sz : Nat) : Option OthelloState :=
  if sz % 2 = 0 ∧ sz ≠ 0 then some (start sz) else none

end OthelloState

/-- The class as the search uses it. -/
def othello : GameState where
  State := OthelloState
  Move := Square
  playerJustMoved := OthelloState.playerJustMoved
  clone := OthelloState.clone
  doMove := OthelloState.doMove
  getMoves := OthelloState.getMoves
  getResult := OthelloState.getResult

open OthelloState in
example : ((new 4).map getMoves) = some [(0, 2), (1, 3), (2, 0), (3, 1)] := by decide

end MctsConnectFour.Uct.Othello
