/-
What the search asks of a game: the members of `State` that the
templates of mcts.hpp call. The two game classes are instances
(ConnectFour/Basic.lean, Oska/Basic.lean); the search is written once
over a `Game`.

Both classes spell `simulate` the same way, so it is one definition
here, over `moves` and `move_winner`.

# Runs

`Game.legal` is the list `moves ( )` hands out, empty when it returns
false. `Game.Run` is the state space a game's own invariants quantify
over: any mix of the three moving functions, each with a listed move.
`Game.LegalLine` is the stricter notion the search is judged by: every
move is listed in the position in which it is played, that position is
not finished, and the winner is kept up to date all along.
-/
import Mathlib.Data.List.Induction
import Mathlib.Data.Vector.Basic
import MctsConnectFour.Lib.While
import MctsConnectFour.Moves
import MctsConnectFour.MultiArray
import MctsConnectFour.Player

namespace MctsConnectFour

-- ======================================================= the hash keys

/-- The key tables of a game class: one key for every player and cell,
and one for each of the three players that can be the side of a
position. -/
structure ZobristTables (J K : Nat) where
  keys : MaCube UInt64 2 J K
  playerKeyValues : Vector UInt64 3

/-- `m_zobrist_player_keys [ p.as_index ( ) ]`: the table of three
values, addressed from its middle. -/
def ZobristTables.playerKey {J K : Nat} (Z : ZobristTables J K) (p : Player) : UInt64 :=
  readAt Z.playerKeyValues (1 + p.asIndex)

-- ======================================================= the interface

/-- The members of a `State` class used by the search. -/
structure Game where
  State : Type
  Move : Type
  [inhabitedMove : Inhabited Move]
  maxNoMoves : Nat
  /-- `State::Move::none` -/
  noneMove : Move
  zobrist : State → UInt64
  /-- `moves ( Moves * )`: the return value and the container as left. -/
  moves : State → Moves Move maxNoMoves → Bool × Moves Move maxNoMoves
  playerJustMoved : State → Player
  lastMove : State → Move
  moveHash : State → Move → State
  moveHashWinner : State → Move → State
  moveWinner : State → Move → State
  ended : State → Option Player
  /-- `result`, whose three values are integers. -/
  result : State → Player → Int
  /-- The stones on the board and the player to move, which is what a
  node of the search stands for. No member of the classes; statements
  are made with it. -/
  Position : Type
  position : State → Position

namespace Game

variable (G : Game)

instance : Inhabited G.Move := G.inhabitedMove

/-- `while ( moves ( & m ) ) move_winner ( m.random ( ) );`. The guard
fills the container the body draws from. -/
def simulate (fuel : Nat) (s : G.State) (ω : Rng) : Option (G.State × Rng) :=
  (Loops.whileLoop (fun x : G.State × Moves G.Move G.maxNoMoves × Rng => (G.moves x.1 x.2.1).1)
    (fun x =>
      let m := (G.moves x.1 x.2.1).2
      some (G.moveWinner x.1 (m.random x.2.2).1, m, (m.random x.2.2).2))
    fuel (s, .new, ω)).map fun x => (x.1, x.2.2)

/-- The moves `moves ( )` lists. -/
def legal (s : G.State) : List G.Move :=
  if (G.moves s .new).1 then (G.moves s .new).2.toList else []

-- ================================================================ runs

/-- The three ways of making a move. -/
inductive MoveOp where
  | moveHash
  | moveHashWinner
  | moveWinner
deriving DecidableEq, Repr

/-- Make a move in one of the three ways. -/
def apply : MoveOp → G.State → G.Move → G.State
  | .moveHash => G.moveHash
  | .moveHashWinner => G.moveHashWinner
  | .moveWinner => G.moveWinner

/-- The states reached from `s₀` by listed moves, made in any of the
ways `ops` allows. -/
inductive Run (ops : MoveOp → Prop) (s₀ : G.State) : G.State → Prop
  | start : Run ops s₀ s₀
  | move {s : G.State} (op : MoveOp) {m : G.Move} :
      Run ops s₀ s → ops op → m ∈ G.legal s → Run ops s₀ (G.apply op s m)

/-- The invariant rule of runs: what holds at the start and survives
every allowed move holds of every state reached. -/
theorem Run.invariant {G : Game} {ops : MoveOp → Prop} {s₀ s : G.State} {I : G.State → Prop}
    (hstart : I s₀)
    (hmove : ∀ (s : G.State) (op : MoveOp) (m : G.Move), I s → ops op → m ∈ G.legal s →
      I (G.apply op s m))
    (h : G.Run ops s₀ s) : I s := by
  induction h with
  | start => exact hstart
  | move _ _ hop hm ih => exact hmove _ _ _ ih hop hm

/-- A run with fewer ways of moving is a run with more. -/
theorem Run.mono {G : Game} {ops ops' : MoveOp → Prop} {s₀ s : G.State}
    (hops : ∀ op, ops op → ops' op) (h : G.Run ops s₀ s) : G.Run ops' s₀ s :=
  h.invariant .start fun _ op _ ih hop hm => .move op ih (hops op hop) hm

/-- When hash and winner are asked for after every move, or the winner
alone, the winner has followed every move. -/
theorem Run.winner_follows {G : Game} {s₀ s : G.State}
    (h : G.Run (fun op => op = .moveWinner ∨ op = .moveHashWinner) s₀ s) :
    G.Run (· ≠ .moveHash) s₀ s := by
  refine h.mono fun op hop => ?_
  rcases hop with rfl | rfl
  · exact nofun
  · exact nofun

/-- The same for the hash. -/
theorem Run.hash_follows {G : Game} {s₀ s : G.State}
    (h : G.Run (fun op => op = .moveHash ∨ op = .moveHashWinner) s₀ s) :
    G.Run (· ≠ .moveWinner) s₀ s := by
  refine h.mono fun op hop => ?_
  rcases hop with rfl | rfl
  · exact nofun
  · exact nofun

/-- A run goes on where another has ended. -/
theorem Run.trans {G : Game} {ops : MoveOp → Prop} {s₀ s t : G.State} (h : G.Run ops s₀ s)
    (h' : G.Run ops s t) : G.Run ops s₀ t :=
  h'.invariant h fun _ op _ ih hop hm => .move op ih hop hm

/-- Make a list of moves, each in its own way. -/
def perform (s : G.State) (line : List (MoveOp × G.Move)) : G.State :=
  line.foldl (fun s x => G.apply x.1 s x.2) s

/-- Every move of the list is listed where it is made. -/
def ListedLine : G.State → List (MoveOp × G.Move) → Prop
  | _, [] => True
  | s, x :: line => x.2 ∈ G.legal s ∧ ListedLine (G.apply x.1 s x.2) line

/-- Play a list of moves, keeping hash and winner up to date. -/
def play (s : G.State) (ms : List G.Move) : G.State := ms.foldl G.moveHashWinner s

/-- Every move of the list is listed in the unfinished position in
which it is played. -/
def LegalLine : G.State → List G.Move → Prop
  | _, [] => True
  | s, m :: ms => G.ended s = none ∧ m ∈ G.legal s ∧ LegalLine (G.moveHashWinner s m) ms

instance decidableLegalLine [DecidableEq G.Move] :
    ∀ (s : G.State) (ms : List G.Move), Decidable (G.LegalLine s ms)
  | _, [] => isTrue trivial
  | s, m :: ms =>
      haveI := decidableLegalLine (G.moveHashWinner s m) ms
      inferInstanceAs (Decidable (_ ∧ _ ∧ _))

@[simp] theorem play_nil (s : G.State) : G.play s [] = s := rfl

@[simp] theorem play_cons (s : G.State) (m : G.Move) (ms : List G.Move) :
    G.play s (m :: ms) = G.play (G.moveHashWinner s m) ms := rfl

theorem play_append (s : G.State) (ms ms' : List G.Move) :
    G.play s (ms ++ ms') = G.play (G.play s ms) ms' := List.foldl_append ..

theorem play_concat (s : G.State) (ms : List G.Move) (m : G.Move) :
    G.play s (ms ++ [m]) = G.moveHashWinner (G.play s ms) m := by
  rw [play_append]
  rfl

/-- A line is legal when its first part is and its second part is from
where the first part leads. -/
theorem legalLine_append (s : G.State) (ms ms' : List G.Move) :
    G.LegalLine s (ms ++ ms') ↔ G.LegalLine s ms ∧ G.LegalLine (G.play s ms) ms' := by
  induction ms generalizing s with
  | nil => simp [LegalLine]
  | cons m ms ih =>
      simp only [List.cons_append, LegalLine, play_cons, ih]
      tauto

/-- A position that is played to from `s₀` by a legal line is reached
by a run that keeps hash and winner up to date. -/
theorem run_play {G : Game} {s₀ : G.State} {ms : List G.Move} (h : G.LegalLine s₀ ms) :
    G.Run (· = .moveHashWinner) s₀ (G.play s₀ ms) := by
  induction ms using List.reverseRecOn with
  | nil => exact .start
  | append_singleton ms m ih =>
      rw [legalLine_append] at h
      rw [play_concat]
      exact .move .moveHashWinner (ih h.1) rfl h.2.2.1

end Game

end MctsConnectFour
