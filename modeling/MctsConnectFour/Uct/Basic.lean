/-
The plain UCT search of python.py, and what it asks of a game.

A `Node` object is a cell of the list `Nodes`, and a reference to one its
index; the root is made first. `Clone ( )` copies the state the search
starts from, so that the states the loops move on are their own; a state
is a value here. Every step that can raise (a failing `assert`, an index
out of range, a division by zero, a logarithm of zero, a `remove` of what
is not there) returns `none` when it does, so `none` of `uct` at every
fuel is a call that raises.

The results are 0.0, 0.5 and 1.0, and sums of fewer than 2 ^ 52 of them
are exact in the arithmetic of the source; `wins` is a rational here. The
score the selection sorts by is computed with `Float`s from it. `verbose`
and the printing are left out.
-/
import Mathlib.Data.Rat.Defs
import MctsConnectFour.Globals
import MctsConnectFour.Lib.StableSort
import MctsConnectFour.Lib.While

namespace MctsConnectFour.Uct

open Loops (whileLoop)
open StableSort (sortedLast)

-- ======================================================= the interface

/-- The members of a `GameState` class. -/
structure GameState where
  State : Type
  Move : Type
  [decEqMove : DecidableEq Move]
  playerJustMoved : State → Int
  clone : State → State
  /-- `none` where an `assert` fails -/
  doMove : State → Move → Option State
  getMoves : State → List Move
  getResult : State → Int → Option Rat

instance (G : GameState) : DecidableEq G.Move := G.decEqMove

/-- `random.choice`: an `IndexError` on an empty list. -/
def choice {α : Type} (l : List α) (ω : Rng) : Option (α × Rng) :=
  l[(ω.uniform l.length).1]?.map fun x => (x, (ω.uniform l.length).2)

theorem mem_of_choice {α : Type} {l : List α} {ω : Rng} {x : α × Rng}
    (h : choice l ω = some x) : x.1 ∈ l := by
  obtain ⟨a, ha, rfl⟩ := Option.map_eq_some_iff.mp h
  exact List.mem_of_getElem? ha

theorem exists_choice {α : Type} {l : List α} (h : l ≠ []) (ω : Rng) :
    ∃ x, choice l ω = some x := by
  have hlt := ω.uniform_lt (List.length_pos_iff.mpr h)
  exact ⟨_, by rw [choice, List.getElem?_eq_getElem hlt]; rfl⟩

-- =============================================================== nodes

/-- `Node`. -/
structure Node (Move : Type) where
  move : Option Move
  parentNode : Option Nat
  childNodes : List Nat
  wins : Rat
  visits : Nat
  untriedMoves : List Move
  playerJustMoved : Int

/-- The nodes made so far. -/
abbrev Nodes (Move : Type) : Type := List (Node Move)

/-- `Node ( move, parent, state )`. -/
def Node.new {G : GameState} (move : Option G.Move) (parent : Option Nat) (state : G.State) :
    Node G.Move where
  move := move
  parentNode := parent
  childNodes := []
  wins := 0
  visits := 0
  untriedMoves := G.getMoves state
  playerJustMoved := G.playerJustMoved state

/-- `c.wins / c.visits + sqrt ( 2 * log ( self.visits ) / c.visits )`: a
`ZeroDivisionError` or a `ValueError` for zero. -/
def ucb1 (wins : Rat) (visits parentVisits : Nat) : Option Float :=
  if visits = 0 ∨ parentVisits = 0 then none
  else
    let w := Float.ofInt wins.num / Float.ofNat wins.den
    let n := Float.ofNat visits
    some (w / n + Float.sqrt (2 * Float.log (Float.ofNat parentVisits) / n))

section Members

variable {Move : Type}

/-- The child and its key, for `sorted`. -/
def keyOf (t : Nodes Move) (parentVisits c : Nat) : Option (Nat × Float) :=
  t[c]?.bind fun n => (ucb1 n.wins n.visits parentVisits).map fun score => (c, score)

/-- `UCTSelectChild ( )` of node `i`. -/
def uctSelectChild (t : Nodes Move) (i : Nat) : Option Nat :=
  t[i]?.bind fun self =>
    (self.childNodes.mapM (keyOf t self.visits)).bind fun keyed =>
      (sortedLast (· ≤ ·) Prod.snd keyed).map Prod.fst

/-- `Update ( result )` of node `i`. -/
def update (t : Nodes Move) (i : Nat) (result : Rat) : Nodes Move :=
  t.modify i fun n =>
    { n with
      visits := n.visits + 1
      wins := n.wins + result }

end Members

variable (G : GameState)

/-- `AddChild ( m, s )` of node `i`, with the child it returns. -/
def addChild (t : Nodes G.Move) (i : Nat) (m : G.Move) (s : G.State) :
    Option (Nodes G.Move × Nat) :=
  t[i]?.bind fun self =>
    if m ∈ self.untriedMoves then
      some (t.modify i (fun n =>
        { n with
          untriedMoves := n.untriedMoves.erase m
          childNodes := n.childNodes ++ [t.length] }) ++ [Node.new (some m) (some i) s], t.length)
    else none

-- =========================================================== the search

/-- `node.untriedMoves == [] and node.childNodes != []`. -/
def fullyExpanded (t : Nodes G.Move) (x : Nat × G.State) : Bool :=
  t[x.1]?.any fun n => n.untriedMoves.isEmpty && !n.childNodes.isEmpty

/-- One turn of the selection. -/
def selectStep (t : Nodes G.Move) (x : Nat × G.State) : Option (Nat × G.State) :=
  (uctSelectChild t x.1).bind fun c =>
    (t[c]?.bind Node.move).bind fun m => (G.doMove x.2 m).map fun s => (c, s)

/-- Select. -/
def select (fuel : Nat) (t : Nodes G.Move) (x : Nat × G.State) : Option (Nat × G.State) :=
  whileLoop (fullyExpanded G t) (selectStep G t) fuel x

/-- Expand. -/
def expand (t : Nodes G.Move) (x : Nat × G.State) (ω : Rng) :
    Option (Nodes G.Move × (Nat × G.State) × Rng) :=
  t[x.1]?.bind fun n =>
    if n.untriedMoves = [] then some (t, x, ω)
    else
      (choice n.untriedMoves ω).bind fun d =>
        (G.doMove x.2 d.1).bind fun s =>
          (addChild G t x.1 d.1 s).map fun added => (added.1, (added.2, s), d.2)

/-- One turn of the rollout. -/
def rolloutStep (x : G.State × Rng) : Option (G.State × Rng) :=
  (choice (G.getMoves x.1) x.2).bind fun d => (G.doMove x.1 d.1).map fun s => (s, d.2)

/-- Rollout. -/
def rollout (fuel : Nat) (s : G.State) (ω : Rng) : Option (G.State × Rng) :=
  whileLoop (fun x => !(G.getMoves x.1).isEmpty) (rolloutStep G) fuel (s, ω)

/-- One turn of the backpropagation. -/
def backpropagateStep (s : G.State) (x : Nodes G.Move × Option Nat) :
    Option (Nodes G.Move × Option Nat) :=
  x.2.bind fun i =>
    x.1[i]?.bind fun n =>
      (G.getResult s n.playerJustMoved).map fun r => (update x.1 i r, n.parentNode)

/-- Backpropagate. -/
def backpropagate (fuel : Nat) (s : G.State) (t : Nodes G.Move) (i : Nat) :
    Option (Nodes G.Move) :=
  (whileLoop (fun x => x.2.isSome) (backpropagateStep G s) fuel (t, some i)).map Prod.fst

/-- The body of the loop over the iterations. -/
def iteration (fuel : Nat) (rootstate : G.State) (t : Nodes G.Move) (ω : Rng) :
    Option (Nodes G.Move × Rng) :=
  (select G fuel t (0, G.clone rootstate)).bind fun x =>
    (expand G t x ω).bind fun e =>
      (rollout G fuel e.2.1.2 e.2.2).bind fun r =>
        (backpropagate G fuel r.1 e.1 e.2.1.1).map fun t' => (t', r.2)

/-- `for i in range ( itermax )`. -/
def iterations (fuel : Nat) (rootstate : G.State) :
    Nat → Nodes G.Move × Rng → Option (Nodes G.Move × Rng)
  | 0, x => some x
  | count + 1, x =>
      (iteration G fuel rootstate x.1 x.2).bind (iterations fuel rootstate count)

/-- The tree of a search, from `Node ( state = rootstate )`. -/
def search (fuel : Nat) (rootstate : G.State) (itermax : Nat) (ω : Rng) :
    Option (Nodes G.Move × Rng) :=
  iterations G fuel rootstate itermax ([Node.new none none rootstate], ω)

/-- A field of the node at a reference. -/
def view {Move β : Type} (f : Node Move → β) (d : β) (t : Nodes Move) (i : Nat) : β :=
  (t[i]?.map f).getD d

/-- `c.visits`. -/
def visitsOf {Move : Type} (t : Nodes Move) : Nat → Nat := view Node.visits 0 t

/-- `sorted ( rootnode.childNodes, key = lambda c: c.visits ) [ -1 ].move`;
the move of a child is never `None`. -/
def mostVisited {Move : Type} (t : Nodes Move) : Option Move :=
  t[0]?.bind fun root =>
    (sortedLast (· ≤ ·) (visitsOf t) root.childNodes).bind fun c => t[c]?.bind Node.move

/-- `UCT ( rootstate, itermax )`. -/
def uct (fuel : Nat) (rootstate : G.State) (itermax : Nat) (ω : Rng) :
    Option (G.Move × Rng) :=
  (search G fuel rootstate itermax ω).bind fun x =>
    (mostVisited x.1).map fun m => (m, x.2)

end MctsConnectFour.Uct
