/-
The search (mcts.hpp) over a game and a tree.

Pool pointers to move containers are options. Scores are single
precision floats and visits are counted without the bounds of
`std::int32_t`. The loops of the selection, of the playouts and of the
pruning carry fuel; `none` is a loop that ran out of it, or the use of an
id that is not valid. Random choices come from `Rng`.

What the three playouts of an iteration see is not kept by the program
but returned here (`Turn`), so that it can be spoken of: the moves played
from the state given to `compute` to the leaf, the leaf, the path, and
the final states with the trees before and after their results are
backed up.
-/
import MctsConnectFour.Game
import MctsConnectFour.Mcts.Table
import MctsConnectFour.SearchTree

namespace MctsConnectFour

-- ========================================================== arcs, nodes

/-- `ArcData`. -/
structure ArcData (G : Game) where
  move : G.Move

/-- `NodeData`. -/
structure NodeData (G : Game) where
  moves : Option (Moves G.Move G.maxNoMoves)
  score : Float32
  visits : Int
  playerJustMoved : Player

variable {G : Game}

instance : Inhabited (ArcData G) := ⟨⟨default⟩⟩

instance : Inhabited (NodeData G) := ⟨⟨none, 0, 0, .invalid⟩⟩

/-- `ArcData ( const State & )`. -/
def ArcData.ofState (s : G.State) : ArcData G := ⟨G.lastMove s⟩

namespace NodeData

/-- `NodeData ( const State & )`. -/
def ofState (s : G.State) : NodeData G where
  moves := if (G.moves s .new).1 then some (G.moves s .new).2 else none
  score := 0
  visits := 0
  playerJustMoved := G.playerJustMoved s

/-- `NodeData::getUntriedMove ( )`: the last move left is handed out
without a draw. It is called on nodes with a container only. -/
def getUntriedMove (d : NodeData G) (ω : Rng) : G.Move × NodeData G × Rng :=
  match d.moves with
  | none => (default, d, ω)
  | some c =>
      if c.size = 1 then (c.front, { d with moves := none }, ω)
      else ((c.draw ω).1, { d with moves := some (c.draw ω).2.1 }, (c.draw ω).2.2)

/-- `NodeData::operator +=`. -/
def add (d e : NodeData G) : NodeData G :=
  { d with score := d.score + e.score, visits := d.visits + e.visits }

/-- What `NodeData::operator = ( NodeData && )`, called on `d`, leaves in
its argument `e`: the containers are swapped. -/
def movedFrom (d e : NodeData G) : NodeData G := { e with moves := d.moves }

/-- The moves not tried yet. -/
def untried (d : NodeData G) : List G.Move :=
  match d.moves with
  | none => []
  | some c => c.toList

end NodeData

-- ================================================================= Mcts

/-- `Mcts`. A table that has not been allocated is empty. -/
structure Mcts (τ : Type) where
  tree : τ
  transpositionTable : TranspositionTable
  notInitialized : Bool
  path : List Link
  pathSize : Nat

/-- What one playout does: the tree before, the state in which it ends,
and the tree after the result has been backed up. -/
structure Playout (τ : Type) (G : Game) where
  before : τ
  simState : G.State
  after : τ

/-- One iteration of `compute`. -/
structure Turn (τ : Type) (G : Game) where
  /-- the moves that lead from the state given to `compute` to `leaf` -/
  line : List G.Move
  /-- `state` when the playouts start -/
  leaf : G.State
  /-- `m_path` when the playouts start -/
  path : List Link
  playouts : List (Playout τ G)
  mcts : Mcts τ
  rng : Rng

/-- What `compute` returns and leaves, and its iterations. -/
structure Computed (τ : Type) (G : Game) where
  move : G.Move
  mcts : Mcts τ
  rng : Rng
  turns : List (Turn τ G)

/-- The selection: where the walk from the root has got to. -/
structure Descent (G : Game) where
  state : G.State
  node : Nat
  path : List Link
  line : List G.Move
  rng : Rng

variable {τ : Type} [SearchTree τ (ArcData G) (NodeData G)]

open SearchTree

namespace Mcts

-- ------------------------------------------------------- initialisation

/-- A default constructed `Mcts`. -/
def new : Mcts τ where
  tree := SearchTree.new
  transpositionTable := .new
  notInitialized := true
  path := []
  pathSize := 0

variable (G)

/-- `initialize ( )`. -/
def initializeRoot (m : Mcts τ) (s : G.State) : Mcts τ where
  tree := setNode m.tree (rootNode m.tree) (NodeData.ofState s)
  transpositionTable := m.transpositionTable.emplace (G.zobrist s) (rootNode m.tree)
  notInitialized := false
  path := [⟨none, some (rootNode m.tree)⟩]
  pathSize := 1

/-- `addArc ( )`. -/
def addArc (m : Mcts τ) (parent child : Nat) (s : G.State) : Mcts τ × Link :=
  let (tree, arc) := SearchTree.addArc m.tree parent child (ArcData.ofState s)
  ({ m with tree := tree }, ⟨some arc, some child⟩)

/-- `addNode ( )`. -/
def addNode (m : Mcts τ) (parent : Nat) (s : G.State) : Mcts τ × Link :=
  let (tree, child) := SearchTree.addNode m.tree (NodeData.ofState s)
  let (m, link) := addArc G { m with tree := tree } parent child s
  ({ m with transpositionTable := m.transpositionTable.emplace (G.zobrist s) child }, link)

/-- `getNode ( )`. -/
def getNode (m : Mcts τ) (hash : UInt64) : Option Nat := m.transpositionTable.find hash

/-- `hasUntriedMoves ( )`. -/
def hasUntriedMoves (m : Mcts τ) (n : Nat) : Bool := (node m.tree n : NodeData G).moves.isSome

/-- `hasChildren ( )`. -/
def hasChildren (m : Mcts τ) (n : Nat) : Bool := isInternal m.tree n

/-- `addChild ( )`. -/
def addChild (m : Mcts τ) (parent : Nat) (s : G.State) : Mcts τ × Link :=
  match m.getNode (G.zobrist s) with
  | none => addNode G m parent s
  | some child => addArc G m parent child s

-- ------------------------------------------------------------ selection

/-- `getUCTFromNode ( )`. -/
def getUCTFromNode (t : τ) (parent child : Nat) : Float32 :=
  let p : NodeData G := node t parent
  let c : NodeData G := node t child
  c.score / Float32.ofInt c.visits
    + Float32.sqrt (4 * Float32.log (Float32.ofInt (p.visits + 1)) / Float32.ofInt c.visits)

/-- The best children so far, and their score. -/
def bestChildren (t : τ) (parent : Nat) (best : List (Nat × Nat) × Float32) (child : Nat × Nat) :
    List (Nat × Nat) × Float32 :=
  let score := getUCTFromNode G t parent child.2
  if score > best.2 then ([child], score)
  else if score == best.2 then (best.1 ++ [child], best.2)
  else best

/-- `selectChildUCT ( )`: an out-arc and its target. It is called on
nodes with children only. -/
def selectChildUCT (t : τ) (parent : Nat) (ω : Rng) : (Nat × Nat) × Rng :=
  match outArcs t parent with
  | [] => (default, ω)
  | a :: rest =>
      let best := (rest.foldl (bestChildren G t parent) ([a], getUCTFromNode G t parent a.2)).1
      if best.length = 1 then (best.getLast?.getD default, ω)
      else (best[(ω.uniform best.length).1]?.getD default, (ω.uniform best.length).2)

/-- One turn of the selection. -/
def selectChild (t : τ) (d : Descent G) : Descent G :=
  let (child, ω) := selectChildUCT G t d.node d.rng
  let move := (arc t child.1 : ArcData G).move
  { state := G.moveHash d.state move
    node := child.2
    path := d.path ++ [⟨some child.1, some child.2⟩]
    line := d.line ++ [move]
    rng := ω }

/-- `while ( hasNoUntriedMoves ( node ) and hasChildren ( node ) )`. -/
def descend (fuel : Nat) (m : Mcts τ) (s : G.State) (ω : Rng) : Option (Descent G) :=
  Loops.whileLoop (fun d => !hasUntriedMoves G m d.node && m.hasChildren G d.node)
    (fun d => some (selectChild G m.tree d)) fuel ⟨s, rootNode m.tree, m.path, [], ω⟩

/-- `if ( hasUntriedMoves ( node ) )`: try one. -/
def expand (m : Mcts τ) (d : Descent G) : Mcts τ × Descent G :=
  if hasUntriedMoves G m d.node then
    let (move, data, ω) := (node m.tree d.node : NodeData G).getUntriedMove d.rng
    let state := G.moveHashWinner d.state move
    let (m, link) := addChild G { m with tree := setNode m.tree d.node data } d.node state
    (m, { state := state
          node := d.node
          path := d.path ++ [link]
          line := d.line ++ [move]
          rng := ω })
  else (m, d)

-- ------------------------------------------------------------- playouts

/-- `updateData ( )`. -/
def updateData (s : G.State) (t : τ) (link : Link) : Option τ :=
  link.target.map fun n =>
    let d : NodeData G := node t n
    setNode t n { d with
      visits := d.visits + 1
      score := d.score + Float32.ofInt (G.result s d.playerJustMoved) }

/-- One playout, backed up along `path`. -/
def playout (fuel : Nat) (path : List Link) (leaf : G.State) (t : τ) (ω : Rng) :
    Option (Playout τ G × Rng) :=
  (G.simulate fuel leaf ω).bind fun sim =>
    (path.foldlM (updateData G sim.1) t).map fun t' => (⟨t, sim.1, t'⟩, sim.2)

/-- `count` playouts: what they do, the tree and the generator. -/
def playouts (fuel : Nat) (path : List Link) (leaf : G.State) :
    Nat → τ → Rng → Option (List (Playout τ G) × τ × Rng)
  | 0, t, ω => some ([], t, ω)
  | count + 1, t, ω =>
      (playout G fuel path leaf t ω).bind fun x =>
        (playouts fuel path leaf count x.1.after x.2).map fun y => (x.1 :: y.1, y.2)

/-- One iteration of `compute`. -/
def iteration (fuel : Nat) (m : Mcts τ) (s : G.State) (ω : Rng) : Option (Turn τ G) :=
  (descend G fuel m s ω).bind fun d =>
    let e := expand G m d
    (playouts G fuel e.2.path e.2.state 3 e.1.tree e.2.rng).map fun x =>
      { line := e.2.line
        leaf := e.2.state
        path := e.2.path
        playouts := x.1
        mcts := { e.1 with tree := x.2.1, path := List.takeD e.1.pathSize e.2.path default }
        rng := x.2.2 }

-- -------------------------------------------------------------- compute

/-- One child looked at by `getBestMove ( )`: the most visits so far,
the move and the link they belong to. -/
def mostVisits (t : τ) (best : Int × G.Move × Link) (child : Nat × Nat) : Int × G.Move × Link :=
  let visits := (node t child.2 : NodeData G).visits
  if visits > best.1 then (visits, (arc t child.1 : ArcData G).move, ⟨some child.1, some child.2⟩)
  else best

/-- `getBestMove ( )`: the move of the first child with the most visits,
whose link goes on the path; an invalid one when there is no child. -/
def getBestMove (m : Mcts τ) : G.Move × Mcts τ :=
  let best := (outArcs m.tree (rootNode m.tree)).foldl (mostVisits G m.tree)
    (-2147483648, G.noneMove, default)
  (best.2.1, { m with path := m.path ++ [best.2.2], pathSize := m.pathSize + 1 })

/-- `connectStatesPath ( )`. -/
def connectStatesPath (m : Mcts τ) (s : G.State) : Option (Mcts τ) :=
  (m.path.getLast?.bind Link.target).map fun parent =>
    let (m, child) :=
      match m.getNode (G.zobrist s) with
      | none => ((addNode G m parent s).1, nodeNum m.tree)
      | some child => (m, child)
    { m with path := m.path ++ [link m.tree parent child], pathSize := m.pathSize + 1 }

/-- What `compute ( )` does before its loop. -/
def begin (m : Mcts τ) (s : G.State) : Option (Mcts τ) :=
  if m.notInitialized then some (initializeRoot G m s) else connectStatesPath G m s

/-- `while ( max_iterations_-- > 0 )`. -/
def iterations (fuel : Nat) (s : G.State) :
    Nat → Mcts τ → Rng → Option (Mcts τ × Rng × List (Turn τ G))
  | 0, m, ω => some (m, ω, [])
  | maxIterations + 1, m, ω =>
      (iteration G fuel m s ω).bind fun turn =>
        (iterations fuel s maxIterations turn.mcts turn.rng).map fun x =>
          (x.1, x.2.1, turn :: x.2.2)

/-- `compute ( )`. -/
def compute (fuel : Nat) (m : Mcts τ) (s : G.State) (maxIterations : Nat) (ω : Rng) :
    Option (Computed τ G) :=
  (begin G m s).bind fun m =>
    (iterations G fuel s maxIterations m ω).map fun x =>
      { move := (getBestMove G x.1).1
        mcts := (getBestMove G x.1).2
        rng := x.2.1
        turns := x.2.2 }

-- ------------------------------------------------------ prune and reset

/-- The copying of `prune_impl ( )`: the tree copied from, whose data is
moved out node by node, the new tree, the new ids by old ones and the
stack, its top first. -/
structure Copy (τ : Type) where
  old : τ
  new : τ
  visited : Nat → Option Nat
  stack : List Nat

/-- The copying starts with the root. -/
def startCopy (old : τ) (oldNode : Nat) : Copy τ :=
  let new : τ := SearchTree.new
  let moved : NodeData G := node old oldNode
  { old := setNode old oldNode (NodeData.movedFrom (node new (rootNode new)) moved)
    new := setNode new (rootNode new) moved
    visited := fun n => if n = oldNode then some (rootNode new) else none
    stack := [oldNode] }

/-- One arc of the copying, from the node that is `newParent` in the new
tree. -/
def copyArc (newParent : Nat) (x : Copy τ) (a : Nat × Nat) : Copy τ :=
  let data : ArcData G := arc x.old a.1
  match x.visited a.2 with
  | some newChild => { x with new := (SearchTree.addArc x.new newParent newChild data).1 }
  | none =>
      let moved : NodeData G := node x.old a.2
      let (new, newChild) := SearchTree.addNode x.new moved
      { old := setNode x.old a.2 (NodeData.movedFrom default moved)
        new := (SearchTree.addArc new newParent newChild data).1
        visited := fun n => if n = a.2 then some newChild else x.visited n
        stack := a.2 :: x.stack }

/-- One turn of the copying: the arcs of the node on top of the stack. -/
def copyNode (x : Copy τ) : Option (Copy τ) :=
  match x.stack with
  | [] => none
  | parent :: stack =>
      (x.visited parent).map fun newParent =>
        (outArcs x.old parent).foldl (copyArc G newParent) { x with stack := stack }

/-- `prune_impl ( )`: the new `Mcts`. -/
def pruneImpl (fuel : Nat) (m : Mcts τ) (oldNode : Nat) : Option (Mcts τ) :=
  (Loops.whileLoop (fun x : Copy τ => !x.stack.isEmpty) (copyNode G) fuel
    (startCopy G m.tree oldNode)).map fun x =>
      { tree := x.new
        transpositionTable := m.transpositionTable.mapNodes x.visited
        notInitialized := false
        path := [⟨rootArc x.new, some (rootNode x.new)⟩]
        pathSize := 1 }

/-- `prune ( )`: the `Mcts` that takes the place of `m`. When `s` is not
in the tree this is the new one; what is initialised then is the old one,
which is deleted. -/
def prune (fuel : Nat) (m : Mcts τ) (s : G.State) : Option (Mcts τ) :=
  if m.notInitialized then some new
  else
    match m.getNode (G.zobrist s) with
    | none => some new
    | some oldNode => pruneImpl G fuel m oldNode

/-- `reset ( )`: the `Mcts` that takes the place of `m`. -/
def reset (m : Mcts τ) (s : G.State) : Mcts τ :=
  if m.notInitialized then m
  else
    match m.getNode (G.zobrist s) with
    | none => initializeRoot G new s
    | some newRoot => { m with tree := setRootNode m.tree newRoot }

-- ---------------------------------------------------------------- merge

/-- The walk of `merge ( )`: both trees, the target's table, the nodes
of the source visited so far and the queue. -/
structure Walk (τ : Type) where
  target : τ
  source : τ
  table : TranspositionTable
  visited : Nat → Bool
  queue : List Nat

/-- One out-arc of the walk, from the node that is `tSource` in the
target; `itt` is the inverse table of the source. `addNode ( parent )` is
read as adding a node and an arc to it. -/
def walkArc (itt : List UInt64) (tSource : Nat) (x : Walk τ) (a : Nat × Nat) : Walk τ :=
  if x.visited a.2 then x
  else
    let hash := itt[a.2]?.getD 0
    let x := { x with
      visited := fun n => n = a.2 || x.visited n
      queue := x.queue ++ [a.2] }
    let sArc : ArcData G := arc x.source a.1
    let sData : NodeData G := node x.source a.2
    match x.table.find hash with
    | some tTarget =>
        let target :=
          -- `ArcData::operator +=` changes nothing
          if (link x.target tSource tTarget).arc ≠ none then x.target
          else (SearchTree.addArc x.target tSource tTarget sArc).1
        { x with target := setNode target tTarget ((node target tTarget : NodeData G).add sData) }
    | none =>
        let (target, tTarget) := SearchTree.addNode x.target (default : NodeData G)
        let target := (SearchTree.addArc target tSource tTarget sArc).1
        { x with
          target := setNode target tTarget sData
          source := setNode x.source a.2 (NodeData.movedFrom default sData)
          table := x.table.emplace hash tTarget }

/-- One turn of the walk: the arcs of the node at the front. -/
def walkNode (itt : List UInt64) (x : Walk τ) : Option (Walk τ) :=
  match x.queue with
  | [] => none
  | sSource :: queue =>
      (x.table.find (itt[sSource]?.getD 0)).map fun tSource =>
        (outArcs x.source sSource).foldl (walkArc G itt tSource) { x with queue := queue }

/-- The merging of the smaller `s` into the larger `t`. -/
def mergeInto (fuel : Nat) (t s : Mcts τ) : Option (Mcts τ) :=
  (Loops.whileLoop (fun x : Walk τ => !x.queue.isEmpty)
    (walkNode G s.transpositionTable.invert) fuel
    { target := t.tree
      source := s.tree
      table := t.transpositionTable
      visited := fun n => n = rootNode s.tree
      queue := [rootNode s.tree] }).map fun x =>
        { t with
          tree := x.target
          transpositionTable := x.table
          path := List.takeD 1 t.path default
          pathSize := 1 }

/-- `merge ( )` of two distinct objects: the `Mcts` that is left. -/
def merge (fuel : Nat) (t s : Mcts τ) : Option (Mcts τ) :=
  if nodeNum t.tree < nodeNum s.tree then mergeInto G fuel s t else mergeInto G fuel t s

end Mcts

end MctsConnectFour
