/-
The repository's older tree (old/stable_rooted_digraph-1.2.hpp), in its
non-locking variant.

Arcs and nodes live in two arenas and are named by their indices. The
in-arcs and the out-arcs of a node are singly linked lists threaded
through the arena of arcs; the node keeps the two ends of both. The root
has an arc of its own, from nowhere.

Invalid ids are `none`, and so is what an operation returns that follows
one. Indices are naturals here, without the bound of `rt::index_t`. The
loops along the lists carry fuel.
-/
import Mathlib.Data.List.Basic
import MctsConnectFour.Lib.While

namespace MctsConnectFour.Digraph

-- =============================================================== arenas

/-- `Arena < Type, false >`. -/
abbrev Arena (T : Type) : Type := List T

/-- `UnpaddedArcType`. -/
structure ArcType (A : Type) where
  source : Option Nat
  target : Nat
  nextIn : Option Nat
  nextOut : Option Nat
  data : A

/-- `UnpaddedNodeType`. -/
structure NodeType (N : Type) where
  headIn : Option Nat
  tailIn : Option Nat
  headOut : Option Nat
  tailOut : Option Nat
  data : N

/-- `Tree < ArcDataType, NodeDataType, false >`. -/
structure Tree (A N : Type) where
  arcs : Arena (ArcType A)
  nodes : Arena (NodeType N)
  rootArc : Nat
  rootNode : Nat

/-- `Link`. -/
structure Link where
  arc : Option Nat
  target : Nat
deriving DecidableEq, Repr

namespace Tree

variable {A N : Type}

-- ============================================================== reading

/-- `nodeNum ( )`. -/
def nodeNum (g : Tree A N) : Nat := g.nodes.length

/-- `arcNum ( )`. -/
def arcNum (g : Tree A N) : Nat := g.arcs.length

/-- `source ( a )`. -/
def source (g : Tree A N) (a : Nat) : Option Nat := g.arcs[a]?.bind ArcType.source

/-- `target ( a )`. -/
def target (g : Tree A N) (a : Nat) : Option Nat := g.arcs[a]?.map ArcType.target

/-- `m_arcs [ a ].next_in`. -/
def nextIn (g : Tree A N) (a : Nat) : Option Nat := g.arcs[a]?.bind ArcType.nextIn

/-- `m_arcs [ a ].next_out`. -/
def nextOut (g : Tree A N) (a : Nat) : Option Nat := g.arcs[a]?.bind ArcType.nextOut

/-- `m_nodes [ n ].head_in`. -/
def headIn (g : Tree A N) (n : Nat) : Option Nat := g.nodes[n]?.bind NodeType.headIn

/-- `m_nodes [ n ].tail_in`. -/
def tailIn (g : Tree A N) (n : Nat) : Option Nat := g.nodes[n]?.bind NodeType.tailIn

/-- `m_nodes [ n ].head_out`. -/
def headOut (g : Tree A N) (n : Nat) : Option Nat := g.nodes[n]?.bind NodeType.headOut

/-- `m_nodes [ n ].tail_out`. -/
def tailOut (g : Tree A N) (n : Nat) : Option Nat := g.nodes[n]?.bind NodeType.tailOut

-- ================================================================ roots

/-- `m_arcs [ root_arc ].setSourceTarget ( invalid_node, n )`. -/
def setRootArc (g : Tree A N) (n : Nat) : Tree A N :=
  { g with arcs := g.arcs.modify g.rootArc fun x => { x with source := none, target := n } }

/-- The constructor: a root and its arc. -/
def new [Inhabited A] [Inhabited N] : Tree A N where
  arcs := [⟨none, 0, none, none, default⟩]
  nodes := [⟨some 0, some 0, none, none, default⟩]
  rootArc := 0
  rootNode := 0

/-- `setRoot ( n )`. -/
def setRoot (g : Tree A N) (n : Nat) : Tree A N := setRootArc { g with rootNode := n } n

/-- `resetRoot ( )`. -/
def resetRoot (g : Tree A N) : Tree A N := setRootArc { g with rootNode := 0 } 0

/-- `clearUnsafe ( )`. Nothing of the old tree is left. -/
def clearUnsafe [Inhabited A] [Inhabited N] (_ : Tree A N) : Tree A N := new

-- =============================================================== adding

/-- `m_nodes [ t ].tail_in = m_arcs [ m_nodes [ t ].tail_in ].next_in = a`. -/
def linkIn (g : Tree A N) (t a : Nat) : Option (Tree A N) :=
  (g.tailIn t).map fun tail =>
    { g with
      arcs := g.arcs.modify tail fun x => { x with nextIn := some a }
      nodes := g.nodes.modify t fun x => { x with tailIn := some a } }

/-- The end of `addArcUnsafe ( )` and of `addNodeUnsafe ( )`: the arc `a`
goes to the end of the out-list of `s`. -/
def linkOut (g : Tree A N) (s a : Nat) : Option (Tree A N) :=
  if g.headOut s = none then
    some { g with
      nodes := g.nodes.modify s fun x => { x with headOut := some a, tailOut := some a } }
  else
    (g.tailOut s).map fun tail =>
      { g with
        arcs := g.arcs.modify tail fun x => { x with nextOut := some a }
        nodes := g.nodes.modify s fun x => { x with tailOut := some a } }

/-- `addArcUnsafe ( s, t, d )`. -/
def addArcUnsafe (g : Tree A N) (s t : Nat) (d : A) : Option (Tree A N × Link) :=
  let a := g.arcs.length
  let g : Tree A N := { g with arcs := g.arcs ++ [⟨some s, t, none, none, d⟩] }
  (g.linkIn t a).bind fun g => (g.linkOut s a).map fun g => (g, ⟨some a, t⟩)

/-- `addNodeUnsafe ( s, … )`: the arguments construct the data `d` of the
arc and the data `e` of the node. -/
def addNodeUnsafe (g : Tree A N) (s : Nat) (d : A) (e : N) : Option (Tree A N × Link) :=
  let a := g.arcs.length
  let t := g.nodes.length
  let g : Tree A N :=
    { g with
      arcs := g.arcs ++ [⟨some s, t, none, none, d⟩]
      nodes := g.nodes ++ [⟨some a, some a, none, none, e⟩] }
  (g.linkOut s a).map fun g => (g, ⟨some a, t⟩)

-- ============================================================ iterating

/-- `inArcNum ( n )`. -/
def inArcNum (g : Tree A N) (fuel n : Nat) : Option Nat :=
  (Loops.whileLoop (fun x : Option Nat × Nat => x.1.isSome)
    (fun x => x.1.map fun a => (g.nextIn a, x.2 + 1)) fuel (g.headIn n, 0)).map Prod.snd

/-- `outArcNum ( n )`. -/
def outArcNum (g : Tree A N) (fuel n : Nat) : Option Nat :=
  (Loops.whileLoop (fun x : Option Nat × Nat => x.1.isSome)
    (fun x => x.1.map fun a => (g.nextOut a, x.2 + 1)) fuel (g.headOut n, 0)).map Prod.snd

/-- `arc ( s, t )`: the loop is left at the first out-arc of `s` to `t`,
or at the end of the list. -/
def arc (g : Tree A N) (fuel s t : Nat) : Option (Option Nat) :=
  Loops.whileLoop (fun x : Option Nat => x.any fun a => !(g.target a == some t))
    (fun x => x.map g.nextOut) fuel (g.headOut s)

/-- `link ( s, t )`. -/
def link (g : Tree A N) (fuel s t : Nat) : Option Link :=
  (g.arc fuel s t).map fun a => ⟨a, t⟩

-- ================================================================= runs

/-- The operations that change a tree. -/
inductive Op (A N : Type) where
  | addNode (s : Nat) (d : A) (e : N)
  | addArc (s t : Nat) (d : A)
  | setRoot (n : Nat)
  | resetRoot
  | clear

/-- An operation names nodes that exist. -/
def Op.Valid (g : Tree A N) : Op A N → Prop
  | addNode s _ _ => s < g.nodeNum
  | addArc s t _ => s < g.nodeNum ∧ t < g.nodeNum
  | setRoot n => n < g.nodeNum
  | resetRoot => True
  | clear => True

variable [Inhabited A] [Inhabited N]

/-- An operation applied. -/
def step (g : Tree A N) : Op A N → Option (Tree A N)
  | .addNode s d e => (g.addNodeUnsafe s d e).map Prod.fst
  | .addArc s t d => (g.addArcUnsafe s t d).map Prod.fst
  | .setRoot n => some (g.setRoot n)
  | .resetRoot => some g.resetRoot
  | .clear => some g.clearUnsafe

/-- Every operation names nodes that exist when it is applied. -/
def ValidRun : Tree A N → List (Op A N) → Prop
  | _, [] => True
  | g, op :: ops => op.Valid g ∧ ∀ g', g.step op = some g' → ValidRun g' ops

/-- A sequence of operations applied. -/
def run (g : Tree A N) (ops : List (Op A N)) : Option (Tree A N) := ops.foldlM step g

/-- Where an operation sends the root arc; the others leave it where it
is. -/
def Op.sendsRoot (r : Nat) : Op A N → Nat
  | setRoot n => n
  | resetRoot => 0
  | clear => 0
  | _ => r

/-- Where a sequence of operations on a new tree sends the root arc. -/
def lastRoot (ops : List (Op A N)) : Nat := ops.foldl Op.sendsRoot 0

end Tree

end MctsConnectFour.Digraph
