/-
Walking the lists of the older tree while threads add to it
(old/stable_rooted_digraph-1.2.hpp, `ArcIt_ < I, L >`).

An iterator has the lock of the arc it is at, for reading (`RdInIt`,
`RdOutIt`) or for writing (`WrInIt`, `WrOutIt`), while its client looks at
the arc. `operator ++` reads the link to the next arc, gives the lock
back, and waits for the lock of that arc. The constructor reads the head
of the list, with no lock, and waits for that of the first arc.

As for the threads that add (`World`), a step is one access to what is
shared. An arc has one lock: for writing it is taken when neither a thread
that adds nor an iterator has it, for reading when no thread that adds and
no iterator that writes has it. And a thread that adds waits for iterators
as well (`Shared.goAdd`).

What an iterator has had is kept here for the statements; the source keeps
the arc only.
-/
import Mathlib.Data.Finset.Erase
import Mathlib.Data.Finset.Insert
import Mathlib.Logic.Relation
import MctsConnectFour.Digraph.Locking

namespace MctsConnectFour.Digraph.Tree

variable {A N : Type}

-- =========================================================== iterators

/-- `LockType`. -/
inductive LockType where
  | read
  | write
deriving DecidableEq

/-- Where an iterator is. -/
inductive ItPc where
  /-- waits for the lock of the next arc -/
  | wants (b : Nat)
  /-- is at an arc -/
  | has (a : Nat)
  /-- in `operator ++`, has read the link and is about to unlock the arc -/
  | leaves (a : Nat) (next : Option Nat)
  /-- is at `invalid_arc` -/
  | ended
deriving DecidableEq

/-- On to the next arc, if there is one. -/
def ItPc.towards : Option Nat → ItPc
  | none => ended
  | some b => wants b

/-- `ArcIt_`, on a list of a node, and the arcs it has had. -/
structure ArcIt where
  lockType : LockType
  list : ItType
  node : Nat
  had : List Nat
  pc : ItPc

-- ============================================================== shared

/-- A tree, threads that add to it, and iterators; `writer` and `readers`
are the iterators that have the lock of an arc. -/
structure Shared (τ ρ A N : Type) where
  world : World τ A N
  it : ρ → Option ArcIt
  writer : Nat → Option ρ
  readers : Nat → Finset ρ

namespace Shared

variable {τ ρ : Type}

/-- Nobody has begun. -/
def start (g : Tree A N) : Shared τ ρ A N where
  world := .start g
  it := fun _ => none
  writer := fun _ => none
  readers := fun _ => ∅

variable [DecidableEq ρ]

def goTo (x : Shared τ ρ A N) (r : ρ) (it : ArcIt) : Shared τ ρ A N :=
  { x with it := Function.update x.it r (some it) }

/-- The constructor. -/
def construct (x : Shared τ ρ A N) (r : ρ) (T : LockType) (I : ItType) (n : Nat) :
    Option (Shared τ ρ A N) :=
  match x.it r with
  | none => some (x.goTo r ⟨T, I, n, [], .towards (x.world.tree.head I n)⟩)
  | some _ => none

/-- `lock ( b )` and `lockRead ( b )`, when the lock can be taken. -/
def lock (x : Shared τ ρ A N) (r : ρ) (b : Nat) : LockType → Option (Shared τ ρ A N)
  | .write =>
      if x.world.arcLock b = none ∧ x.writer b = none ∧ x.readers b = ∅ then
        some { x with writer := Function.update x.writer b (some r) }
      else none
  | .read =>
      if x.world.arcLock b = none ∧ x.writer b = none then
        some { x with readers := Function.update x.readers b (insert r (x.readers b)) }
      else none

/-- `unlock ( a )` and `unlockRead ( a )`. -/
def unlock (x : Shared τ ρ A N) (r : ρ) (a : Nat) : LockType → Shared τ ρ A N
  | .write => { x with writer := Function.update x.writer a none }
  | .read => { x with readers := Function.update x.readers a ((x.readers a).erase r) }

/-- A step of an iterator, if it can be made; from an arc it is the first
of `operator ++`. -/
def goIt (x : Shared τ ρ A N) (r : ρ) : Option (Shared τ ρ A N) :=
  match x.it r with
  | none => none
  | some it =>
    match it.pc with
    | .wants b =>
        (x.lock r b it.lockType).map fun x =>
          x.goTo r { it with had := it.had ++ [b], pc := .has b }
    | .has a => some (x.goTo r { it with pc := .leaves a (x.world.tree.getNext it.list a) })
    | .leaves a next => some ((x.unlock r a it.lockType).goTo r { it with pc := .towards next })
    | .ended => none

variable [DecidableEq τ]

/-- A step of a thread that adds, if it can be made. -/
def goAdd (x : Shared τ ρ A N) (i : τ) : Option (Shared τ ρ A N) :=
  match x.world.thread i with
  | .append _ _ _ _ _ (.tail b) =>
      if x.writer b = none ∧ x.readers b = ∅ then
        (x.world.go i).map fun w => { x with world := w }
      else none
  | _ => (x.world.go i).map fun w => { x with world := w }

/-- A step of somebody. What is added and what is walked are at nodes that
exist. -/
inductive Step (x : Shared τ ρ A N) : Shared τ ρ A N → Prop
  | begin {i : τ} {y : Add A N} {w' : World τ A N} (hy : y.Valid x.world.tree)
      (hbegin : x.world.begin i y = some w') : Step x { x with world := w' }
  | goAdd {i : τ} {x' : Shared τ ρ A N} (hgo : x.goAdd i = some x') : Step x x'
  | construct {r : ρ} {T : LockType} {I : ItType} {n : Nat} {x' : Shared τ ρ A N}
      (hn : n < x.world.tree.nodeNum) (hnew : x.construct r T I n = some x') : Step x x'
  | goIt {r : ρ} {x' : Shared τ ρ A N} (hgo : x.goIt r = some x') : Step x x'

/-- Steps of any of them, in any order. -/
def Leads : Shared τ ρ A N → Shared τ ρ A N → Prop := Relation.ReflTransGen Step

end Shared

end MctsConnectFour.Digraph.Tree
