/-
Adding to the older tree from several threads
(old/stable_rooted_digraph-1.2.hpp, `Tree < A, N, true >`).

Here every arc and every node has a lock. `addArc ( )` puts its arc in the
arena, then appends it to the in-list of its target and to the out-list of
its source; `addNode ( )` makes an arc that is locked, a node whose in-list
is that arc, and appends the arc to the out-list of its source. To append
is to lock the node, to lock the arc at the end of the list, to link that
arc to the new one, and to move the end.

A thread is where it is in this code (`Thread`), and a step of it
(`World.go`) is one access to what the threads share: the lock of an arc
or a node taken or given back, a field read or written, an element
appended to an arena. The steps of the threads come in any order. A lock
(`SRWLock`) excludes every other thread, and its own as well; appending to
a `tbb::concurrent_vector` is one step and moves nothing.

The iterators, which lock for their client, are in
Digraph/Iterators.lean.
-/
import MctsConnectFour.Digraph.Queueing
import MctsConnectFour.Digraph.Payload
import MctsConnectFour.Lib.Locks

namespace MctsConnectFour.Digraph.Tree

variable {A N : Type} {g : Tree A N} {I : ItType} {a b n : Nat}

-- ============================================================== writing

/-- `tail_in` or `tail_out` of a node. -/
def tail (g : Tree A N) (I : ItType) (n : Nat) : Option Nat :=
  if I = .ins then g.tailIn n else g.tailOut n

/-- `next_in` or `next_out` of an arc is set. -/
def setNext (g : Tree A N) (I : ItType) (b a : Nat) : Tree A N :=
  { g with
    arcs := g.arcs.modify b fun x =>
      if I = .ins then { x with nextIn := some a } else { x with nextOut := some a } }

/-- `tail_in` or `tail_out` of a node is set. -/
def setTail (g : Tree A N) (I : ItType) (n a : Nat) : Tree A N :=
  { g with
    nodes := g.nodes.modify n fun x =>
      if I = .ins then { x with tailIn := some a } else { x with tailOut := some a } }

/-- `head_out` of a node is set. -/
def setHeadOut (g : Tree A N) (n a : Nat) : Tree A N :=
  { g with nodes := g.nodes.modify n fun x => { x with headOut := some a } }

/-- `m_arcs.emplace_back ( … )`. -/
def emplaceArc (g : Tree A N) (x : ArcType A) : Tree A N := { g with arcs := g.arcs ++ [x] }

/-- `m_nodes.emplace_back ( false, a, … )`. -/
def emplaceNode (g : Tree A N) (a : Nat) (e : N) : Tree A N :=
  { g with nodes := g.nodes ++ [⟨some a, some a, none, none, e⟩] }

/-- `setSourceTarget ( s, t )`. -/
def setSourceTarget (g : Tree A N) (a s t : Nat) : Tree A N :=
  { g with arcs := g.arcs.modify a fun x => { x with source := some s, target := t } }

-- ===================================================== what is written

theorem getNext_eq (g : Tree A N) (J : ItType) (c : Nat) :
    g.getNext J c = g.arcs[c]?.bind fun x => if J = .ins then x.nextIn else x.nextOut := by
  cases J <;> rfl

theorem tail_eq (g : Tree A N) (J : ItType) (k : Nat) :
    g.tail J k = g.nodes[k]?.bind fun x => if J = .ins then x.tailIn else x.tailOut := by
  cases J <;> rfl

theorem head_eq (g : Tree A N) (J : ItType) (k : Nat) :
    g.head J k = g.nodes[k]?.bind fun x => if J = .ins then x.headIn else x.headOut := by
  cases J <;> rfl

/-- A link is set. -/
theorem getNext_setNext (hb : b < g.arcNum) (J : ItType) (c : Nat) :
    (g.setNext I b a).getNext J c = if J = I ∧ c = b then some a else g.getNext J c := by
  rw [getNext_eq, getNext_eq]
  by_cases hJ : J = I
  · subst hJ
    rw [setNext, bind_modify_set _ hb c (v := some a) fun x => by cases J <;> rfl]
    simp
  · rw [setNext, bind_modify _ c fun x => by
      cases I <;> cases J <;> first | rfl | exact absurd rfl hJ, if_neg fun h => hJ h.1]

theorem source_setNext (c : Nat) : (g.setNext I b a).source c = g.source c :=
  bind_modify _ c fun x => by cases I <;> rfl

theorem target_setNext (c : Nat) : (g.setNext I b a).target c = g.target c :=
  map_modify _ c fun x => by cases I <;> rfl

theorem arcData_setNext (c : Nat) : (g.setNext I b a).arcData c = g.arcData c :=
  map_modify _ c fun x => by cases I <;> rfl

theorem arcNum_setNext : (g.setNext I b a).arcNum = g.arcNum := List.length_modify ..

/-- The end of a list is set. -/
theorem tail_setTail (hn : n < g.nodeNum) (J : ItType) (k : Nat) :
    (g.setTail I n a).tail J k = if J = I ∧ k = n then some a else g.tail J k := by
  rw [tail_eq, tail_eq]
  by_cases hJ : J = I
  · subst hJ
    rw [setTail, bind_modify_set _ hn k (v := some a) fun x => by cases J <;> rfl]
    simp
  · rw [setTail, bind_modify _ k fun x => by
      cases I <;> cases J <;> first | rfl | exact absurd rfl hJ, if_neg fun h => hJ h.1]

theorem head_setTail (J : ItType) (k : Nat) : (g.setTail I n a).head J k = g.head J k := by
  rw [head_eq, head_eq]
  exact bind_modify _ k fun x => by cases I <;> rfl

theorem nodeData_setTail (k : Nat) : (g.setTail I n a).nodeData k = g.nodeData k :=
  map_modify _ k fun x => by cases I <;> rfl

theorem nodeNum_setTail : (g.setTail I n a).nodeNum = g.nodeNum := List.length_modify ..

/-- The front of an out-list is set. -/
theorem head_setHeadOut (hn : n < g.nodeNum) (J : ItType) (k : Nat) :
    (g.setHeadOut n a).head J k = if J = .outs ∧ k = n then some a else g.head J k := by
  rw [head_eq, head_eq]
  cases J with
  | ins =>
      rw [if_neg (by simp)]
      exact bind_modify _ k fun _ => rfl
  | outs =>
      rw [setHeadOut, bind_modify_set _ hn k (v := some a) fun _ => rfl]
      simp

theorem tail_setHeadOut (J : ItType) (k : Nat) : (g.setHeadOut n a).tail J k = g.tail J k := by
  rw [tail_eq, tail_eq]
  exact bind_modify _ k fun _ => rfl

theorem nodeData_setHeadOut (k : Nat) : (g.setHeadOut n a).nodeData k = g.nodeData k :=
  map_modify _ k fun _ => rfl

theorem nodeNum_setHeadOut : (g.setHeadOut n a).nodeNum = g.nodeNum := List.length_modify ..

/-- An arc with no links is put in the arena. -/
theorem getNext_emplaceArc {x : ArcType A} (hin : x.nextIn = none) (hout : x.nextOut = none)
    (J : ItType) (c : Nat) : (g.emplaceArc x).getNext J c = g.getNext J c := by
  rw [getNext_eq, getNext_eq, emplaceArc, bind_append, hin, hout]
  by_cases hc : c = g.arcs.length
  · rw [if_pos hc, List.getElem?_eq_none hc.ge]
    cases J <;> rfl
  · rw [if_neg hc]

theorem source_emplaceArc (x : ArcType A) (c : Nat) :
    (g.emplaceArc x).source c = if c = g.arcNum then x.source else g.source c :=
  bind_append ..

theorem target_emplaceArc (x : ArcType A) (c : Nat) :
    (g.emplaceArc x).target c = if c = g.arcNum then some x.target else g.target c :=
  map_append ..

theorem arcData_emplaceArc (x : ArcType A) (c : Nat) :
    (g.emplaceArc x).arcData c = if c = g.arcNum then some x.data else g.arcData c :=
  map_append ..

theorem arcNum_emplaceArc (x : ArcType A) : (g.emplaceArc x).arcNum = g.arcNum + 1 :=
  List.length_append

/-- A node is put in the arena. -/
theorem head_emplaceNode (e : N) (J : ItType) (k : Nat) : (g.emplaceNode a e).head J k
    = if k = g.nodeNum then (if J = .ins then some a else none) else g.head J k := by
  rw [head_eq, head_eq, emplaceNode, bind_append]
  rfl

theorem tail_emplaceNode (e : N) (J : ItType) (k : Nat) : (g.emplaceNode a e).tail J k
    = if k = g.nodeNum then (if J = .ins then some a else none) else g.tail J k := by
  rw [tail_eq, tail_eq, emplaceNode, bind_append]
  rfl

theorem nodeData_emplaceNode (e : N) (k : Nat) : (g.emplaceNode a e).nodeData k
    = if k = g.nodeNum then some e else g.nodeData k :=
  map_append ..

theorem nodeNum_emplaceNode (e : N) : (g.emplaceNode a e).nodeNum = g.nodeNum + 1 :=
  List.length_append

/-- An arc is given its ends. -/
theorem getNext_setSourceTarget (s t : Nat) (J : ItType) (c : Nat) :
    (g.setSourceTarget a s t).getNext J c = g.getNext J c := by
  rw [getNext_eq, getNext_eq]
  exact bind_modify _ c fun _ => rfl

theorem source_setSourceTarget (ha : a < g.arcNum) (s t c : Nat) :
    (g.setSourceTarget a s t).source c = if c = a then some s else g.source c :=
  bind_modify_set _ ha c fun _ => rfl

theorem target_setSourceTarget (ha : a < g.arcNum) (s t c : Nat) :
    (g.setSourceTarget a s t).target c = if c = a then some t else g.target c :=
  map_modify_set _ ha c fun _ => rfl

theorem arcData_setSourceTarget (s t c : Nat) :
    (g.setSourceTarget a s t).arcData c = g.arcData c :=
  map_modify _ c fun _ => rfl

theorem arcNum_setSourceTarget (s t : Nat) : (g.setSourceTarget a s t).arcNum = g.arcNum :=
  List.length_modify ..

-- ============================================================== threads

/-- Where an append is, in the order of the source. -/
inductive Pc where
  /-- waits for the lock of the node -/
  | node
  /-- reads the ends of the list -/
  | ends
  /-- waits for the lock of the arc at the end -/
  | tail (b : Nat)
  /-- links that arc to the new one -/
  | next (b : Nat)
  /-- moves the end of the list -/
  | last (b : Nat)
  /-- gives back the lock of the arc that was at the end -/
  | unlockArc (b : Nat)
  /-- the list is empty: sets one end -/
  | first
  /-- sets the other end -/
  | second
  /-- gives back the lock of the node -/
  | unlockNode
deriving DecidableEq

/-- Where a thread is. -/
inductive Thread (N : Type) where
  | idle
  /-- in `addNode ( )`, about to make the node -/
  | makeNode (s a : Nat) (e : N)
  /-- in `addNode ( )`, about to give the arc its ends -/
  | setEnds (s t a : Nat)
  /-- in `addNode ( )`, about to unlock the arc -/
  | unlockNew (s t a : Nat)
  /-- appending the arc `a` from `s` to `t` to a list -/
  | append (byNode : Bool) (I : ItType) (s t a : Nat) (pc : Pc)

/-- The node on whose list an arc from `s` to `t` goes. -/
def ItType.endOf (I : ItType) (s t : Nat) : Nat := if I = .ins then t else s

/-- What a thread adds. An arc that is made for a node has no ends yet:
what is at its place is left from before. -/
inductive Add (A N : Type) where
  | arc (s t : Nat) (d : A)
  | node (s : Nat) (d : A) (e : N) (oldSource : Option Nat) (oldTarget : Nat)

/-- The nodes that are named exist. -/
def Add.Valid (g : Tree A N) : Add A N → Prop
  | arc s t _ => s < g.nodeNum ∧ t < g.nodeNum
  | node s _ _ _ _ => s < g.nodeNum

-- ============================================================ the world

/-- The tree, its locks with the threads that have them, and the threads. -/
structure World (τ A N : Type) where
  tree : Tree A N
  nodeLock : Nat → Option τ
  arcLock : Nat → Option τ
  thread : τ → Thread N

namespace World

variable {τ : Type}

/-- A tree that nobody is adding to. -/
def start (g : Tree A N) : World τ A N where
  tree := g
  nodeLock := fun _ => none
  arcLock := fun _ => none
  thread := fun _ => .idle

/-- A step has changed the tree. -/
def write (w : World τ A N) (g : Tree A N) : World τ A N := { w with tree := g }

def lockNode (w : World τ A N) (i : τ) (n : Nat) : Option (World τ A N) :=
  if w.nodeLock n = none then some { w with nodeLock := Function.update w.nodeLock n (some i) }
  else none

def unlockNode (w : World τ A N) (n : Nat) : World τ A N :=
  { w with nodeLock := Function.update w.nodeLock n none }

def lockArc (w : World τ A N) (i : τ) (a : Nat) : Option (World τ A N) :=
  if w.arcLock a = none then some { w with arcLock := Function.update w.arcLock a (some i) }
  else none

def unlockArc (w : World τ A N) (a : Nat) : World τ A N :=
  { w with arcLock := Function.update w.arcLock a none }

theorem lockNode_eq_some {w w' : World τ A N} {i : τ} : w.lockNode i n = some w'
    ↔ w.nodeLock n = none ∧ { w with nodeLock := Function.update w.nodeLock n (some i) } = w' := by
  unfold lockNode
  split <;> simp [*]

theorem lockArc_eq_some {w w' : World τ A N} {i : τ} : w.lockArc i a = some w'
    ↔ w.arcLock a = none ∧ { w with arcLock := Function.update w.arcLock a (some i) } = w' := by
  unfold lockArc
  split <;> simp [*]

/-- A step of an append: the world after it, but for the place of the
thread, and that place. -/
def goAppend (w : World τ A N) (i : τ) (byNode : Bool) (I : ItType) (n a : Nat) :
    Pc → Option (World τ A N × Pc)
  | .node => (w.lockNode i n).map fun w => (w, .ends)
  | .ends =>
      -- an in-list is not asked whether it is empty
      if I = .outs ∧ w.tree.headOut n = none then some (w, .first)
      else (w.tree.tail I n).map fun b => (w, .tail b)
  | .tail b => (w.lockArc i b).map fun w => (w, .next b)
  | .next b => (w.tree.tail I n).map fun b' => (w.write (w.tree.setNext I b' a), .last b)
  | .last b => some (w.write (w.tree.setTail I n a), .unlockArc b)
  | .unlockArc b => some (w.unlockArc b, .unlockNode)
  | .first =>
      -- `addNode ( )` sets the head first, `addArc ( )` the tail
      some (w.write (if byNode then w.tree.setHeadOut n a else w.tree.setTail .outs n a), .second)
  | .second =>
      some (w.write (if byNode then w.tree.setTail .outs n a else w.tree.setHeadOut n a),
        .unlockNode)
  | .unlockNode => none

variable [DecidableEq τ]

/-- A thread gets on. -/
def goTo (w : World τ A N) (i : τ) (x : Thread N) : World τ A N :=
  { w with thread := Function.update w.thread i x }

/-- A thread that is idle begins to add: the arc goes into the arena, that
of a node with its lock taken. -/
def begin (w : World τ A N) (i : τ) : Add A N → Option (World τ A N)
  | .arc s t d =>
      match w.thread i with
      | .idle =>
          some ((w.write (w.tree.emplaceArc ⟨some s, t, none, none, d⟩)).goTo i
            (.append false .ins s t w.tree.arcNum .node))
      | _ => none
  | .node s d e oldSource oldTarget =>
      match w.thread i with
      | .idle =>
          ((w.write (w.tree.emplaceArc ⟨oldSource, oldTarget, none, none, d⟩)).lockArc i
            w.tree.arcNum).map fun w' => w'.goTo i (.makeNode s w.tree.arcNum e)
      | _ => none

/-- A step of a thread that is adding, if it can be made. -/
def go (w : World τ A N) (i : τ) : Option (World τ A N) :=
  match w.thread i with
  | .idle => none
  | .makeNode s a e =>
      some ((w.write (w.tree.emplaceNode a e)).goTo i (.setEnds s w.tree.nodeNum a))
  | .setEnds s t a =>
      some ((w.write (w.tree.setSourceTarget a s t)).goTo i (.unlockNew s t a))
  | .unlockNew s t a => some ((w.unlockArc a).goTo i (.append true .outs s t a .node))
  | .append byNode I s t a .unlockNode =>
      -- after the in-list of the target the out-list of the source
      some ((w.unlockNode (I.endOf s t)).goTo i
        (if I = .ins then .append byNode .outs s t a .node else .idle))
  | .append byNode I s t a pc =>
      (w.goAppend i byNode I (I.endOf s t) a pc).map fun x =>
        x.1.goTo i (.append byNode I s t a x.2)

theorem go_append {w : World τ A N} {i : τ} {byNode : Bool} {s t : Nat} {pc : Pc}
    (hi : w.thread i = .append byNode I s t a pc) (hpc : pc ≠ .unlockNode) :
    w.go i = (w.goAppend i byNode I (I.endOf s t) a pc).map fun x =>
      x.1.goTo i (.append byNode I s t a x.2) := by
  rw [go, hi]
  cases pc <;> first | rfl | exact absurd rfl hpc

/-- The worlds that come of a tree when threads add to it, each in its own
time, and what has been begun, in that order. -/
inductive Reached (g₀ : Tree A N) : List (Add A N) → World τ A N → Prop
  | start : Reached g₀ [] (start g₀)
  | begin {xs : List (Add A N)} {w w' : World τ A N} {i : τ} {x : Add A N}
      (h : Reached g₀ xs w) (hx : x.Valid w.tree) (hbegin : w.begin i x = some w') :
      Reached g₀ (xs ++ [x]) w'
  | go {xs : List (Add A N)} {w w' : World τ A N} {i : τ}
      (h : Reached g₀ xs w) (hgo : w.go i = some w') : Reached g₀ xs w'

end World

end MctsConnectFour.Digraph.Tree
