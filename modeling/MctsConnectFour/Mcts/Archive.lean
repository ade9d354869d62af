/-
Saving a search and loading it again (mcts.hpp, moves.hpp, player.hpp).

cereal is not part of the repository and neither is the tree. `Archive`
is what the program asks of cereal's binary archive, a codec for every
type of value it hands over, and `ArchivedTree` is how `fst::SearchTree`
archives its nodes and arcs, given how these are. A stream is a list of
units of any kind.

A container is saved with its live moves only, so a node comes back with
another array (`SameNode`), and the table comes back in another order.
Nothing else is lost (`survives_iff`), but `save` dereferences the
pointer to the table, which `load` tests first: an object that was never
initialised cannot be saved.
-/
import MctsConnectFour.Lib.Codec
import MctsConnectFour.Mcts.Tree

namespace MctsConnectFour

open Codec SearchTree

variable {β : Type} {G : Game}

-- ============================================================ the parts

/-- The values the program hands to cereal. `move` is the `serialize` of
a move, `binary` the bytes of one in memory. Numbers are as unbounded as
in the rest of the model. -/
structure Archive (β : Type) (G : Game) where
  int8 : Codec β Int8
  index : Codec β Nat
  int32 : Codec β Int
  float : Codec β Float32
  bool : Codec β Bool
  zobristHash : Codec β UInt64
  sizeTag : Codec β Nat
  nodeID : Codec β Nat
  move : Codec β G.Move
  binary : Codec β G.Move

variable (A : Archive β G)

/-- The player with an underlying value. -/
def Player.ofValue (v : Int8) : Player :=
  if v = -2 then invalid else if v = -1 then agent else if v = 1 then human else vacant

/-- `Player::serialize ( )`, saving. -/
def Player.save (p : Player) : List β := A.int8.write (Int8.ofInt p.asIndex)

/-- `Player::serialize ( )`, loading. -/
def Player.load : Reader β Player := do
  let v ← A.int8.read
  pure (ofValue v)

theorem Player.reads (p : Player) : Reads (Player.load A) (p.save A) p := by
  have hvalue : ofValue (Int8.ofInt p.asIndex) = p := by
    cases p <;> decide
  have hread := (A.int8.reads (Int8.ofInt p.asIndex)).map ofValue
  rwa [hvalue] at hread

/-- `Moves::serialize ( )`, saving: the size, and the array up to it. -/
def Moves.save (c : Moves G.Move G.maxNoMoves) : List β :=
  A.index.write c.size ++ c.toList.flatMap A.binary.write

/-- `Moves::serialize ( )`, loading into `c`; there is no room in the
array for more than its capacity. -/
def Moves.load (c : Moves G.Move G.maxNoMoves) : Reader β (Moves G.Move G.maxNoMoves) := do
  let size ← A.index.read
  let binary ← readList A.binary.read size
  if size ≤ G.maxNoMoves then
    pure ⟨size, Vector.ofFn fun i => binary[i.val]?.getD c.moves[i]⟩
  else failure

/-- The live part of a container is read back. -/
theorem Moves.reads (c c₀ : Moves G.Move G.maxNoMoves) (hcap : c.size ≤ G.maxNoMoves) :
    ∃ c', Reads (Moves.load A c₀) (c.save A) c' ∧ c'.toList = c.toList := by
  have hlen := Moves.length_toList hcap
  refine ⟨⟨c.size, Vector.ofFn fun i => c.toList[i.val]?.getD c₀.moves[i]⟩, ?_, ?_⟩
  · have hlist := Reads.list_eq fun m (_ : m ∈ c.toList) => A.binary.reads m
    rw [hlen] at hlist
    exact (A.index.reads c.size).bind (hlist.last (if_pos hcap))
  · show (Vector.ofFn fun i => c.toList[i.val]?.getD c₀.moves[i]).toList.take c.size = c.toList
    refine List.ext_getElem ?_ fun i hi hi' => ?_
    · rw [List.length_take, Vector.length_toList, hlen, Nat.min_eq_left hcap]
    · rw [List.getElem_take, Vector.getElem_toList, Vector.getElem_ofFn,
        List.getElem?_eq_getElem hi', Option.getD_some]

-- ========================================================= arcs, nodes

/-- `ArcData::serialize ( )`, saving. -/
def ArcData.save (a : ArcData G) : List β := A.move.write a.move

/-- `ArcData::serialize ( )`, loading into an arc. -/
def ArcData.load (_ : ArcData G) : Reader β (ArcData G) := do
  let move ← A.move.read
  pure ⟨move⟩

theorem ArcData.reads (a a₀ : ArcData G) : Reads (ArcData.load A a₀) (a.save A) a :=
  (A.move.reads a.move).map ArcData.mk

namespace NodeData

/-- `NodeData::save ( )`. -/
def save (d : NodeData G) : List β :=
  (match d.moves with
    | some c => A.int8.write 2 ++ c.save A
    | none => A.int8.write 1)
  ++ (A.float.write d.score ++ (A.int32.write d.visits ++ d.playerJustMoved.save A))

/-- The part of `NodeData::load ( )` before the scores: the tag, and a
container of its own if it says so. -/
def loadMoves (d : NodeData G) : Reader β (NodeData G) := do
  let tmp ← A.int8.read
  if tmp = 2 then
    let c ← Moves.load A .new
    pure { d with moves := some c }
  else pure d

/-- `NodeData::load ( )`, into a node. -/
def load (d : NodeData G) : Reader β (NodeData G) := do
  let d ← loadMoves A d
  let score ← A.float.read
  let visits ← A.int32.read
  let player ← Player.load A
  pure { d with score := score, visits := visits, playerJustMoved := player }

end NodeData

/-- The same node, whatever is behind the live moves. -/
structure SameNode (d e : NodeData G) : Prop where
  moves : e.moves.map Moves.toList = d.moves.map Moves.toList
  score : e.score = d.score
  visits : e.visits = d.visits
  playerJustMoved : e.playerJustMoved = d.playerJustMoved

/-- The tag decides about the container, and a node without one is
loaded as a node without one. -/
theorem NodeData.reads_moves {d : NodeData G} (h : d.Stocked) {d₀ : NodeData G}
    (hfresh : d₀.moves = none) :
    ∃ e, Reads (loadMoves A d₀)
        (match d.moves with
          | some c => A.int8.write 2 ++ c.save A
          | none => A.int8.write 1) e
      ∧ e.moves.map Moves.toList = d.moves.map Moves.toList := by
  cases hd : d.moves with
  | none =>
      refine ⟨d₀, ?_, by rw [hfresh]⟩
      exact (A.int8.reads 1).last (if_neg (by decide))
  | some c =>
      obtain ⟨c', hread, hlist⟩ := Moves.reads A c .new (h c hd).2
      refine ⟨{ d₀ with moves := some c' }, ?_, congrArg some hlist⟩
      refine (A.int8.reads 2).bind ?_
      rw [if_pos rfl]
      exact hread.map fun c => { d₀ with moves := some c }

/-- A node is read back into a default constructed one. -/
theorem NodeData.reads {d : NodeData G} (h : d.Stocked) {d₀ : NodeData G}
    (hfresh : d₀.moves = none) :
    ∃ e, Reads (NodeData.load A d₀) (d.save A) e ∧ SameNode d e := by
  obtain ⟨e, hread, hmoves⟩ := reads_moves A h hfresh
  refine ⟨{ e with
    score := d.score, visits := d.visits, playerJustMoved := d.playerJustMoved }, ?_,
    ⟨hmoves, rfl, rfl, rfl⟩⟩
  exact hread.bind ((A.float.reads d.score).bind ((A.int32.reads d.visits).bind
    ((Player.reads A d.playerJustMoved).map fun player =>
      { e with score := d.score, visits := d.visits, playerJustMoved := player })))

-- =============================================================== table

namespace TranspositionTable

/-- A table as cereal saves it: the number of entries, and the entries. -/
def save (T : TranspositionTable) : List β :=
  A.sizeTag.write T.size
    ++ T.entries.flatMap fun e => A.zobristHash.write e.1 ++ A.nodeID.write e.2

/-- One entry. -/
def loadEntry : Reader β (UInt64 × Nat) := do
  let hash ← A.zobristHash.read
  let node ← A.nodeID.read
  pure (hash, node)

/-- A table as cereal loads it: emptied, and filled entry by entry. -/
def load : Reader β TranspositionTable := do
  let size ← A.sizeTag.read
  let entries ← readList (loadEntry A) size
  pure (entries.foldl (fun T e => T.emplace e.1 e.2) .new)

/-- Entries with new hashes are all taken in. -/
theorem entries_foldl_emplace :
    ∀ (l : List (UInt64 × Nat)) (T : TranspositionTable),
      ((l ++ T.entries).map Prod.fst).Nodup →
        (l.foldl (fun T e => T.emplace e.1 e.2) T).entries.Perm (l ++ T.entries) := by
  intro l
  induction l with
  | nil =>
      intro T _
      exact List.Perm.refl _
  | cons e l ih =>
      intro T h
      rw [List.cons_append, List.map_cons, List.nodup_cons] at h
      have hnew : e.1 ∉ T.entries.map Prod.fst := fun hmem =>
        h.1 (List.map_append ▸ List.mem_append_right _ hmem)
      have hentries : (T.emplace e.1 e.2).entries = e :: T.entries := by
        unfold emplace
        rw [dif_neg hnew]
      have hmiddle : (l ++ e :: T.entries).Perm (e :: (l ++ T.entries)) := List.perm_middle
      rw [List.foldl_cons]
      refine (ih _ ?_).trans (hentries ▸ hmiddle)
      rw [hentries, (hmiddle.map Prod.fst).nodup_iff]
      exact List.nodup_cons.mpr h

/-- The entries of a table are read back, in some order. -/
theorem reads (T : TranspositionTable) :
    ∃ T', Reads (TranspositionTable.load A) (T.save A) T' ∧ T'.entries.Perm T.entries := by
  have hentries : Reads (readList (loadEntry A) T.size)
      (T.entries.flatMap fun e => A.zobristHash.write e.1 ++ A.nodeID.write e.2) T.entries :=
    Reads.list_eq fun e _ => (A.zobristHash.reads e.1).bind ((A.nodeID.reads e.2).map (Prod.mk e.1))
  refine ⟨_, (A.sizeTag.reads T.size).bind (hentries.map _), ?_⟩
  have hperm := entries_foldl_emplace T.entries .new (by
    rw [show new.entries = [] from rfl, List.append_nil]
    exact T.nodup)
  rwa [show new.entries = [] from rfl, List.append_nil] at hperm

end TranspositionTable

-- ================================================================ tree

/-- How `fst::SearchTree` is archived: its parts in an order of its own,
nodes and arcs as they archive themselves. -/
class ArchivedTree (β τ : Type) (A N : outParam Type) [SearchTree τ A N] where
  /-- `clearUnsafe ( )` -/
  clearUnsafe : τ → τ
  save : (A → List β) → (N → List β) → τ → List β
  load : (A → Reader β A) → (N → Reader β N) → τ → Reader β τ

/-- A tree with the same structure and moves, and with nodes related by
`R`. -/
structure SameTree {τ A N : Type} [SearchTree τ A N] (R : N → N → Prop) (t u : τ) : Prop where
  rootNode : rootNode u = rootNode t
  rootArc : rootArc u = rootArc t
  nodeNum : nodeNum u = nodeNum t
  outArcs : ∀ n, outArcs u n = outArcs t n
  arc : ∀ n, ∀ x ∈ SearchTree.outArcs t n, arc u x.1 = arc t x.1
  node : ∀ n < SearchTree.nodeNum t, R (node t n) (node u n)

/-- What the search relies on: a tree that has been cleared is loaded
from what another has saved, each arc and each node into a default
constructed one. -/
class LawfulArchivedTree (β τ : Type) {A N : Type} [Inhabited A] [Inhabited N] [SearchTree τ A N]
    [ArchivedTree β τ A N] : Prop where
  load_save : ∀ {saveArc : A → List β} {loadArc : A → Reader β A} {saveNode : N → List β}
    {loadNode : N → Reader β N} {R : N → N → Prop} (t u : τ),
    (∀ a, Reads (loadArc default) (saveArc a) a) →
    (∀ n < nodeNum t, ∃ e, Reads (loadNode default) (saveNode (node t n)) e ∧ R (node t n) e) →
    ∃ t', Reads (ArchivedTree.load loadArc loadNode (ArchivedTree.clearUnsafe β u))
        (ArchivedTree.save saveArc saveNode t) t' ∧ SameTree R t t'

-- ========================================================== an archive

/-- A stream that keeps its units as they were handed over. -/
inductive Part (M : Type) where
  | int8 (v : Int8)
  | nat (n : Nat)
  | int (i : Int)
  | float (x : Float32)
  | bool (b : Bool)
  | hash (h : UInt64)
  | move (m : M)

namespace Part

variable {M : Type}

/-- One unit for one value. -/
def codec {α : Type} (unit : α → Part M) (value : Part M → Option α)
    (h : ∀ a, value (unit a) = some a) : Codec (Part M) α where
  write a := [unit a]
  read out := match out with
    | [] => none
    | p :: rest => (value p).map fun a => (a, rest)
  reads a rest := by
    show (value (unit a)).map _ = _
    rw [h]
    rfl

def nats : Codec (Part M) Nat :=
  codec .nat (fun | .nat n => some n | _ => none) fun _ => rfl

def moves : Codec (Part M) M :=
  codec .move (fun | .move m => some m | _ => none) fun _ => rfl

/-- The archive that writes such streams. -/
def archive (G : Game) : Archive (Part G.Move) G where
  int8 := codec .int8 (fun | .int8 v => some v | _ => none) fun _ => rfl
  index := nats
  int32 := codec .int (fun | .int i => some i | _ => none) fun _ => rfl
  float := codec .float (fun | .float x => some x | _ => none) fun _ => rfl
  bool := codec .bool (fun | .bool b => some b | _ => none) fun _ => rfl
  zobristHash := codec .hash (fun | .hash h => some h | _ => none) fun _ => rfl
  sizeTag := nats
  nodeID := nats
  move := moves
  binary := moves

end Part

namespace FlatTree

variable {M A N : Type}

/-- A node: its data and its out-arcs. -/
def saveNode (save : N → List (Part M)) (r : N × List (Nat × Nat)) : List (Part M) :=
  save r.1 ++ (Part.nats.write r.2.length
    ++ r.2.flatMap fun x => Part.nats.write x.1 ++ Part.nats.write x.2)

def loadArcTarget : Reader (Part M) (Nat × Nat) := do
  let arc ← Part.nats.read
  let target ← Part.nats.read
  pure (arc, target)

def loadNode (load : Reader (Part M) N) : Reader (Part M) (N × List (Nat × Nat)) := do
  let d ← load
  let size ← Part.nats.read
  let out ← readList loadArcTarget size
  pure (d, out)

theorem reads_node {save : N → List (Part M)} {load : Reader (Part M) N}
    {r : N × List (Nat × Nat)} {e : N} (h : Reads load (save r.1) e) :
    Reads (loadNode load) (saveNode save r) (e, r.2) :=
  h.bind ((Part.nats.reads r.2.length).bind
    ((Reads.list_eq fun x _ => (Part.nats.reads x.1).bind
      ((Part.nats.reads x.2).map (Prod.mk x.1))).map (Prod.mk e)))

variable [Inhabited A] [Inhabited N]

instance : ArchivedTree (Part M) (FlatTree A N) A N where
  clearUnsafe _ := SearchTree.new
  save saveArc save t :=
    Part.nats.write t.root ++ (Part.nats.write t.nodes.length
      ++ (t.nodes.flatMap (saveNode save)
        ++ (Part.nats.write t.arcs.length ++ t.arcs.flatMap saveArc)))
  load loadArc load _ := do
    let root ← Part.nats.read
    let noNodes ← Part.nats.read
    let nodes ← readList (loadNode (load default)) noNodes
    let noArcs ← Part.nats.read
    let arcs ← readList (loadArc default) noArcs
    if h : ∀ r ∈ nodes, ∀ x ∈ r.2, x.1 < arcs.length then pure ⟨root, nodes, arcs, h⟩
    else failure

/-- The lists are read back as the search expects. -/
instance : LawfulArchivedTree (Part M) (FlatTree A N) where
  load_save := by
    intro saveArc loadArc save load R t u harc hnode
    have hread : ∀ r ∈ t.nodes, ∃ r', Reads (loadNode (load default)) (saveNode save r) r'
        ∧ (R r.1 r'.1 ∧ r'.2 = r.2) := by
      intro r hr
      obtain ⟨n, hn, rfl⟩ := List.mem_iff_getElem.mp hr
      obtain ⟨e, he, hRe⟩ := hnode n hn
      have hdata : (SearchTree.node t n : N) = (t.nodes[n]).1 := by
        show (t.nodes[n]?.map Prod.fst).getD default = _
        rw [List.getElem?_eq_getElem hn, Option.map_some, Option.getD_some]
      rw [hdata] at he hRe
      exact ⟨_, reads_node he, hRe, rfl⟩
    obtain ⟨nodes, hnodes, hrel⟩ := Reads.list hread
    have hget := List.forall₂_iff_get.mp hrel
    have hids : ∀ r ∈ nodes, ∀ x ∈ r.2, x.1 < t.arcs.length := by
      intro r hr
      obtain ⟨n, hn, rfl⟩ := List.mem_iff_getElem.mp hr
      have hn' : n < t.nodes.length := hget.1.symm ▸ hn
      have heq : nodes[n].2 = t.nodes[n].2 := (hget.2 n hn' hn).2
      rw [heq]
      exact t.ids_lt _ (List.getElem_mem hn')
    refine ⟨⟨t.root, nodes, t.arcs, hids⟩, ?_, ?_⟩
    · exact (Part.nats.reads t.root).bind ((Part.nats.reads t.nodes.length).bind
        (hnodes.bind ((Part.nats.reads t.arcs.length).bind
          ((Reads.list_eq fun a _ => harc a).last (dif_pos hids)))))
    · refine ⟨rfl, rfl, hget.1.symm, fun n => ?_, fun _ _ _ => rfl, fun n hn => ?_⟩
      · show (nodes[n]?.map Prod.snd).getD [] = (t.nodes[n]?.map Prod.snd).getD []
        by_cases hn : n < t.nodes.length
        · have hn' : n < nodes.length := hget.1 ▸ hn
          rw [List.getElem?_eq_getElem hn, List.getElem?_eq_getElem hn']
          exact (hget.2 n hn hn').2
        · rw [List.getElem?_eq_none (by omega), List.getElem?_eq_none (by omega)]
      · have hn' : n < nodes.length := hget.1 ▸ hn
        show R ((t.nodes[n]?.map Prod.fst).getD default) ((nodes[n]?.map Prod.fst).getD default)
        rw [List.getElem?_eq_getElem hn, List.getElem?_eq_getElem hn']
        exact (hget.2 n hn hn').1

end FlatTree

-- ================================================================ Mcts

variable {τ : Type} [SearchTree τ (ArcData G) (NodeData G)]

namespace Mcts

/-- An `Mcts` with its pointer to the table, which is null until the
table is allocated. -/
structure Object (τ : Type) extends Mcts τ where
  allocated : Bool
  table_of_null : allocated = false → transpositionTable = .new

/-- A default constructed object. -/
def Object.new : Object τ := { Mcts.new with allocated := false, table_of_null := fun _ => rfl }

/-- `initialize ( )`. -/
def Object.initializeRoot (o : Object τ) (s : G.State) : Object τ :=
  { Mcts.initializeRoot G o.toMcts s with
    allocated := true
    table_of_null := fun h => by cases h }

variable [ArchivedTree β τ (ArcData G) (NodeData G)]

/-- `Mcts::save ( )`; `none` is the dereferenced null pointer. -/
def save (o : Object τ) : Option (List β) :=
  if o.allocated then
    some (ArchivedTree.save (ArcData.save A) (NodeData.save A) o.tree
      ++ (o.transpositionTable.save A ++ A.bool.write o.notInitialized))
  else none

/-- `Mcts::load ( )`, into an object. The table is allocated or cleared,
and loading it clears it again. -/
def load (o : Object τ) : Reader β (Object τ) := do
  let tree ← ArchivedTree.load (ArcData.load A) (NodeData.load A)
    (ArchivedTree.clearUnsafe β o.tree)
  let table ← TranspositionTable.load A
  let notInitialized ← A.bool.read
  pure
    { tree := tree
      transpositionTable := table
      notInitialized := notInitialized
      path := [⟨rootArc tree, some (rootNode tree)⟩]
      pathSize := 1
      allocated := true
      table_of_null := fun h => by cases h }

/-- The same search: the tree, the table up to its order, and the
flag. -/
structure SameSearch (m m' : Mcts τ) : Prop where
  tree : SameTree (SameNode (G := G)) m.tree m'.tree
  table : m'.transpositionTable.entries.Perm m.transpositionTable.entries
  notInitialized : m'.notInitialized = m.notInitialized

/-- Saving completes, and so does loading into any object, which then
holds the same search; of what follows in the stream nothing is
taken. -/
def Survives (o : Object τ) : Prop :=
  ∃ out, save A o = some out
    ∧ ∀ target : Object τ, ∃ o', Reads (load A target) out o' ∧ SameSearch o.toMcts o'.toMcts

/-- Saving and loading loses nothing of an object whose table has been
allocated; another one is not saved. -/
theorem survives_iff [LawfulArchivedTree β τ] (o : Object τ)
    (hstocked : ∀ n < nodeNum o.tree, (node o.tree n : NodeData G).Stocked) :
    Survives A o ↔ o.allocated = true := by
  unfold Survives save
  cases ho : o.allocated with
  | false =>
      refine iff_of_false ?_ (by decide)
      intro h
      obtain ⟨out, hout, -⟩ := h
      cases hout
  | true =>
      refine iff_of_true ⟨_, if_pos rfl, fun target => ?_⟩ rfl
      obtain ⟨tree, htree, hsame⟩ := LawfulArchivedTree.load_save o.tree target.tree
        (fun a => ArcData.reads A a default)
        (fun n hn => NodeData.reads A (hstocked n hn)
          (show (default : NodeData G).moves = none from rfl))
      obtain ⟨table, htable, hperm⟩ := TranspositionTable.reads A o.transpositionTable
      exact ⟨_, htree.bind (htable.bind ((A.bool.reads o.notInitialized).map _)),
        hsame, hperm, rfl⟩

/-- The search of a game on one cell, once it has been initialised. -/
theorem survives_iff_oneCell :
    Survives (Part.archive (ConnectFour.game ConnectFour.oneCell))
      ((Object.new : Object OneCellTree).initializeRoot
        (ConnectFour.new ConnectFour.oneCell .agent)) :=
  (survives_iff _ _ fun n hn => by
    obtain rfl : n = 0 := Nat.lt_one_iff.mp hn
    intro c hc
    cases hc
    decide).mpr rfl

/-- The same search before that. -/
theorem new_not_survives :
    (∀ n < nodeNum (Object.new : Object OneCellTree).tree,
      (node (Object.new : Object OneCellTree).tree n :
        NodeData (ConnectFour.game ConnectFour.oneCell)).Stocked)
      ∧ ¬ Survives (Part.archive (ConnectFour.game ConnectFour.oneCell))
          (Object.new : Object OneCellTree) := by
  constructor
  · intro n hn
    obtain rfl : n = 0 := Nat.lt_one_iff.mp hn
    intro c hc
    cases hc
  · intro h
    obtain ⟨out, hout, -⟩ := h
    cases hout

end Mcts

end MctsConnectFour
