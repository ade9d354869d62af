/-
The walk of `merge ( )`.

`Crossed` is everything crossing one arc of the source to a node not
visited before can do to the walk; the rest is read off it. The walk is
seen by hash: what a tree holds for a hash is the data of the node its
table finds (`held`), and between any two arcs the target holds what it
held at the start, with the data of the source nodes added so far joined
to it (`WalkInv.data`). Arcs are only ever appended to those of the
target, and when the source has no arc the target does not have, none
is (`WalkInv.kept`).

`Merged` is what is left at the end, where the nodes added are those the
walk has reached, less the one it has started from: that is put in the
queue without being looked at.
-/
import MctsConnectFour.Mcts.Prune

namespace MctsConnectFour

open SearchTree LawfulSearchTree Worklist
open Mcts (Walk)

variable {G : Game} {τ : Type} [SearchTree τ (ArcData G) (NodeData G)]

-- ============================================================== by hash

/-- What an `Mcts` holds for a hash. -/
def held (m : Mcts τ) (hash : UInt64) : Option (NodeData G) :=
  (m.getNode hash).map (node m.tree)

/-- The hash of a node, as `merge ( )` looks it up. -/
def hashOf (m : Mcts τ) (n : Nat) : UInt64 := m.transpositionTable.invert[n]?.getD 0

/-- The arc of a move between the nodes of two hashes. -/
def HasArc (m : Mcts τ) (parent : UInt64) (move : G.Move) (child : UInt64) : Prop :=
  ∃ n k, m.getNode parent = some n ∧ m.getNode child = some k
    ∧ ((⟨move⟩, k) : ArcData G × Nat) ∈ edges m.tree n

/-- Every arc of `s` is one of `t`. -/
def Included (s t : Mcts τ) : Prop :=
  ∀ parent move child, HasArc s parent move child → HasArc t parent move child

/-- Two trees with the same nodes and arcs. -/
def SameArcs (t t' : τ) : Prop :=
  nodeNum t' = nodeNum t ∧ ∀ n, n < nodeNum t → edges t' n = edges t n

omit [SearchTree τ (ArcData G) (NodeData G)] in
theorem getNode_hashOf {m : Mcts τ} {num n : Nat} (h : m.transpositionTable.Bijective num)
    (hn : n < num) : m.getNode (hashOf m n) = some n := by
  obtain ⟨hash, hfind⟩ := h.surj n hn
  rwa [hashOf, (h.invert_eq hash n).mpr hfind, Option.getD_some]

omit [SearchTree τ (ArcData G) (NodeData G)] in
theorem hashOf_eq {m : Mcts τ} {num n : Nat} (h : m.transpositionTable.Bijective num)
    {hash : UInt64} (hfind : m.getNode hash = some n) : hashOf m n = hash := by
  rw [hashOf, (h.invert_eq hash n).mpr hfind, Option.getD_some]

-- ============================================================== one arc

/-- A child the target has: its data is added to, and an arc is put in
if there is none to it. -/
structure KnownChild (hash : UInt64) (q : Nat) (x y : Walk τ) (a : Nat × Nat) (k : Nat) :
    Prop where
  find : x.table.find hash = some k
  table : y.table = x.table
  num : nodeNum y.target = nodeNum x.target
  node : ∀ i, node y.target i = if i = k
    then (SearchTree.node x.target k : NodeData G).add (SearchTree.node x.source a.2)
    else SearchTree.node x.target i
  edges : ∀ i, edges y.target i = if i = q ∧ (link x.target q k).arc = none
    then SearchTree.edges x.target i ++ [(arc x.source a.1, k)] else SearchTree.edges x.target i

/-- A child the target does not have: it gets a node and an arc. -/
structure NewChild (hash : UInt64) (q : Nat) (x y : Walk τ) (a : Nat × Nat) : Prop where
  find : x.table.find hash = none
  table : y.table = x.table.emplace hash (nodeNum x.target)
  num : nodeNum y.target = nodeNum x.target + 1
  node : ∀ i, node y.target i = if i = nodeNum x.target
    then (SearchTree.node x.source a.2 : NodeData G) else SearchTree.node x.target i
  edges : ∀ i, edges y.target i = if i = q
    then SearchTree.edges x.target i ++ [(arc x.source a.1, nodeNum x.target)]
    else if i = nodeNum x.target then [] else SearchTree.edges x.target i

/-- Crossing an arc to a node not visited before. -/
structure Crossed (hash : UInt64) (q : Nat) (x y : Walk τ) (a : Nat × Nat) : Prop where
  outArcs : ∀ n, outArcs y.source n = SearchTree.outArcs x.source n
  arc : ∀ i, arc y.source i = SearchTree.arc x.source i
  num : nodeNum y.source = nodeNum x.source
  node : ∀ n, n ≠ a.2 → node y.source n = SearchTree.node x.source n
  visited : y.visited = fun n => n = a.2 || x.visited n
  queue : y.queue = x.queue ++ [a.2]
  child : (∃ k, KnownChild hash q x y a k) ∨ NewChild hash q x y a

/-- What merging the source `s` into the target `t` leaves. -/
structure Merged (t s m : Mcts τ) : Prop where
  bijective : m.transpositionTable.Bijective (nodeNum m.tree)
  table : ∀ {hash n}, t.getNode hash = some n → m.getNode hash = some n
  /-- the data of the source nodes reached from the root is added, that
  of the root is not -/
  data : ∃ add : Nat → Bool,
    (∀ k, add k = true ↔ Reachable (targets s.tree) (rootNode s.tree) k ∧ k ≠ rootNode s.tree)
      ∧ ∀ hash, held m hash = Option.merge NodeData.add (held t hash)
        (((s.getNode hash).filter add).map (node s.tree))
  appended : ∀ n, n < nodeNum t.tree → ∃ extra, edges m.tree n = edges t.tree n ++ extra
  grown : SameArcs t.tree m.tree ∨ ∃ n extra, n < nodeNum t.tree ∧ extra ≠ []
    ∧ edges m.tree n = edges t.tree n ++ extra
  kept : Included s t → SameArcs t.tree m.tree

section Walk

variable [LawfulSearchTree τ] {itt : List UInt64} {q : Nat} {x y : Walk τ} {a : Nat × Nat}

omit [LawfulSearchTree τ] in
theorem walkArc_visited (h : x.visited a.2 = true) : Mcts.walkArc G itt q x a = x := by
  unfold Mcts.walkArc
  rw [if_pos h]

section Crossing

variable {hash : UInt64} (hhash : itt[a.2]?.getD 0 = hash) (hnew : x.visited a.2 = false)
  (hq : q < nodeNum x.target)

include hhash hnew hq

/-- A node not visited before whose state the target has: its data is
added to that of the target's node. -/
theorem walkArc_found {k : Nat} (hfind : x.table.find hash = some k) (hk : k < nodeNum x.target) :
    Crossed hash q x (Mcts.walkArc G itt q x a) a := by
  generalize hu : (if (link x.target q k).arc ≠ none then x.target
    else (SearchTree.addArc x.target q k (arc x.source a.1 : ArcData G)).1) = u
  have hstep : Mcts.walkArc G itt q x a = { x with
      visited := fun n => n = a.2 || x.visited n
      queue := x.queue ++ [a.2]
      target := SearchTree.setNode u k
        ((node u k : NodeData G).add (node x.source a.2)) } := by
    unfold Mcts.walkArc
    rw [if_neg (by rw [hnew]; decide)]
    simp only [hhash, hfind, hu]
  have hnum : nodeNum u = nodeNum x.target := by
    rw [← hu]
    split
    · rfl
    · rw [nodeNum_addArc]
  have hnode : ∀ i, node u i = node x.target i := by
    intro i
    rw [← hu]
    split
    · rfl
    · rw [node_addArc]
  have hedges : ∀ i, edges u i = if i = q ∧ (link x.target q k).arc = none
      then edges x.target i ++ [(arc x.source a.1, k)] else edges x.target i := by
    intro i
    rw [← hu]
    by_cases hlink : (link x.target q k).arc = none
    · rw [if_neg (not_not_intro hlink), edges_addArc _ _ _ _ hq]
      exact if_congr (and_iff_left hlink).symm rfl rfl
    · rw [if_pos hlink, if_neg fun hand => hlink hand.2]
  rw [hstep]
  refine ⟨fun _ => rfl, fun _ => rfl, rfl, fun _ _ => rfl, rfl, rfl, Or.inl ⟨k, ?_⟩⟩
  constructor
  case find => exact hfind
  case table => rfl
  case num => exact (nodeNum_setNode u k _).trans hnum
  case node =>
    intro i
    refine (node_setNode u _ i (hnum ▸ hk)).trans ?_
    rw [hnode, hnode]
  case edges => exact fun i => (edges_setNode u k _ i).trans (hedges i)

/-- One whose state the target has not: it is moved there. -/
theorem walkArc_moved (hfind : x.table.find hash = none) (ha : a.2 < nodeNum x.source) :
    Crossed hash q x (Mcts.walkArc G itt q x a) a := by
  have hid : (SearchTree.addNode x.target (default : NodeData G)).2 = nodeNum x.target :=
    addNode_id ..
  generalize hu : (SearchTree.addArc (SearchTree.addNode x.target (default : NodeData G)).1 q
    (nodeNum x.target) (arc x.source a.1 : ArcData G)).1 = u
  have hstep : Mcts.walkArc G itt q x a =
      { target := SearchTree.setNode u (nodeNum x.target) (node x.source a.2)
        source := SearchTree.setNode x.source a.2
          (NodeData.movedFrom default (node x.source a.2))
        table := x.table.emplace hash (nodeNum x.target)
        visited := fun n => n = a.2 || x.visited n
        queue := x.queue ++ [a.2] } := by
    unfold Mcts.walkArc
    rw [if_neg (by rw [hnew]; decide)]
    simp only [hhash, hfind, hid, hu]
  have hnum : nodeNum u = nodeNum x.target + 1 := by
    rw [← hu, nodeNum_addArc, nodeNum_addNode]
  rw [hstep]
  refine ⟨fun n => outArcs_setNode x.source a.2 _ n, fun i => arc_setNode x.source a.2 _ i,
    nodeNum_setNode x.source a.2 _, fun n hn => ?_, rfl, rfl, Or.inr ?_⟩
  · exact (node_setNode x.source _ n ha).trans (if_neg hn)
  · constructor
    case find => exact hfind
    case table => rfl
    case num => exact (nodeNum_setNode u _ _).trans hnum
    case node =>
      intro i
      refine (node_setNode u _ i (by omega)).trans ?_
      split
      · rfl
      · next hi => rw [← hu, node_addArc, node_addNode, if_neg hi]
    case edges =>
      intro i
      refine (edges_setNode u _ _ i).trans ?_
      rw [← hu, edges_addArc _ _ _ _ (by rw [nodeNum_addNode]; omega), edges_addNode]
      split
      · rw [if_neg (by omega)]
      · rfl

end Crossing

/-- What `walkArc` does with a node not visited before. -/
theorem walkArc_crossed (hnew : x.visited a.2 = false) (ha : a.2 < nodeNum x.source)
    (hq : q < nodeNum x.target)
    (hfound : ∀ k, x.table.find (itt[a.2]?.getD 0) = some k → k < nodeNum x.target) :
    Crossed (itt[a.2]?.getD 0) q x (Mcts.walkArc G itt q x a) a := by
  cases hfind : x.table.find (itt[a.2]?.getD 0) with
  | some k => exact walkArc_found rfl hnew hq hfind (hfound k hfind)
  | none => exact walkArc_moved rfl hnew hq hfind ha

-- ======================================================== the invariant

/-- The source nodes whose data has been added. -/
def added (s : Mcts τ) (x : Walk τ) (k : Nat) : Bool := x.visited k && k != rootNode s.tree

/-- The walk between two arcs, for the target `t` and the source `s` as
they were. -/
structure WalkInv (t s : Mcts τ) (x : Walk τ) : Prop where
  source_outArcs : ∀ n, outArcs x.source n = outArcs s.tree n
  source_arc : ∀ i, arc x.source i = arc s.tree i
  source_num : nodeNum x.source = nodeNum s.tree
  source_node : ∀ n, x.visited n = false → node x.source n = node s.tree n
  bijective : x.table.Bijective (nodeNum x.target)
  num_le : nodeNum t.tree ≤ nodeNum x.target
  table : ∀ {hash n}, t.getNode hash = some n → x.table.find hash = some n
  data : ∀ hash, (x.table.find hash).map (node x.target)
    = Option.merge NodeData.add (held t hash)
      (((s.getNode hash).filter (added s x)).map (node s.tree))
  appended : ∀ n, n < nodeNum t.tree → ∃ extra, edges x.target n = edges t.tree n ++ extra
  grown : SameArcs t.tree x.target ∨ ∃ n extra, n < nodeNum t.tree ∧ extra ≠ []
    ∧ edges x.target n = edges t.tree n ++ extra
  kept : Included s t → SameArcs t.tree x.target

variable {t s : Mcts τ} {p : Nat}

omit [LawfulSearchTree τ] in
/-- Crossing an arc adds its target. -/
theorem added_crossed {hash : UInt64} (hcross : Crossed hash q x y a)
    (hne : a.2 ≠ rootNode s.tree) (k : Nat) : added s y k = (decide (k = a.2) || added s x k) := by
  unfold added
  rw [hcross.visited]
  by_cases hk : k = a.2
  · simp [hk, hne]
  · simp [hk]

omit [LawfulSearchTree τ] in
/-- The other hashes keep what has been added to them. -/
theorem filter_added_crossed (hs : s.transpositionTable.Bijective (nodeNum s.tree))
    {hash' : UInt64} (hcross : Crossed hash' q x y a) (hne : a.2 ≠ rootNode s.tree)
    {hash : UInt64} (hhash : hash ≠ hashOf s a.2) :
    (s.getNode hash).filter (added s y) = (s.getNode hash).filter (added s x) := by
  cases hfind : s.getNode hash with
  | none => rfl
  | some j =>
      have hj : j ≠ a.2 := fun heq => hhash (by rw [← heq, hashOf_eq hs hfind])
      rw [Option.filter_some, Option.filter_some, added_crossed hcross hne]
      simp [hj]

omit [LawfulSearchTree τ] in
/-- What is in the table stays. -/
theorem Crossed.find_of_find {hash hash' : UInt64} (hcross : Crossed hash q x y a) {n : Nat}
    (hn : x.table.find hash' = some n) : y.table.find hash' = some n := by
  rcases hcross.child with ⟨k, hk⟩ | hk
  · rw [hk.table]
    exact hn
  · rw [hk.table, TranspositionTable.find_emplace, if_neg]
    · exact hn
    · intro h
      obtain ⟨rfl, hnone⟩ := h
      rw [hnone] at hn
      cases hn

omit [LawfulSearchTree τ] in
/-- Arcs are appended. -/
theorem Crossed.appended {hash : UInt64} (hcross : Crossed hash q x y a) {n : Nat}
    (hn : n < nodeNum x.target) : ∃ more, edges y.target n = edges x.target n ++ more := by
  rcases hcross.child with ⟨k, hk⟩ | hk
  · rw [hk.edges]
    split
    · exact ⟨_, rfl⟩
    · exact ⟨[], (List.append_nil _).symm⟩
  · rw [hk.edges, if_neg (show ¬ n = nodeNum x.target by omega)]
    split
    · exact ⟨_, rfl⟩
    · exact ⟨[], (List.append_nil _).symm⟩

omit [LawfulSearchTree τ] in
/-- An arc appended anywhere is an arc appended to a node of the target
as it was: nodes that came later came with such an arc. -/
theorem WalkInv.grown_of_append (h : WalkInv t s x) {hash : UInt64} (hcross : Crossed hash q x y a)
    (hq : q < nodeNum x.target) {e : ArcData G × Nat}
    (happend : edges y.target q = edges x.target q ++ [e]) :
    ∃ n extra, n < nodeNum t.tree ∧ extra ≠ [] ∧ edges y.target n = edges t.tree n ++ extra := by
  rcases h.grown with hsame | ⟨n, extra, hn, hne, hextra⟩
  · have hqt : q < nodeNum t.tree := hsame.1 ▸ hq
    exact ⟨q, [e], hqt, List.cons_ne_nil _ _, by rw [happend, hsame.2 q hqt]⟩
  · obtain ⟨more, hmore⟩ := hcross.appended (hn.trans_le h.num_le)
    refine ⟨n, extra ++ more, hn, List.append_ne_nil_of_left_ne_nil hne _, ?_⟩
    rw [hmore, hextra, List.append_assoc]

section Crossing

variable (hs : s.transpositionTable.Bijective (nodeNum s.tree)) (h : WalkInv t s x)
  (hcross : Crossed (hashOf s a.2) q x y a) (hnew : x.visited a.2 = false)
  (hne : a.2 ≠ rootNode s.tree) (ha : a.2 < nodeNum s.tree)

omit [LawfulSearchTree τ] in
include hs h hcross hnew hne ha in
/-- The data after crossing an arc: its target has been added under its
hash. -/
theorem WalkInv.data_crossed (hash : UInt64) :
    (y.table.find hash).map (node y.target)
      = Option.merge NodeData.add (held t hash)
        (((s.getNode hash).filter (added s y)).map (node s.tree)) := by
  have hself := getNode_hashOf hs ha
  have hbefore : (s.getNode (hashOf s a.2)).filter (added s x) = none := by
    rw [hself, Option.filter_some_neg]
    unfold added
    rw [hnew, Bool.false_and]
  have hafter : (s.getNode (hashOf s a.2)).filter (added s y) = some a.2 := by
    rw [hself, Option.filter_some_pos]
    rw [added_crossed hcross hne]
    simp
  have hdata := h.data (hashOf s a.2)
  rw [hbefore, Option.map_none, Option.merge_none_right] at hdata
  rcases hcross.child with ⟨k, hk⟩ | hk
  · by_cases hhash : hash = hashOf s a.2
    · subst hhash
      rw [hk.find, Option.map_some] at hdata
      rw [hafter, ← hdata, hk.table, hk.find, Option.map_some, hk.node, if_pos rfl, Option.map_some,
        Option.merge_some_some, h.source_node a.2 hnew]
    · rw [filter_added_crossed hs hcross hne hhash, ← h.data hash, hk.table]
      refine Option.map_congr fun i hi => ?_
      rw [hk.node, if_neg]
      intro h'
      obtain rfl := h'
      exact hhash (h.bijective.inj _ _ _ hi hk.find)
  · by_cases hhash : hash = hashOf s a.2
    · subst hhash
      rw [hk.find, Option.map_none] at hdata
      rw [hafter, ← hdata, hk.table, TranspositionTable.find_emplace, if_pos ⟨rfl, hk.find⟩,
        Option.map_some, hk.node, if_pos rfl, Option.map_some, Option.merge_none_left,
        h.source_node a.2 hnew]
    · rw [filter_added_crossed hs hcross hne hhash, ← h.data hash, hk.table,
        TranspositionTable.find_emplace, if_neg fun hand => hhash hand.1]
      refine Option.map_congr fun i hi => ?_
      have hlt := h.bijective.lt _ _ hi
      rw [hk.node, if_neg (by omega)]

end Crossing

omit [LawfulSearchTree τ] in
/-- When the target has every arc of the source, crossing one finds the
child and the arc. -/
theorem WalkInv.link_of_included (ht : t.transpositionTable.Bijective (nodeNum t.tree))
    (hs : s.transpositionTable.Bijective (nodeNum s.tree)) (h : WalkInv t s x)
    (hsub : Included s t) (hp : p < nodeNum s.tree) (ha : a.2 < nodeNum s.tree)
    (hmem : a ∈ outArcs s.tree p) (hq : x.table.find (hashOf s p) = some q) :
    ∃ k, x.table.find (hashOf s a.2) = some k ∧ (link x.target q k).arc ≠ none := by
  obtain ⟨q', k, hq', hk, hedge⟩ := hsub (hashOf s p) (arc s.tree a.1 : ArcData G).move
    (hashOf s a.2) ⟨p, a.2, getNode_hashOf hs hp, getNode_hashOf hs ha, mem_edges_of_outArcs hmem⟩
  obtain rfl := Option.some.inj (hq.symm.trans (h.table hq'))
  rw [← (h.kept hsub).2 q (ht.lt _ _ hq')] at hedge
  exact ⟨k, h.table hk, (link_arc_ne_none_iff _ _ _).mpr ⟨_, hedge⟩⟩

omit [LawfulSearchTree τ] in
/-- Crossing an arc to a node not visited before. -/
theorem WalkInv.crossed (ht : t.transpositionTable.Bijective (nodeNum t.tree))
    (hs : s.transpositionTable.Bijective (nodeNum s.tree)) (h : WalkInv t s x)
    (hcross : Crossed (hashOf s a.2) q x y a) (hnew : x.visited a.2 = false)
    (hne : a.2 ≠ rootNode s.tree) (hp : p < nodeNum s.tree) (ha : a.2 < nodeNum s.tree)
    (hmem : a ∈ outArcs s.tree p) (hq : x.table.find (hashOf s p) = some q) : WalkInv t s y := by
  have hqlt := h.bijective.lt _ _ hq
  constructor
  case source_outArcs => exact fun n => (hcross.outArcs n).trans (h.source_outArcs n)
  case source_arc => exact fun i => (hcross.arc i).trans (h.source_arc i)
  case source_num => exact hcross.num.trans h.source_num
  case source_node =>
    intro n hn
    rw [hcross.visited, Bool.or_eq_false_iff, decide_eq_false_iff_not] at hn
    rw [hcross.node n hn.1, h.source_node n hn.2]
  case data => exact h.data_crossed hs hcross hnew hne ha
  case appended =>
    intro n hn
    obtain ⟨extra, hextra⟩ := h.appended n hn
    obtain ⟨more, hmore⟩ := hcross.appended (hn.trans_le h.num_le)
    exact ⟨extra ++ more, by rw [hmore, hextra, List.append_assoc]⟩
  case bijective =>
    rcases hcross.child with ⟨k, hk⟩ | hk
    · rw [hk.table, hk.num]
      exact h.bijective
    · rw [hk.table, hk.num]
      exact h.bijective.emplace hk.find
  case num_le =>
    have hnum := h.num_le
    rcases hcross.child with ⟨k, hk⟩ | hk
    · rw [hk.num]
      exact hnum
    · rw [hk.num]
      omega
  case table =>
    intro hash n hn
    exact hcross.find_of_find (h.table hn)
  case grown =>
    rcases hcross.child with ⟨k, hk⟩ | hk
    · by_cases hlink : (link x.target q k).arc = none
      · exact Or.inr (h.grown_of_append hcross hqlt (by rw [hk.edges, if_pos ⟨rfl, hlink⟩]))
      · have hsame : ∀ i, edges y.target i = edges x.target i := fun i => by
          rw [hk.edges, if_neg fun hand => hlink hand.2]
        refine h.grown.imp (fun hx => ⟨hk.num.trans hx.1, fun n hn => ?_⟩) ?_
        · rw [hsame, hx.2 n hn]
        · intro h'
          obtain ⟨n, extra, hn, hne, hextra⟩ := h'
          exact ⟨n, extra, hn, hne, by rw [hsame, hextra]⟩
    · exact Or.inr (h.grown_of_append hcross hqlt (by rw [hk.edges, if_pos rfl]))
  case kept =>
    intro hsub
    obtain ⟨k, hfind, hlink⟩ := h.link_of_included ht hs hsub hp ha hmem hq
    rcases hcross.child with ⟨k', hk⟩ | hk
    · obtain rfl := Option.some.inj (hfind.symm.trans hk.find)
      refine ⟨hk.num.trans (h.kept hsub).1, fun n hn => ?_⟩
      rw [hk.edges, if_neg fun hand => hlink hand.2, (h.kept hsub).2 n hn]
    · rw [hk.find] at hfind
      cases hfind

-- ============================================================ one turn

/-- The walk between two turns. -/
structure MergeInv (t s : Mcts τ) (x : Walk τ) : Prop where
  walk : WalkInv t s x
  frontier : Frontier (targets s.tree) (rootNode s.tree) (fun n => x.visited n = true) x.queue

/-- The walk before its first turn. -/
def startWalk (t s : Mcts τ) : Walk τ where
  target := t.tree
  source := s.tree
  table := t.transpositionTable
  visited := fun n => n = rootNode s.tree
  queue := [rootNode s.tree]

omit [LawfulSearchTree τ] in
theorem mergeInv_start (ht : t.transpositionTable.Bijective (nodeNum t.tree)) :
    MergeInv t s (startWalk t s) := by
  have hnone : ∀ hash, (s.getNode hash).filter (added s (startWalk t s)) = none := by
    intro hash
    rw [Option.filter_eq_none_iff]
    intro k _
    simp [added, startWalk]
  constructor
  case frontier => simpa [startWalk] using Frontier.start (targets s.tree) (rootNode s.tree)
  case walk =>
    constructor
    case source_outArcs => exact fun _ => rfl
    case source_arc => exact fun _ => rfl
    case source_num => rfl
    case source_node => exact fun _ _ => rfl
    case bijective => exact ht
    case num_le => exact le_rfl
    case table => exact fun hn => hn
    case data =>
      intro hash
      rw [hnone, Option.map_none, Option.merge_none_right]
      rfl
    case appended => exact fun n _ => ⟨[], (List.append_nil _).symm⟩
    case grown => exact Or.inl ⟨rfl, fun _ _ => rfl⟩
    case kept => exact fun _ => ⟨rfl, fun _ _ => rfl⟩

section Turn

variable (ht : t.transpositionTable.Bijective (nodeNum t.tree))
  (hs : s.transpositionTable.Bijective (nodeNum s.tree)) (hsroot : rootNode s.tree < nodeNum s.tree)
  (htargets : ∀ {n k}, n < nodeNum s.tree → k ∈ targets s.tree n → k < nodeNum s.tree)
  (hroots : t.getNode (hashOf s (rootNode s.tree)) ≠ none)

omit [LawfulSearchTree τ] in
include hs hroots in
/-- The target has the hash of every node visited. -/
theorem WalkInv.found (h : WalkInv t s x) (hp : p < nodeNum s.tree) (hvisited : x.visited p = true) :
    ∃ q, x.table.find (hashOf s p) = some q := by
  by_cases hpr : p = rootNode s.tree
  · obtain ⟨q, hq⟩ := Option.ne_none_iff_exists'.mp hroots
    exact ⟨q, h.table (hpr ▸ hq)⟩
  · refine Option.ne_none_iff_exists'.mp fun hnone => ?_
    have hdata := h.data (hashOf s p)
    rw [hnone, Option.map_none, getNode_hashOf hs hp, Option.filter_some_pos] at hdata
    · have hpart := (Option.merge_eq_none_iff.mp hdata.symm).2
      rw [Option.map_some] at hpart
      cases hpart
    · unfold added
      rw [hvisited, Bool.true_and, bne_iff_ne]
      exact hpr

include ht hs hsroot htargets hroots

/-- A turn: all out-arcs of the node at the front of the queue. -/
theorem MergeInv.walkNode (h : MergeInv t s x) (hmore : (!x.queue.isEmpty) = true) :
    ∃ p rest y, x.queue.Perm (p :: rest) ∧ p ∈ Finset.range (nodeNum s.tree)
      ∧ Mcts.walkNode G s.transpositionTable.invert x = some y ∧ MergeInv t s y
      ∧ Scanned (fun n => x.visited n = true) rest (targets s.tree p)
          (fun n => y.visited n = true) y.queue := by
  obtain ⟨hwalk, hfrontier⟩ := h
  cases hqueue : x.queue with
  | nil => simp [hqueue] at hmore
  | cons p rest =>
      rw [hqueue] at hfrontier
      have hseen := hfrontier.work_seen p (List.mem_cons_self ..)
      have hlt : ∀ {n}, x.visited n = true → n < nodeNum s.tree := fun {n} hn =>
        (hfrontier.sound n hn).closed (P := fun n => n < nodeNum s.tree) htargets hsroot
      have hp := hlt hseen
      obtain ⟨q, hq⟩ := hwalk.found hs hroots hp hseen
      have hnodup := List.nodup_cons.mp hfrontier.nodup
      have hstart : WalkInv t s { x with queue := rest } :=
        ⟨hwalk.source_outArcs, hwalk.source_arc, hwalk.source_num, hwalk.source_node,
          hwalk.bijective, hwalk.num_le, hwalk.table, hwalk.data, hwalk.appended, hwalk.grown,
          hwalk.kept⟩
      have hloop := Loops.foldl_inv
        (f := Mcts.walkArc G s.transpositionTable.invert q) (l := outArcs s.tree p)
        (b := ({ x with queue := rest } : Walk τ))
        (I := fun l y => WalkInv t s y ∧ y.table.find (hashOf s p) = some q
          ∧ Scanned (fun n => x.visited n = true) rest (l.map Prod.snd)
              (fun n => y.visited n = true) y.queue)
        ⟨hstart, hq, .start _ hnodup.2⟩
        (by
          intro l a l' y hl hI
          obtain ⟨hy, hyq, hscan⟩ := hI
          have hmem : a ∈ outArcs s.tree p :=
            hl ▸ List.mem_append_right _ (List.mem_cons_self ..)
          have ha : a.2 < nodeNum s.tree := htargets hp (List.mem_map.mpr ⟨a, hmem, rfl⟩)
          rw [List.map_append, List.map_singleton]
          by_cases hvisited : y.visited a.2 = true
          · rw [walkArc_visited hvisited]
            exact ⟨hy, hyq, hscan.skip hvisited⟩
          · have hnew := Bool.not_eq_true _ ▸ hvisited
            have hcross : Crossed (hashOf s a.2) q y
                (Mcts.walkArc G s.transpositionTable.invert q y a) a :=
              walkArc_crossed hnew (hy.source_num ▸ ha) (hy.bijective.lt _ _ hyq)
                fun k hk => hy.bijective.lt _ _ hk
            have hne : a.2 ≠ rootNode s.tree := fun heq => by
              rw [heq, (hscan.seen_iff _).mpr (Or.inl hfrontier.root_seen)] at hvisited
              exact hvisited rfl
            refine ⟨hy.crossed ht hs hcross hnew hne hp ha hmem hyq, hcross.find_of_find hyq, ?_⟩
            refine hscan.push (fun c hc => hfrontier.work_seen c (List.mem_cons_of_mem _ hc))
              hvisited (fun c => ?_) ?_
            · rw [hcross.visited]
              simp
            · rw [hcross.queue]
              exact List.perm_append_singleton _ _)
      obtain ⟨hy, -, hscan⟩ := hloop
      refine ⟨p, rest, _, .refl _, Finset.mem_range.mpr hp, ?_, ⟨hy, hfrontier.scan hscan⟩, hscan⟩
      unfold Mcts.walkNode
      rw [hqueue]
      have hfind : x.table.find (s.transpositionTable.invert[p]?.getD 0) = some q := hq
      simp only [hfind, Option.map_some, hwalk.source_outArcs]

-- ============================================================ the walk

/-- The walk is a search from the root of the source. -/
theorem walk_isSearch :
    IsSearch (targets s.tree) (rootNode s.tree) (Finset.range (nodeNum s.tree))
      (fun x : Walk τ => !x.queue.isEmpty) (Mcts.walkNode G s.transpositionTable.invert)
      (MergeInv t s) (fun x n => x.visited n = true) Walk.queue where
  frontier h := h.frontier
  done _ hdone := by simpa using hdone
  turn h hmore := h.walkNode ht hs hsroot htargets hroots hmore

/-- The walk comes to an end. -/
theorem mergeInto_total : ∀ fuel, nodeNum s.tree ≤ fuel → ∃ m, Mcts.mergeInto G fuel t s = some m := by
  intro fuel hfuel
  obtain ⟨x, hx⟩ := (walk_isSearch ht hs hsroot htargets hroots).total (mergeInv_start ht)
    ((Finset.card_range _).trans_le hfuel)
  refine Option.ne_none_iff_exists'.mp fun hnone => ?_
  unfold Mcts.mergeInto at hnone
  rw [Option.map_eq_none_iff] at hnone
  exact Option.some_ne_none x (hx.symm.trans hnone)

/-- What it leaves. -/
theorem mergeInto_spec {fuel : Nat} {m : Mcts τ} (hrun : Mcts.mergeInto G fuel t s = some m) :
    Merged t s m := by
  unfold Mcts.mergeInto at hrun
  obtain ⟨x, hx, rfl⟩ := Option.map_eq_some_iff.mp hrun
  have hsearch := walk_isSearch ht hs hsroot htargets hroots
  have hstart : MergeInv t s (startWalk t s) := mergeInv_start ht
  obtain ⟨⟨hwalk, -⟩, -⟩ := hsearch.exit hstart hx
  refine ⟨hwalk.bijective, hwalk.table, ⟨added s x, fun k => ?_, hwalk.data⟩, hwalk.appended,
    hwalk.grown, hwalk.kept⟩
  unfold added
  rw [Bool.and_eq_true, hsearch.seen_iff_reachable hstart hx, bne_iff_ne]

end Turn

end Walk

end MctsConnectFour
