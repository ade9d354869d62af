/-
The digraph the search is kept in.

`fst::SearchTree` is not part of the repository: mcts.hpp includes it
from a library of its own. It is a parameter here, the class
`SearchTree` of the operations mcts.hpp calls, and what the search
relies on is the class `LawfulSearchTree`: nodes are numbered densely
from zero in the order they are added, data is kept where it was put,
and the out-arcs of a node are iterated in the order they were added.
`link` and `isInternal` are defined from the out-iteration, as the
repository's older tree (stable_rooted_digraph-1.2.hpp) defines them.

`edges` is the part of a tree the search reasons about: the out-arcs
of a node with their data, without the ids of the arcs.

The in-iteration is a class of its own, since only the counting of
transpositions asks for it. The root has an arc from nowhere. In the older
tree it is among the in-arcs of the node the tree was constructed with, and
stays there when the root is moved; here it may be at any node, or at none.

# A tree

`FlatTree` implements the operations with lists and satisfies the laws.
No theorem is about it, but statements about all lawful trees are
statements about something because of it.
-/
import Mathlib.Data.Finset.Card
import Mathlib.Data.List.Basic
import Mathlib.Data.List.Dedup
import Mathlib.Tactic.Common

namespace MctsConnectFour

-- =========================================================== operations

/-- `Tree::Link`; `none` is an invalid id. -/
structure Link where
  arc : Option Nat
  target : Option Nat
deriving DecidableEq, Repr

instance : Inhabited Link := ⟨⟨none, none⟩⟩

/-- The members of `fst::SearchTree < A, N >` that mcts.hpp uses. -/
class SearchTree (τ : Type) (A N : outParam Type) where
  /-- a default constructed tree -/
  new : τ
  /-- `root_node` -/
  rootNode : τ → Nat
  /-- `root_node = n` -/
  setRootNode : τ → Nat → τ
  /-- `root_arc` -/
  rootArc : τ → Option Nat
  /-- `nodeNum ( )` -/
  nodeNum : τ → Nat
  /-- `nodesSize ( )` -/
  nodesSize : τ → Nat
  /-- `m_tree [ node ]` -/
  node : τ → Nat → N
  /-- `m_tree [ node ] = d` -/
  setNode : τ → Nat → N → τ
  /-- `m_tree [ arc ]` -/
  arc : τ → Nat → A
  /-- `addNode ( d )`: the tree and the id of the node. -/
  addNode : τ → N → τ × Nat
  /-- `addArc ( source, target, d )`: the tree and the id of the arc. -/
  addArc : τ → Nat → Nat → A → τ × Nat
  /-- The out-iteration of a node: arc and target, in order. -/
  outArcs : τ → Nat → List (Nat × Nat)

namespace SearchTree

variable {τ A N : Type} [SearchTree τ A N]

/-- `link ( source, target )`. -/
def link (t : τ) (source target : Nat) : Link :=
  ⟨((outArcs t source).find? fun x => x.2 == target).map Prod.fst, some target⟩

/-- `isInternal ( )`. -/
def isInternal (t : τ) (n : Nat) : Bool := !(outArcs t n).isEmpty

/-- The out-arcs of a node: data and target, in order. -/
def edges (t : τ) (n : Nat) : List (A × Nat) :=
  (outArcs t n).map fun x => (arc t x.1, x.2)

end SearchTree

-- ================================================================= laws

open SearchTree in
/-- The behaviour of `fst::SearchTree` the search relies on. -/
class LawfulSearchTree (τ : Type) {A N : Type} [SearchTree τ A N] : Prop where
  nodeNum_new : nodeNum (new : τ) = 1
  rootNode_new : rootNode (new : τ) = 0
  outArcs_new : ∀ n, outArcs (new : τ) n = []
  nodesSize_eq : ∀ t : τ, nodesSize t = nodeNum t
  rootNode_setRootNode : ∀ (t : τ) {n : Nat}, n < nodeNum t → rootNode (setRootNode t n) = n
  nodeNum_setRootNode : ∀ (t : τ) (n : Nat), nodeNum (setRootNode t n) = nodeNum t
  node_setRootNode : ∀ (t : τ) (n k : Nat), node (setRootNode t n) k = node t k
  arc_setRootNode : ∀ (t : τ) (n a : Nat), arc (setRootNode t n) a = arc t a
  outArcs_setRootNode : ∀ (t : τ) (n k : Nat), outArcs (setRootNode t n) k = outArcs t k
  rootNode_setNode : ∀ (t : τ) (n : Nat) (d : N), rootNode (setNode t n d) = rootNode t
  nodeNum_setNode : ∀ (t : τ) (n : Nat) (d : N), nodeNum (setNode t n d) = nodeNum t
  node_setNode : ∀ (t : τ) {n : Nat} (d : N) (k : Nat), n < nodeNum t →
    node (setNode t n d) k = if k = n then d else node t k
  arc_setNode : ∀ (t : τ) (n : Nat) (d : N) (a : Nat), arc (setNode t n d) a = arc t a
  outArcs_setNode : ∀ (t : τ) (n : Nat) (d : N) (k : Nat),
    outArcs (setNode t n d) k = outArcs t k
  addNode_id : ∀ (t : τ) (d : N), (addNode t d).2 = nodeNum t
  rootNode_addNode : ∀ (t : τ) (d : N), rootNode (addNode t d).1 = rootNode t
  nodeNum_addNode : ∀ (t : τ) (d : N), nodeNum (addNode t d).1 = nodeNum t + 1
  node_addNode : ∀ (t : τ) (d : N) (k : Nat),
    node (addNode t d).1 k = if k = nodeNum t then d else node t k
  arc_addNode : ∀ (t : τ) (d : N) (a : Nat), arc (addNode t d).1 a = arc t a
  outArcs_addNode : ∀ (t : τ) (d : N) (k : Nat),
    outArcs (addNode t d).1 k = if k = nodeNum t then [] else outArcs t k
  rootNode_addArc : ∀ (t : τ) (n k : Nat) (d : A), rootNode (addArc t n k d).1 = rootNode t
  nodeNum_addArc : ∀ (t : τ) (n k : Nat) (d : A), nodeNum (addArc t n k d).1 = nodeNum t
  node_addArc : ∀ (t : τ) (n k : Nat) (d : A) (i : Nat), node (addArc t n k d).1 i = node t i
  arc_addArc : ∀ (t : τ) (n k : Nat) (d : A) (a : Nat),
    arc (addArc t n k d).1 a = if a = (addArc t n k d).2 then d else arc t a
  addArc_fresh : ∀ (t : τ) (n k : Nat) (d : A) (i : Nat), ∀ x ∈ outArcs t i,
    x.1 ≠ (addArc t n k d).2
  outArcs_addArc : ∀ (t : τ) {n : Nat} (k : Nat) (d : A) (i : Nat), n < nodeNum t →
    outArcs (addArc t n k d).1 i
      = if i = n then outArcs t i ++ [((addArc t n k d).2, k)] else outArcs t i

-- ============================================================= in-arcs

/-- The in-iteration of `fst::SearchTree`. -/
class InArcs (τ : Type) where
  /-- The in-iteration of a node: its arcs, in order. -/
  inArcs : τ → Nat → List Nat
  /-- the node that has the root arc among its in-arcs -/
  rootTarget : τ → Option Nat

namespace SearchTree

open InArcs

/-- `inArcNum ( n )`. -/
def inArcNum {τ : Type} [InArcs τ] (t : τ) (n : Nat) : Nat := (inArcs t n).length

/-- `a` is an arc of the tree, and leads to `n`. -/
def InArc {τ A N : Type} [SearchTree τ A N] [InArcs τ] (t : τ) (a n : Nat) : Prop :=
  (∃ k < nodeNum t, (a, n) ∈ outArcs t k) ∨ (rootArc t = some a ∧ rootTarget t = some n)

end SearchTree

open SearchTree InArcs in
/-- The in-iteration of a node goes over the arcs that lead to it, once
each. -/
class LawfulInArcs (τ : Type) {A N : Type} [SearchTree τ A N] [InArcs τ] : Prop where
  nodup_inArcs : ∀ (t : τ) {n : Nat}, n < nodeNum t → (inArcs t n).Nodup
  mem_inArcs : ∀ (t : τ) {n : Nat} (a : Nat), n < nodeNum t → (a ∈ inArcs t n ↔ InArc t a n)

namespace SearchTree

/-- A node has more than one in-arc when there are two. -/
theorem one_lt_inArcNum_iff {τ A N : Type} [SearchTree τ A N] [InArcs τ] [LawfulInArcs τ] (t : τ)
    {n : Nat} (hn : n < nodeNum t) :
    1 < inArcNum t n ↔ ∃ a b, a ≠ b ∧ InArc t a n ∧ InArc t b n := by
  simp only [← LawfulInArcs.mem_inArcs t _ hn, inArcNum]
  rw [← List.toFinset_card_of_nodup (LawfulInArcs.nodup_inArcs t hn), Finset.one_lt_card_iff]
  simp only [List.mem_toFinset]
  constructor
  · intro h
    obtain ⟨a, b, ha, hb, hne⟩ := h
    exact ⟨a, b, hne, ha, hb⟩
  · intro h
    obtain ⟨a, b, hne, ha, hb⟩ := h
    exact ⟨a, b, ha, hb, hne⟩

section Edges

variable {τ A N : Type} [SearchTree τ A N]

/-- A node is internal when it has edges. -/
theorem isInternal_iff (t : τ) (n : Nat) : isInternal t n = true ↔ edges t n ≠ [] := by
  simp [isInternal, edges]

/-- The edge of an out-arc. -/
theorem mem_edges_of_outArcs {t : τ} {n a k : Nat} (h : (a, k) ∈ outArcs t n) :
    (arc t a, k) ∈ edges t n :=
  List.mem_map.mpr ⟨(a, k), h, rfl⟩

/-- A link names an arc when there is an edge to its target. -/
theorem link_arc_ne_none_iff (t : τ) (n k : Nat) :
    (link t n k).arc ≠ none ↔ ∃ d, (d, k) ∈ edges t n := by
  unfold link edges
  simp only [ne_eq, Option.map_eq_none_iff, List.find?_eq_none, beq_iff_eq, not_forall, not_not,
    List.mem_map, Prod.mk.injEq]
  constructor
  · intro h
    obtain ⟨⟨a, k'⟩, hmem, rfl⟩ := h
    exact ⟨arc t a, (a, k'), hmem, rfl, rfl⟩
  · intro h
    obtain ⟨d, ⟨a, k'⟩, hmem, -, rfl⟩ := h
    exact ⟨(a, k'), hmem, rfl⟩

variable [LawfulSearchTree τ]

open LawfulSearchTree

@[simp] theorem edges_setRootNode (t : τ) (n k : Nat) :
    edges (setRootNode t n) k = edges t k := by
  simp only [edges, outArcs_setRootNode, arc_setRootNode]

@[simp] theorem edges_setNode (t : τ) (n : Nat) (d : N) (k : Nat) :
    edges (setNode t n d) k = edges t k := by
  simp only [edges, outArcs_setNode, arc_setNode]

theorem edges_addNode (t : τ) (d : N) (k : Nat) :
    edges (addNode t d).1 k = if k = nodeNum t then [] else edges t k := by
  simp only [edges, outArcs_addNode, arc_addNode]
  split <;> rfl

/-- A new arc is the last edge of its source. -/
theorem edges_addArc (t : τ) {n : Nat} (k : Nat) (d : A) (i : Nat) (hn : n < nodeNum t) :
    edges (addArc t n k d).1 i = if i = n then edges t i ++ [(d, k)] else edges t i := by
  have hold : (outArcs t i).map (fun x => (arc (addArc t n k d).1 x.1, x.2)) = edges t i := by
    refine List.map_congr_left fun x hx => ?_
    rw [arc_addArc, if_neg (addArc_fresh t n k d i x hx)]
  unfold edges at hold ⊢
  rw [outArcs_addArc t k d i hn]
  split
  · rw [List.map_append, hold, List.map_singleton, arc_addArc, if_pos rfl]
  · exact hold

/-- What `m_tree [ n ] = d` leaves. -/
theorem setNode_spec {t u : τ} {n : Nat} {d : N} (hn : n < nodeNum t) (hu : setNode t n d = u) :
    nodeNum u = nodeNum t ∧ rootNode u = rootNode t
      ∧ (∀ k, node u k = if k = n then d else node t k) ∧ ∀ k, edges u k = edges t k := by
  subst hu
  exact ⟨nodeNum_setNode t n d, rootNode_setNode t n d, fun k => node_setNode t d k hn,
    edges_setNode t n d⟩

/-- A tree of one node, its root. -/
structure OneNode (t : τ) (d : N) : Prop where
  num : nodeNum t = 1
  root : rootNode t = 0
  data : node t 0 = d
  no_arcs : ∀ n, outArcs t n = []

/-- A new tree, the root of which has been given data. -/
theorem oneNode_setNode_new (d : N) : OneNode (setNode (new : τ) (rootNode (new : τ)) d) d where
  num := by rw [nodeNum_setNode, nodeNum_new]
  root := by rw [rootNode_setNode, rootNode_new]
  data := by rw [node_setNode _ _ _ (by rw [rootNode_new, nodeNum_new]; exact Nat.one_pos),
    if_pos rootNode_new.symm]
  no_arcs n := by rw [outArcs_setNode, outArcs_new]

omit [LawfulSearchTree τ] in
theorem OneNode.eq_zero {t : τ} {d : N} (h : OneNode t d) {n : Nat} (hn : n < nodeNum t) :
    n = 0 := by
  rw [h.num] at hn
  exact Nat.lt_one_iff.mp hn

omit [LawfulSearchTree τ] in
theorem OneNode.edges {t : τ} {d : N} (h : OneNode t d) (n : Nat) : edges t n = [] := by
  rw [SearchTree.edges, h.no_arcs, List.map_nil]

end Edges

end SearchTree

-- =============================================================== a tree

/-- A tree in lists: for each node its data and out-arcs, for each arc
its data. Every arc listed at a node has data. -/
structure FlatTree (A N : Type) where
  root : Nat
  nodes : List (N × List (Nat × Nat))
  arcs : List A
  ids_lt : ∀ r ∈ nodes, ∀ x ∈ r.2, x.1 < arcs.length

namespace FlatTree

variable {A N : Type}

/-- The out-arcs of a node. -/
def out (t : FlatTree A N) (n : Nat) : List (Nat × Nat) := (t.nodes[n]?.map Prod.snd).getD []

theorem out_lt (t : FlatTree A N) (n : Nat) : ∀ x ∈ t.out n, x.1 < t.arcs.length := by
  intro x hx
  unfold out at hx
  cases hn : t.nodes[n]? with
  | none => simp [hn] at hx
  | some r =>
      rw [hn] at hx
      exact t.ids_lt r (List.mem_of_getElem? hn) x hx

variable [Inhabited A] [Inhabited N]

instance : SearchTree (FlatTree A N) A N where
  new := ⟨0, [(default, [])], [], by simp⟩
  rootNode := root
  setRootNode t n := { t with root := n }
  rootArc _ := none
  nodeNum t := t.nodes.length
  nodesSize t := t.nodes.length
  node t n := (t.nodes[n]?.map Prod.fst).getD default
  setNode t n d :=
    { t with
      nodes := t.nodes.set n (d, t.out n)
      ids_lt := by
        intro r hr
        rcases List.mem_or_eq_of_mem_set hr with hr | rfl
        · exact t.ids_lt r hr
        · exact t.out_lt n }
  arc t a := t.arcs[a]?.getD default
  addNode t d :=
    ({ t with
      nodes := t.nodes ++ [(d, [])]
      ids_lt := by
        intro r hr
        rcases List.mem_append.mp hr with hr | hr
        · exact t.ids_lt r hr
        · rw [List.mem_singleton.mp hr]
          simp }, t.nodes.length)
  addArc t n k d :=
    ({ t with
      nodes := t.nodes.set n
        ((t.nodes[n]?.map Prod.fst).getD default, t.out n ++ [(t.arcs.length, k)])
      arcs := t.arcs ++ [d]
      ids_lt := by
        intro r hr x hx
        rw [List.length_append, List.length_singleton]
        rcases List.mem_or_eq_of_mem_set hr with hr | rfl
        · exact Nat.lt_succ_of_lt (t.ids_lt r hr x hx)
        · rcases List.mem_append.mp hx with hx | hx
          · exact Nat.lt_succ_of_lt (t.out_lt n x hx)
          · rw [List.mem_singleton.mp hx]
            exact Nat.lt_succ_self _ }, t.arcs.length)
  outArcs := out

/-- A replaced record of a node. -/
private theorem getElem?_set_record {α : Type} (l : List α) (n k : Nat) (x : α)
    (hn : n < l.length) : (l.set n x)[k]? = if k = n then some x else l[k]? := by
  rw [List.getElem?_set]
  by_cases h : n = k
  · subst h
    simp [hn]
  · rw [if_neg h, if_neg fun hk => h hk.symm]

/-- A record appended. -/
private theorem getElem?_concat_record {α : Type} (l : List α) (k : Nat) (x : α) :
    (l ++ [x])[k]? = if k = l.length then some x else l[k]? := by
  by_cases h : k = l.length
  · subst h
    simp
  · rw [if_neg h]
    rcases Nat.lt_or_gt_of_ne h with hlt | hgt
    · exact List.getElem?_append_left hlt
    · rw [List.getElem?_eq_none (by rw [List.length_append, List.length_singleton]; omega),
        List.getElem?_eq_none (by omega)]

/-- The lists behave as the search expects. -/
instance : LawfulSearchTree (FlatTree A N) where
  nodeNum_new := rfl
  rootNode_new := rfl
  outArcs_new n := by
    cases n <;> rfl
  nodesSize_eq _ := rfl
  rootNode_setRootNode _ _ _ := rfl
  nodeNum_setRootNode _ _ := rfl
  node_setRootNode _ _ _ := rfl
  arc_setRootNode _ _ _ := rfl
  outArcs_setRootNode _ _ _ := rfl
  rootNode_setNode _ _ _ := rfl
  nodeNum_setNode _ _ _ := List.length_set
  node_setNode t n d k hn := by
    show ((t.nodes.set n (d, t.out n))[k]?.map Prod.fst).getD default = _
    rw [getElem?_set_record _ _ _ _ hn]
    split <;> rfl
  arc_setNode _ _ _ _ := rfl
  outArcs_setNode t n d k := by
    show ((t.nodes.set n (d, t.out n))[k]?.map Prod.snd).getD [] = t.out k
    by_cases hn : n < t.nodes.length
    · rw [getElem?_set_record _ _ _ _ hn]
      split
      · next h => rw [h]; rfl
      · rfl
    · rw [List.set_eq_of_length_le (Nat.not_lt.mp hn)]
      rfl
  addNode_id _ _ := rfl
  rootNode_addNode _ _ := rfl
  nodeNum_addNode t d := List.length_append
  node_addNode t d k := by
    show ((t.nodes ++ [(d, [])])[k]?.map Prod.fst).getD default
      = if k = t.nodes.length then d else (t.nodes[k]?.map Prod.fst).getD default
    rw [getElem?_concat_record]
    split <;> rfl
  arc_addNode _ _ _ := rfl
  outArcs_addNode t d k := by
    show ((t.nodes ++ [(d, [])])[k]?.map Prod.snd).getD []
      = if k = t.nodes.length then [] else (t.nodes[k]?.map Prod.snd).getD []
    rw [getElem?_concat_record]
    split <;> rfl
  rootNode_addArc _ _ _ _ := rfl
  nodeNum_addArc _ _ _ _ := List.length_set
  node_addArc t n k d i := by
    show ((t.nodes.set n _)[i]?.map Prod.fst).getD default = (t.nodes[i]?.map Prod.fst).getD default
    by_cases hn : n < t.nodes.length
    · rw [getElem?_set_record _ _ _ _ hn]
      split
      · next h => rw [h]; rfl
      · rfl
    · rw [List.set_eq_of_length_le (Nat.not_lt.mp hn)]
  arc_addArc t n k d a := by
    show (t.arcs ++ [d])[a]?.getD default = if a = t.arcs.length then d else t.arcs[a]?.getD default
    rw [getElem?_concat_record]
    split <;> rfl
  addArc_fresh t n k d i x hx := Nat.ne_of_lt (t.out_lt i x hx)
  outArcs_addArc t n k d i hn := by
    show ((t.nodes.set n _)[i]?.map Prod.snd).getD [] = _
    rw [getElem?_set_record _ _ _ _ hn]
    split
    · next h => rw [h]; rfl
    · rfl

/-- Its in-arcs are looked up among the out-arcs of all nodes. -/
instance : InArcs (FlatTree A N) where
  inArcs t n := (((t.nodes.flatMap Prod.snd).filter (·.2 = n)).map Prod.fst).dedup
  rootTarget _ := none

instance : LawfulInArcs (FlatTree A N) where
  nodup_inArcs _ _ _ := List.nodup_dedup _
  mem_inArcs t n a _ := by
    show a ∈ (((t.nodes.flatMap Prod.snd).filter (·.2 = n)).map Prod.fst).dedup ↔
      (∃ k < t.nodes.length, (a, n) ∈ t.out k) ∨ (none = some a ∧ none = some n)
    simp only [List.mem_dedup, List.mem_map, List.mem_filter, List.mem_flatMap, decide_eq_true_eq]
    constructor
    · intro h
      obtain ⟨⟨a', n'⟩, ⟨⟨r, hr, hx⟩, rfl⟩, rfl⟩ := h
      obtain ⟨k, hk, rfl⟩ := List.getElem_of_mem hr
      refine Or.inl ⟨k, hk, ?_⟩
      unfold FlatTree.out
      rw [List.getElem?_eq_getElem hk]
      exact hx
    · intro h
      rcases h with ⟨k, hk, hx⟩ | ⟨h, -⟩
      · unfold FlatTree.out at hx
        rw [List.getElem?_eq_getElem hk] at hx
        exact ⟨(a, n), ⟨⟨_, List.getElem_mem hk, hx⟩, rfl⟩, rfl⟩
      · cases h

end FlatTree

end MctsConnectFour
