/-
Pruning copies the part of the digraph that can be reached.

The copying is a worklist walk over the old out-arcs (Lib/Worklist.lean)
that builds the new tree as it goes. `CopyInv` is what holds between any
two arcs of it: the ids seen so far are numbered one to one, a new node
has the data its old node had at the start, which is still in place for
every node not seen, and of each old node the new one has a known `part`
of the out-arcs. Between two turns the part is nothing for the nodes on
the stack and everything for the others; inside a turn it is what the
loop has got to for the node expanded.

`IsCopy` is what is left of this at the end, where the stack is empty.
-/
import MctsConnectFour.Lib.Numbering
import MctsConnectFour.Lib.Worklist
import MctsConnectFour.Mcts.Tree

namespace MctsConnectFour

open SearchTree LawfulSearchTree Worklist
open Mcts (Copy)
open Numbering

variable {G : Game} {τ : Type} [SearchTree τ (ArcData G) (NodeData G)]

/-- The targets of the out-arcs of a node. -/
def targets (t : τ) (n : Nat) : List Nat := (outArcs t n).map Prod.snd

/-- The arcs `es` of a tree with their targets renumbered. -/
def Renumbered (f : Nat → Option Nat) (es es' : List (ArcData G × Nat)) : Prop :=
  List.Forall₂ (fun e e' => e'.1 = e.1 ∧ f e.2 = some e'.2) es es'

/-- `f` numbers the nodes that can be reached from `r` in `t` by the
nodes of `t'`, and `t'` is that part of `t`: each node has its data and
its out-arcs in order. -/
structure IsCopy (t : τ) (r : Nat) (t' : τ) (f : Nat → Option Nat) : Prop where
  reachable : ∀ n, f n ≠ none ↔ Reachable (targets t) r n
  root : f r = some (rootNode t')
  inj : ∀ {n n' k}, f n = some k → f n' = some k → n = n'
  image : ∀ k, k < nodeNum t' ↔ ∃ n, f n = some k
  data : ∀ {n k}, f n = some k → node t' k = node t n
  arcs : ∀ {n k}, f n = some k → Renumbered f (edges t n) (edges t' k)

-- ======================================================== the invariant

/-- The copying between two arcs, when `part n` of the out-arcs of a seen
node `n` have been copied. -/
structure CopyInv (t : τ) (r : Nat) (part : Nat → List (ArcData G × Nat)) (x : Copy τ) :
    Prop where
  old_outArcs : ∀ n, outArcs x.old n = outArcs t n
  old_arc : ∀ a, arc x.old a = arc t a
  old_num : nodeNum x.old = nodeNum t
  old_node : ∀ n, x.visited n = none → node x.old n = node t n
  root : x.visited r = some (rootNode x.new)
  bound : ∀ {n k}, x.visited n = some k → n < nodeNum t ∧ k < nodeNum x.new
  inj : ∀ {n n' k}, x.visited n = some k → x.visited n' = some k → n = n'
  surj : ∀ {k}, k < nodeNum x.new → ∃ n, x.visited n = some k
  data : ∀ {n k}, x.visited n = some k → node x.new k = node t n
  arcs : ∀ {n k}, x.visited n = some k → Renumbered x.visited (part n) (edges x.new k)

theorem CopyInv.numbered {t : τ} {r : Nat} {part : Nat → List (ArcData G × Nat)} {x : Copy τ}
    (h : CopyInv t r part x) : Numbered x.visited (nodeNum x.new) :=
  ⟨fun hn => (h.bound hn).2, h.inj, h.surj⟩

theorem Renumbered.mono {f f' : Nat → Option Nat} {es es' : List (ArcData G × Nat)}
    (hf : ∀ n k, f n = some k → f' n = some k) (h : Renumbered f es es') :
    Renumbered f' es es' := by
  unfold Renumbered at h ⊢
  exact h.imp fun e e' he => ⟨he.1, hf _ _ he.2⟩

theorem Renumbered.concat {f : Nat → Option Nat} {es es' : List (ArcData G × Nat)} {d : ArcData G}
    {n k : Nat} (h : Renumbered f es es') (hn : f n = some k) :
    Renumbered f (es ++ [(d, n)]) (es' ++ [(d, k)]) := by
  unfold Renumbered at h ⊢
  exact List.rel_append h (List.Forall₂.cons ⟨rfl, hn⟩ List.Forall₂.nil)

section Copying

variable [LawfulSearchTree τ] {t : τ} {r : Nat} {part part' : Nat → List (ArcData G × Nat)}
  {x : Copy τ} {p q : Nat} {a : Nat × Nat}

/-- Before the first arc. -/
theorem copyInv_start (hr : r < nodeNum t) :
    CopyInv t r (fun _ => []) (Mcts.startCopy G t r) := by
  have hzero : rootNode (new : τ) = 0 := rootNode_new
  have hone : OneNode (Mcts.startCopy G t r).new (node t r) := oneNode_setNode_new _
  have hvisited : (Mcts.startCopy G t r).visited = fun n => if n = r then some 0 else none := by
    show (fun n => if n = r then some (rootNode (new : τ)) else none) = _
    rw [hzero]
  have hfirst := numbered_first r
  rw [← hvisited] at hfirst
  have hiff : ∀ {n k}, (Mcts.startCopy G t r).visited n = some k ↔ n = r ∧ k = 0 := by
    intro n k
    rw [hvisited]
    exact first_iff
  constructor
  case old_outArcs => exact fun n => outArcs_setNode t r _ n
  case old_arc => exact fun a => arc_setNode t r _ a
  case old_num => exact nodeNum_setNode t r _
  case old_node =>
    intro n hn
    refine (node_setNode t _ n hr).trans (if_neg ?_)
    intro h
    obtain rfl := h
    rw [hiff.mpr ⟨rfl, rfl⟩] at hn
    cases hn
  case root => exact hiff.mpr ⟨rfl, hone.root⟩
  case bound =>
    intro n k hn
    exact ⟨(hiff.mp hn).1 ▸ hr, hone.num.symm ▸ hfirst.bound hn⟩
  case inj => exact hfirst.inj
  case surj => exact fun hk => hfirst.surj (hone.num ▸ hk)
  case data =>
    intro n k hn
    obtain ⟨rfl, rfl⟩ := hiff.mp hn
    exact hone.data
  case arcs =>
    intro n k _
    rw [hone.edges]
    exact List.Forall₂.nil

/-- The numbering after an arc. -/
theorem copyArc_visited (x : Copy τ) (q : Nat) (a : Nat × Nat) (n : Nat) :
    (Mcts.copyArc G q x a).visited n
      = if x.visited a.2 = none ∧ n = a.2 then some (nodeNum x.new) else x.visited n := by
  unfold Mcts.copyArc
  cases hv : x.visited a.2 with
  | some k => simp
  | none =>
      simp only [true_and]
      rw [addNode_id]

omit [LawfulSearchTree τ] in
/-- The stack after an arc. -/
theorem copyArc_stack (x : Copy τ) (q : Nat) (a : Nat × Nat) :
    (Mcts.copyArc G q x a).stack
      = if x.visited a.2 = none then a.2 :: x.stack else x.stack := by
  unfold Mcts.copyArc
  cases x.visited a.2 <;> rfl

section Arc

variable (h : CopyInv t r part x) (hp : x.visited p = some q)
  (hpart : part' p = part p ++ [(arc t a.1, a.2)])
  (hother : ∀ n, x.visited n ≠ none → n ≠ p → part' n = part n)

include h hp hpart hother

/-- One arc of `p`, which is `q` in the new tree, to a node that is there
already: only the arc is new. -/
theorem CopyInv.copyArc_of_visited {k : Nat} (hv : x.visited a.2 = some k) :
    CopyInv t r part' (Mcts.copyArc G q x a) := by
  have hq : q < nodeNum x.new := (h.bound hp).2
  have hstep : Mcts.copyArc G q x a
      = { x with new := (SearchTree.addArc x.new q k (arc t a.1)).1 } := by
    unfold Mcts.copyArc
    simp only [hv, h.old_arc]
  rw [hstep]
  have hnum : nodeNum (SearchTree.addArc x.new q k (arc t a.1)).1 = nodeNum x.new :=
    nodeNum_addArc ..
  constructor
  case old_outArcs => exact h.old_outArcs
  case old_arc => exact h.old_arc
  case old_num => exact h.old_num
  case old_node => exact h.old_node
  case root => exact h.root.trans (congrArg some (rootNode_addArc x.new q k _).symm)
  case bound =>
    intro n k' hn
    obtain ⟨hlt, hlt'⟩ := h.bound hn
    exact ⟨hlt, hnum ▸ hlt'⟩
  case inj => exact h.inj
  case surj => exact fun hk => h.surj (hnum ▸ hk)
  case data => exact fun hn => (node_addArc x.new q k _ _).trans (h.data hn)
  case arcs =>
    intro n k' hn
    show Renumbered x.visited (part' n) (edges (SearchTree.addArc x.new q k _).1 k')
    rw [edges_addArc x.new k _ k' hq]
    by_cases hnp : n = p
    · subst hnp
      obtain rfl := Option.some.inj (hp.symm.trans hn)
      rw [if_pos rfl, hpart]
      exact (h.arcs hp).concat hv
    · have hkq : k' ≠ q := fun heq => hnp (h.inj hn (heq ▸ hp))
      rw [if_neg hkq, hother n (by rw [hn]; simp) hnp]
      exact h.arcs hn

/-- One arc of `p` to a node that is not: it is copied and goes on the
stack. -/
theorem CopyInv.copyArc_of_not_visited (ha : a.2 < nodeNum t) (hv : x.visited a.2 = none)
    (hnew : part' a.2 = []) : CopyInv t r part' (Mcts.copyArc G q x a) := by
  have hq : q < nodeNum x.new := (h.bound hp).2
  have hid : (SearchTree.addNode x.new (node t a.2 : NodeData G)).2 = nodeNum x.new :=
    addNode_id ..
  have hstep : Mcts.copyArc G q x a
      = { old := SearchTree.setNode x.old a.2 (NodeData.movedFrom default (node t a.2))
          new := (SearchTree.addArc (SearchTree.addNode x.new (node t a.2 : NodeData G)).1 q
            (nodeNum x.new) (arc t a.1)).1
          visited := fun n => if n = a.2 then some (nodeNum x.new) else x.visited n
          stack := a.2 :: x.stack } := by
    unfold Mcts.copyArc
    simp only [hv, h.old_arc, h.old_node a.2 hv, hid]
  rw [hstep]
  generalize hnewTree : (SearchTree.addArc (SearchTree.addNode x.new (node t a.2 : NodeData G)).1
    q (nodeNum x.new) (arc t a.1)).1 = u
  have hnum : nodeNum u = nodeNum x.new + 1 := by
    rw [← hnewTree, nodeNum_addArc, nodeNum_addNode]
  have hroot : rootNode u = rootNode x.new := by
    rw [← hnewTree, rootNode_addArc, rootNode_addNode]
  have hnode : ∀ i, node u i = if i = nodeNum x.new then node t a.2 else node x.new i := by
    intro i
    rw [← hnewTree, node_addArc, node_addNode]
  have hedges : ∀ i, edges u i = if i = q then edges x.new i ++ [(arc t a.1, nodeNum x.new)]
      else if i = nodeNum x.new then [] else edges x.new i := by
    intro i
    rw [← hnewTree, edges_addArc _ _ _ _ (by rw [nodeNum_addNode]; omega), edges_addNode]
    split
    · rw [if_neg (by omega)]
    · rfl
  have hnext := h.numbered.extend hv
  rw [← hnum] at hnext
  have hgrow : ∀ n k, x.visited n = some k →
      (if n = a.2 then some (nodeNum x.new) else x.visited n) = some k :=
    fun n k hn => keeps_number hv hn
  constructor
  case old_outArcs => exact fun n => (outArcs_setNode x.old a.2 _ n).trans (h.old_outArcs n)
  case old_arc => exact fun i => (arc_setNode x.old a.2 _ i).trans (h.old_arc i)
  case old_num => exact (nodeNum_setNode x.old a.2 _).trans h.old_num
  case old_node =>
    intro n hn
    have hn : (if n = a.2 then some (nodeNum x.new) else x.visited n) = none := hn
    have hne : n ≠ a.2 := fun heq => by
      rw [if_pos heq] at hn
      cases hn
    rw [if_neg hne] at hn
    refine (node_setNode x.old _ n (h.old_num ▸ ha)).trans ?_
    rw [if_neg hne, h.old_node n hn]
  case root => exact hgrow r _ (h.root.trans (congrArg some hroot.symm))
  case bound =>
    intro n k hn
    refine ⟨?_, hnext.bound hn⟩
    rcases h.numbered.cases_next hn with ⟨rfl, -⟩ | ⟨-, hn, -⟩
    · exact ha
    · exact (h.bound hn).1
  case inj => exact hnext.inj
  case surj => exact hnext.surj
  case data =>
    intro n k hn
    refine (hnode k).trans ?_
    rcases h.numbered.cases_next hn with ⟨rfl, rfl⟩ | ⟨-, hn, hk⟩
    · rw [if_pos rfl]
    · rw [if_neg (by omega), h.data hn]
  case arcs =>
    intro n k hn
    show Renumbered _ (part' n) (edges u k)
    rw [hedges]
    rcases h.numbered.cases_next hn with ⟨rfl, rfl⟩ | ⟨-, hold, hk⟩
    · rw [if_neg (by omega), if_pos rfl, hnew]
      exact List.Forall₂.nil
    · by_cases hnp : n = p
      · subst hnp
        obtain rfl := Option.some.inj (hp.symm.trans hold)
        rw [if_pos rfl, hpart]
        exact ((h.arcs hp).mono hgrow).concat (if_pos rfl)
      · have hkq : k ≠ q := fun heq => hnp (h.inj hold (heq ▸ hp))
        rw [if_neg hkq, if_neg (by omega), hother n (by rw [hold]; simp) hnp]
        exact (h.arcs hold).mono hgrow

end Arc

-- ============================================================ one turn

/-- The copying between two turns. -/
structure TurnInv (t : τ) (r : Nat) (x : Copy τ) : Prop where
  copied : CopyInv t r (fun n => if n ∈ x.stack then [] else edges t n) x
  frontier : Frontier (targets t) r (fun n => x.visited n ≠ none) x.stack

/-- Within a turn, when the out-arcs `l` of `p` have been copied. -/
structure ArcsInv (t : τ) (r p q : Nat) (rest : List Nat) (seen : Nat → Prop)
    (l : List (Nat × Nat)) (y : Copy τ) : Prop where
  copied : CopyInv t r (fun n => if n = p then l.map (fun a => (arc t a.1, a.2))
    else if n ∈ y.stack then [] else edges t n) y
  parent : y.visited p = some q
  scanned : Scanned seen rest (l.map Prod.snd) (fun n => y.visited n ≠ none) y.stack

/-- One arc more. -/
theorem ArcsInv.copyArc {rest : List Nat} {seen : Nat → Prop} {l : List (Nat × Nat)} {y : Copy τ}
    (h : ArcsInv t r p q rest seen l y) (hrest : ∀ c ∈ rest, seen c) (ha : a.2 < nodeNum t) :
    ArcsInv t r p q rest seen (l ++ [a]) (Mcts.copyArc G q y a) := by
  have hvisited := copyArc_visited (G := G) y q a
  have hstack := copyArc_stack (G := G) y q a
  have hmap : (l ++ [a]).map (fun a => (arc t a.1, a.2))
      = l.map (fun a => (arc t a.1, a.2)) ++ [(arc t a.1, a.2)] := List.map_append
  have hother : ∀ n, y.visited n ≠ none → n ≠ p →
      (if n = p then (l ++ [a]).map (fun a => (arc t a.1, a.2))
          else if n ∈ (Mcts.copyArc G q y a).stack then [] else edges t n)
        = if n = p then l.map (fun a => (arc t a.1, a.2))
          else if n ∈ y.stack then [] else edges t n := by
    intro n hn hnp
    rw [if_neg hnp, if_neg hnp, hstack]
    split
    · next hnone =>
        have hna : n ≠ a.2 := fun heq => hn (heq ▸ hnone)
        simp [hna]
    · rfl
  cases hnone : y.visited a.2 with
  | some k =>
      have hsame : (Mcts.copyArc G q y a).visited = y.visited := by
        funext n
        rw [hvisited, if_neg fun hand => Option.some_ne_none k (hnone.symm.trans hand.1)]
      refine ⟨h.copied.copyArc_of_visited h.parent ?_ hother hnone, ?_, ?_⟩
      · rw [if_pos rfl, if_pos rfl, hmap]
      · rw [hsame]
        exact h.parent
      · rw [List.map_append, List.map_singleton, hstack, hnone, if_neg (Option.some_ne_none k),
          hsame]
        exact h.scanned.skip (by rw [hnone]; exact Option.some_ne_none k)
  | none =>
      have hap : a.2 ≠ p := fun heq => by
        rw [heq, h.parent] at hnone
        cases hnone
      refine ⟨h.copied.copyArc_of_not_visited h.parent ?_ hother ha hnone ?_, ?_, ?_⟩
      · rw [if_pos rfl, if_pos rfl, hmap]
      · rw [if_neg hap, hstack, if_pos hnone, if_pos (List.mem_cons_self ..)]
      · rw [hvisited, if_neg fun hand => hap hand.2.symm]
        exact h.parent
      · rw [List.map_append, List.map_singleton, hstack, if_pos hnone]
        refine h.scanned.push hrest (not_not_intro hnone) (fun c => ?_) (List.Perm.refl _)
        rw [hvisited]
        by_cases hc : c = a.2
        · simp [hc, hnone]
        · simp [hc]

/-- A turn: all out-arcs of the node on top of the stack. -/
theorem TurnInv.copyNode (htargets : ∀ {n k}, n < nodeNum t → k ∈ targets t n → k < nodeNum t)
    (h : TurnInv t r x) (hmore : (!x.stack.isEmpty) = true) :
    ∃ p rest y, x.stack.Perm (p :: rest) ∧ p ∈ Finset.range (nodeNum t)
      ∧ Mcts.copyNode G x = some y ∧ TurnInv t r y
      ∧ Scanned (fun n => x.visited n ≠ none) rest (targets t p) (fun n => y.visited n ≠ none)
          y.stack := by
  obtain ⟨hcopied, hfrontier⟩ := h
  cases hstack : x.stack with
  | nil => simp [hstack] at hmore
  | cons p rest =>
      rw [hstack] at hfrontier hcopied
      have hseen := hfrontier.work_seen p (List.mem_cons_self ..)
      obtain ⟨q, hq⟩ := Option.ne_none_iff_exists'.mp hseen
      have hpt := (hcopied.bound hq).1
      have hnodup := List.nodup_cons.mp hfrontier.nodup
      have hstart : CopyInv t r
          (fun n => if n = p then [] else if n ∈ rest then [] else edges t n)
          { x with stack := rest } := by
        rw [part_pop (edges t) (.refl _)] at hcopied
        exact ⟨hcopied.old_outArcs, hcopied.old_arc, hcopied.old_num, hcopied.old_node,
          hcopied.root, hcopied.bound, hcopied.inj, hcopied.surj, hcopied.data, hcopied.arcs⟩
      -- the loop over the out-arcs of `p`
      have hloop : ArcsInv t r p q rest (fun n => x.visited n ≠ none) (outArcs t p)
          ((outArcs t p).foldl (Mcts.copyArc G q) { x with stack := rest }) := by
        refine Loops.foldl_inv ⟨hstart, hq, .start _ hnodup.2⟩ ?_
        intro l a l' y hl hI
        refine hI.copyArc (fun c hc => hfrontier.work_seen c (List.mem_cons_of_mem _ hc)) ?_
        exact htargets hpt (List.mem_map.mpr
          ⟨a, hl ▸ List.mem_append_right _ (List.mem_cons_self ..), rfl⟩)
      generalize hy : (outArcs t p).foldl (Mcts.copyArc G q) { x with stack := rest } = y at hloop
      obtain ⟨hcopy, -, hscan⟩ := hloop
      refine ⟨p, rest, y, .refl _, Finset.mem_range.mpr hpt, ?_, ⟨?_, hfrontier.scan hscan⟩, hscan⟩
      · unfold Mcts.copyNode
        rw [hstack]
        simp only [hq, Option.map_some, hcopied.old_outArcs, hy]
      · -- `p` is done: it does not come back on the stack
        rw [← part_done (edges t) (hscan.not_mem hseen hnodup.1)]
        exact hcopy

-- ============================================================ the walk

variable (htargets : ∀ {n k}, n < nodeNum t → k ∈ targets t n → k < nodeNum t)

theorem turnInv_start (hr : r < nodeNum t) : TurnInv t r (Mcts.startCopy G t r) := by
  have hseen : (fun n => (Mcts.startCopy G t r).visited n ≠ none) = (· = r) := first_seen r _
  refine ⟨?_, ?_⟩
  · have h := copyInv_start (G := G) hr
    refine ⟨h.old_outArcs, h.old_arc, h.old_num, h.old_node, h.root, h.bound, h.inj, h.surj,
      h.data, fun {n k} hn => ?_⟩
    have hnr : n = r := by
      have hsome : (Mcts.startCopy G t r).visited n ≠ none := by
        rw [hn]
        simp
      rwa [show ((Mcts.startCopy G t r).visited n ≠ none) = (n = r) from congrFun hseen n] at hsome
    rw [if_pos (hnr ▸ List.mem_singleton.mpr rfl)]
    exact h.arcs hn
  · rw [hseen]
    exact .start _ _

include htargets

/-- The copying is a search from `r`. -/
theorem copy_isSearch :
    IsSearch (targets t) r (Finset.range (nodeNum t)) (fun x : Copy τ => !x.stack.isEmpty)
      (Mcts.copyNode G) (TurnInv t r) (fun x n => x.visited n ≠ none) Copy.stack where
  frontier h := h.frontier
  done _ hdone := by simpa using hdone
  turn h hmore := h.copyNode htargets hmore

/-- The copying comes to an end. -/
theorem copy_total (hr : r < nodeNum t) :
    ∀ fuel, nodeNum t ≤ fuel → ∃ x, Loops.whileLoop (fun x : Copy τ => !x.stack.isEmpty)
      (Mcts.copyNode G) fuel (Mcts.startCopy G t r) = some x := by
  intro fuel hfuel
  exact (copy_isSearch htargets).total (turnInv_start hr) ((Finset.card_range _).trans_le hfuel)

/-- What it leaves is a copy of what can be reached. -/
theorem copy_spec (hr : r < nodeNum t) {fuel : Nat} {x : Copy τ}
    (hrun : Loops.whileLoop (fun x : Copy τ => !x.stack.isEmpty) (Mcts.copyNode G) fuel
      (Mcts.startCopy G t r) = some x) : IsCopy t r x.new x.visited := by
  have hsearch := copy_isSearch (G := G) (r := r) htargets
  obtain ⟨⟨hcopied, -⟩, hempty⟩ := hsearch.exit (turnInv_start hr) hrun
  rw [hempty] at hcopied
  exact {
    reachable := hsearch.seen_iff_reachable (turnInv_start hr) hrun
    root := hcopied.root
    inj := hcopied.inj
    image := fun k => ⟨fun hk => hcopied.surj hk, fun hk => (hcopied.bound hk.choose_spec).2⟩
    data := hcopied.data
    arcs := fun {n k} hn => by
      have harcs := hcopied.arcs hn
      rwa [if_neg List.not_mem_nil] at harcs }

end Copying

-- =============================================================== prune

variable [LawfulSearchTree τ] {s₀ s : G.State} {pos : Nat → G.State} {m m' : Mcts τ} {old : Nat}

omit [LawfulSearchTree τ] in
theorem TreeInv.targets_lt {t : τ} {T : TranspositionTable} (h : TreeInv s₀ t T pos) {n k : Nat}
    (hn : n < nodeNum t) (hk : k ∈ targets t n) : k < nodeNum t := by
  obtain ⟨a, ha, rfl⟩ := List.mem_map.mp hk
  exact h.target_lt hn (mem_edges_of_outArcs ha)

/-- What `prune ( )` leaves of an initialised `Mcts` when the state is in
its table. -/
structure Pruned (m : Mcts τ) (old : Nat) (m' : Mcts τ) (f : Nat → Option Nat) : Prop where
  copy : IsCopy m.tree old m'.tree f
  table : ∀ h, m'.transpositionTable.find h = (m.transpositionTable.find h).bind f
  initialized : m'.notInitialized = false
  path : m'.path = [⟨rootArc m'.tree, some (rootNode m'.tree)⟩] ∧ m'.pathSize = 1

omit [LawfulSearchTree τ] in
/-- `prune ( )` copies when the state is in the table. -/
theorem prune_eq (hinit : m.notInitialized = false) (hfind : m.getNode (G.zobrist s) = some old)
    (fuel : Nat) : Mcts.prune G fuel m s = Mcts.pruneImpl G fuel m old := by
  unfold Mcts.prune
  rw [hinit, hfind]
  rfl

omit [LawfulSearchTree τ] in
/-- When a state is not known, a new `Mcts` takes the place of `m`. -/
theorem prune_unknown (h : m.notInitialized = true ∨ m.getNode (G.zobrist s) = none)
    (fuel : Nat) : m.prune G fuel s = some .new := by
  unfold Mcts.prune
  rcases h with h | h
  · rw [if_pos h]
  · rw [h]
    split <;> rfl

section Closed

variable (hinit : m.notInitialized = false) (hfind : m.getNode (G.zobrist s) = some old)
  (htargets : ∀ {n k}, n < nodeNum m.tree → k ∈ targets m.tree n → k < nodeNum m.tree)
  (hold : old < nodeNum m.tree)

include hinit hfind htargets hold

/-- Then it returns. -/
theorem prune_total :
    ∀ fuel, nodeNum m.tree ≤ fuel → ∃ m', Mcts.prune G fuel m s = some m' := by
  intro fuel hfuel
  obtain ⟨x, hx⟩ := copy_total (G := G) htargets hold fuel hfuel
  rw [prune_eq hinit hfind, Mcts.pruneImpl, hx]
  exact ⟨_, rfl⟩

/-- And leaves what can be reached. -/
theorem prune_spec {fuel : Nat} (hrun : Mcts.prune G fuel m s = some m') :
    ∃ f, Pruned m old m' f := by
  rw [prune_eq hinit hfind, Mcts.pruneImpl] at hrun
  obtain ⟨x, hx, rfl⟩ := Option.map_eq_some_iff.mp hrun
  exact ⟨x.visited, copy_spec htargets hold hx,
    fun hash => m.transpositionTable.find_mapNodes x.visited hash, rfl, rfl, rfl⟩

end Closed

/-- It leaves a new `Mcts` otherwise. -/
theorem prune_cases (hinit : m.notInitialized = false)
    (htargets : ∀ {n k}, n < nodeNum m.tree → k ∈ targets m.tree n → k < nodeNum m.tree)
    (hlt : ∀ {n}, m.getNode (G.zobrist s) = some n → n < nodeNum m.tree) {fuel : Nat}
    (hrun : m.prune G fuel s = some m') :
    m' = .new ∨ ∃ old f, m.getNode (G.zobrist s) = some old ∧ Pruned m old m' f := by
  cases hfind : m.getNode (G.zobrist s) with
  | none =>
      rw [prune_unknown (Or.inr hfind)] at hrun
      exact Or.inl (Option.some.inj hrun).symm
  | some old =>
      obtain ⟨f, hpruned⟩ := prune_spec hinit hfind htargets (hlt hfind) hrun
      exact Or.inr ⟨old, f, rfl, hpruned⟩

omit [LawfulSearchTree τ] in
/-- An arc of the copy is one of the original. -/
theorem Renumbered.exists_of_mem {f : Nat → Option Nat} {es es' : List (ArcData G × Nat)}
    (h : Renumbered f es es') {e' : ArcData G × Nat} (he : e' ∈ es') :
    ∃ e ∈ es, e'.1 = e.1 ∧ f e.2 = some e'.2 := by
  unfold Renumbered at h
  induction h with
  | nil => cases he
  | cons hab _ ih =>
      rcases List.mem_cons.mp he with rfl | he
      · exact ⟨_, List.mem_cons_self .., hab⟩
      · obtain ⟨e, hmem, heq⟩ := ih he
        exact ⟨e, List.mem_cons_of_mem _ hmem, heq⟩

omit [LawfulSearchTree τ] in
/-- The moves on the arcs stay. -/
theorem Renumbered.map_move {f : Nat → Option Nat} {es es' : List (ArcData G × Nat)}
    (h : Renumbered f es es') : es'.map (fun e => e.1.move) = es.map fun e => e.1.move := by
  unfold Renumbered at h
  induction h with
  | nil => rfl
  | cons hab _ ih => rw [List.map_cons, List.map_cons, ih, hab.1]

omit [LawfulSearchTree τ] in
/-- What can be reached are nodes. -/
theorem TreeInv.reachable_lt {t : τ} {T : TranspositionTable} (h : TreeInv s₀ t T pos) {r n : Nat}
    (hr : r < nodeNum t) (hreach : Reachable (targets t) r n) : n < nodeNum t :=
  hreach.closed (P := fun n => n < nodeNum t) (fun hn hk => h.targets_lt hn hk) hr

omit [LawfulSearchTree τ] in
/-- Pruning keeps the search-tree invariant; a new node stands for the
position its old one did. -/
theorem TreeInv.prune {f : Nat → Option Nat} (h : TreeInv s₀ m.tree m.transpositionTable pos)
    (hold : old < nodeNum m.tree) (hpruned : Pruned m old m' f) :
    ∃ pos', TreeInv s₀ m'.tree m'.transpositionTable pos'
      ∧ ∀ n k, f n = some k → pos' k = pos n := by
  obtain ⟨hcopy, htable, -, -⟩ := hpruned
  choose! g hg using fun k hk => (hcopy.image k).mp hk
  have hback : ∀ {n k}, f n = some k → g k = n := fun {n k} hn =>
    hcopy.inj (hg k ((hcopy.image k).mpr ⟨n, hn⟩)) hn
  have hlt : ∀ {n k}, f n = some k → n < nodeNum m.tree := fun {n k} hn =>
    h.reachable_lt hold ((hcopy.reachable n).mp (by rw [hn]; simp))
  refine ⟨fun k => pos (g k), ?_, fun n k hn => congrArg pos (hback hn)⟩
  constructor
  case root_lt => exact (hcopy.image _).mpr ⟨old, hcopy.root⟩
  case played => exact fun hk => h.played (hlt (hg _ hk))
  case find_iff =>
    intro hash k
    rw [htable, Option.bind_eq_some_iff]
    constructor
    · intro h'
      obtain ⟨n, hfind, hn⟩ := h'
      refine ⟨(hcopy.image k).mpr ⟨n, hn⟩, ?_⟩
      rw [hback hn]
      exact (h.find_iff.mp hfind).2
    · intro h'
      obtain ⟨hk, hhash⟩ := h'
      exact ⟨g k, h.find_iff.mpr ⟨hlt (hg k hk), hhash⟩, hg k hk⟩
  case player =>
    intro k hk
    rw [hcopy.data (hg k hk)]
    exact h.player (hlt (hg k hk))
  case target_lt =>
    intro k e hk he
    obtain ⟨e₀, -, -, he₀⟩ := (hcopy.arcs (hg k hk)).exists_of_mem he
    exact (hcopy.image _).mpr ⟨_, he₀⟩
  case leads =>
    intro k e hk he
    obtain ⟨e₀, hmem, hdata, he₀⟩ := (hcopy.arcs (hg k hk)).exists_of_mem he
    rw [hdata, hback he₀]
    exact h.leads (hlt (hg k hk)) hmem
  case moves =>
    intro k hk
    have hmoves := h.moves (hlt (hg k hk))
    unfold triedMoves at hmoves ⊢
    rwa [(hcopy.arcs (hg k hk)).map_move, hcopy.data (hg k hk)]
  case stocked =>
    intro k hk
    rw [hcopy.data (hg k hk)]
    exact h.stocked (hlt (hg k hk))

end MctsConnectFour
