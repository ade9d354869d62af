/-
Slicing in the tree of version 1.1 (old/stable_rooted_digraph-1.1.hpp).

The lists of that tree are those of version 1.2, and so are its adding
operations, except that they take no data: an arc or a node is added with
default data, and the data are assigned afterwards.

`sliceDF ( )` and `sliceBF ( )` differ in the end of the work list from
which the next node is taken. Both number the slice's first node with the
`root_node` of the tree they slice, not of the tree they fill. What that
leads to is in Digraph/Sliced.lean.

`CopyInv` holds between any two arcs of the copying: the nodes seen so far
are numbered one to one by those of the new tree, with their data, and of
the out-arcs of each a known `part` has been copied. It is here that the
arc is taken that leads to a node seen before, and the one that does not.
-/
import MctsConnectFour.Digraph.Payload
import MctsConnectFour.Lib.Numbering
import MctsConnectFour.Lib.Worklist

namespace MctsConnectFour.Digraph.Older

open Numbering (Numbered keeps_number)
open Worklist (Reachable)
open Digraph.Tree (Wired Grown SameLinks)

variable {A N : Type}

-- =========================================================== operations

section Operations

variable [Inhabited A] [Inhabited N]

/-- `addNodeUnsafe ( s )`. -/
def addNodeUnsafe (g : Tree A N) (s : Nat) : Option (Tree A N × Link) :=
  g.addNodeUnsafe s default default

/-- `addArcUnsafe ( s, t )`. -/
def addArcUnsafe (g : Tree A N) (s t : Nat) : Option (Tree A N × Link) :=
  g.addArcUnsafe s t default

/-- `( * this ) [ n ] = e`; there is nothing to assign to behind the last
node. -/
def assign (g : Tree A N) (n : Nat) (e : N) : Option (Tree A N) :=
  if n < g.nodeNum then some (g.setNodeData n e) else none

/-- The trees that are built by adding nodes and arcs, moving the root, and
assigning data. -/
inductive Built : Tree A N → Prop
  | new : Built .new
  | addNode {g g' : Tree A N} {s : Nat} {l : Link} (h : Built g) (hs : s < g.nodeNum)
      (hadd : addNodeUnsafe g s = some (g', l)) : Built g'
  | addArc {g g' : Tree A N} {s t : Nat} {l : Link} (h : Built g) (hs : s < g.nodeNum)
      (ht : t < g.nodeNum) (hadd : addArcUnsafe g s t = some (g', l)) : Built g'
  | setRoot {g : Tree A N} {n : Nat} (h : Built g) (hn : n < g.nodeNum) : Built (g.setRoot n)
  | assignArc {g : Tree A N} (h : Built g) (a : Nat) (d : A) : Built (g.setArcData a d)
  | assignNode {g : Tree A N} (h : Built g) (n : Nat) (e : N) : Built (g.setNodeData n e)

/-- A slice in the making: the new tree, `visited`, and the stack or the
queue, from front to back. -/
structure Slice (A N : Type) where
  new : Tree A N
  visited : Nat → Option Nat
  work : List Nat

/-- The body of the loop over the out-arcs of `parent`. -/
def copyArc (g : Tree A N) (parent : Nat) (x : Slice A N) (a : Nat) : Option (Slice A N) :=
  (g.target a).bind fun child =>
  (x.visited parent).bind fun q =>
  (g.arcData a).bind fun d =>
  match x.visited child with
  | none =>
    (g.nodeData child).bind fun e =>
    (addNodeUnsafe x.new q).bind fun (new, link) =>
    link.arc.bind fun b =>
    (assign (new.setArcData b d) link.target e).map fun new =>
      { new := new
        visited := fun n => if n = child then some link.target else x.visited n
        work := x.work ++ [child] }
  | some k =>
    (addArcUnsafe x.new q k).bind fun (new, link) =>
    link.arc.map fun b => { x with new := new.setArcData b d }

/-- A turn of the walk: `pop` takes a node off the work list. -/
def copyNode (pop : List Nat → Option (Nat × List Nat)) (g : Tree A N) (fuel : Nat)
    (x : Slice A N) : Option (Slice A N) :=
  (pop x.work).bind fun (parent, rest) =>
    (Loops.whileLoop (fun y : Option Nat × Slice A N => y.1.isSome)
      (fun y => y.1.bind fun a => (copyArc g parent y.2 a).map fun x => (g.nextOut a, x)) fuel
      (g.headOut parent, { x with work := rest })).map Prod.snd

/-- What the two slices share. -/
def slice (pop : List Nat → Option (Nat × List Nat)) (g : Tree A N) (fuel : Nat)
    (newSrd : Tree A N) (oldNode : Option Nat) : Option (Tree A N) :=
  match oldNode with
  | none => some newSrd
  | some old =>
    (g.nodeData old).bind fun e =>
    -- `root_node` is that of the tree that is sliced
    (assign newSrd g.rootNode e).bind fun new =>
    (Loops.whileLoop (fun x : Slice A N => !x.work.isEmpty) (copyNode pop g fuel) fuel
      { new := new
        visited := fun n => if n = old then some g.rootNode else none
        work := [old] }).map Slice.new

/-- `stack.back ( )` and `stack.pop_back ( )`. -/
def popBack (work : List Nat) : Option (Nat × List Nat) :=
  work.getLast?.map fun n => (n, work.dropLast)

/-- `queue.front ( )` and `queue.pop_front ( )`. -/
def popFront (work : List Nat) : Option (Nat × List Nat) :=
  work.head?.map fun n => (n, work.tail)

/-- `sliceDF ( )`. -/
def sliceDF (g : Tree A N) (fuel : Nat) (newSrd : Tree A N) (oldNode : Option Nat) :
    Option (Tree A N) :=
  slice popBack g fuel newSrd oldNode

/-- `sliceBF ( )`. -/
def sliceBF (g : Tree A N) (fuel : Nat) (newSrd : Tree A N) (oldNode : Option Nat) :
    Option (Tree A N) :=
  slice popFront g fuel newSrd oldNode

end Operations

-- ========================================================= what is asked

/-- The targets of the out-arcs of a node. -/
def targets (g : Tree A N) (n : Nat) : List Nat := (g.outArcs n).filterMap g.target

/-- The out-arcs `es` of a node with their targets renumbered. -/
def Renumbered (f : Nat → Option Nat) (es es' : List (Option A × Option Nat)) : Prop :=
  List.Forall₂ (fun e e' => e'.1 = e.1 ∧ ∃ n k, e.2 = some n ∧ e'.2 = some k ∧ f n = some k) es es'

/-- `f` numbers the nodes that can be reached from `r` in `g` by those of
`g'`, and `g'` is that part of `g`: a tree whose nodes have the data and
the out-arcs, in order, of the nodes they copy. Every arc but that of the
root is an out-arc of some node, so there are no others. -/
structure IsSlice (g : Tree A N) (r : Nat) (g' : Tree A N) (f : Nat → Option Nat) : Prop where
  wired : Wired g'
  reachable : ∀ n, f n ≠ none ↔ Reachable (targets g) r n
  root : f r = some g'.rootNode
  inj : ∀ {n n' k}, f n = some k → f n' = some k → n = n'
  image : ∀ k, k < g'.nodeNum ↔ ∃ n, f n = some k
  data : ∀ {n k}, f n = some k → g'.nodeData k = g.nodeData n
  arcs : ∀ {n k}, f n = some k → Renumbered f (g.edges n) (g'.edges k)

/-- Two trees with the same nodes, up to numbering: `φ` takes those of the
one to those of the other, with the root, the data and the out-arcs. -/
structure Isomorphic (g g' : Tree A N) (φ : Nat → Option Nat) : Prop where
  total : ∀ n, n < g.nodeNum ↔ φ n ≠ none
  root : φ g.rootNode = some g'.rootNode
  inj : ∀ {n n' k}, φ n = some k → φ n' = some k → n = n'
  image : ∀ k, k < g'.nodeNum ↔ ∃ n, φ n = some k
  data : ∀ {n k}, φ n = some k → g'.nodeData k = g.nodeData n
  arcs : ∀ {n k}, φ n = some k → Renumbered φ (g.edges n) (g'.edges k)

/-- What slicing at a node should do: given the fuel, either slice into a
new tree copies what can be reached, and so they are the same graph. -/
def Slices [Inhabited A] [Inhabited N] (g : Tree A N) (old : Nat) : Prop :=
  ∃ enough, ∀ fuel, enough ≤ fuel →
    ∃ df bf, sliceDF g fuel .new (some old) = some df ∧ sliceBF g fuel .new (some old) = some bf
      ∧ (∃ f, IsSlice g old df f) ∧ (∃ f, IsSlice g old bf f) ∧ ∃ φ, Isomorphic df bf φ

-- ========================================================== one addition

section Additions

variable {g g' : Tree A N}

theorem exists_arcData {a : Nat} (ha : a < g.arcNum) : ∃ d, g.arcData a = some d :=
  ⟨_, congrArg (Option.map ArcType.data) (List.getElem?_eq_getElem ha)⟩

theorem exists_nodeData {n : Nat} (hn : n < g.nodeNum) : ∃ e, g.nodeData n = some e :=
  ⟨_, congrArg (Option.map NodeType.data) (List.getElem?_eq_getElem hn)⟩

/-- A tree with an edge appended at `q`. -/
structure Appended (g : Tree A N) (q t : Nat) (d : A) (g' : Tree A N) : Prop where
  wired : Wired g'
  root : g'.rootNode = g.rootNode
  edges : ∀ k, g'.edges k = if k = q then g.edges q ++ [(some d, some t)] else g.edges k

variable [Inhabited A] [Inhabited N]

/-- A node added with its arc, and both given their data. -/
theorem addNodeUnsafe_assign (h : Wired g) {q : Nat} (hq : q < g.nodeNum) (d : A) (e : N) :
    ∃ g₁ g', addNodeUnsafe g q = some (g₁, ⟨some g.arcNum, g.nodeNum⟩)
      ∧ assign (g₁.setArcData g.arcNum d) g.nodeNum e = some g'
      ∧ Appended g q g.nodeNum d g' ∧ g'.nodeNum = g.nodeNum + 1
      ∧ ∀ k, g'.nodeData k = if k = g.nodeNum then some e else g.nodeData k := by
  obtain ⟨g₁, hadd, hgrown, hnum⟩ := Tree.addNodeUnsafe_spec h hq default default
  obtain ⟨harc, hnode⟩ := Tree.addNodeUnsafe_data hadd
  have hwired₁ : Wired g₁ := h.grown hgrown hq (by omega) (by omega)
  have hsame := Tree.sameLinks_setArcData g₁ g.arcNum d
  have hsame' := Tree.sameLinks_setNodeData (g₁.setArcData g.arcNum d) g.nodeNum e
  have hlt : g.nodeNum < (g₁.setArcData g.arcNum d).nodeNum := by
    rw [hsame.nums.2, hnum]
    omega
  refine ⟨g₁, (g₁.setArcData g.arcNum d).setNodeData g.nodeNum e, hadd, if_pos hlt, ?_, ?_, ?_⟩
  · refine ⟨hsame'.wired (hsame.wired hwired₁), ?_, fun k => ?_⟩
    · rw [hsame'.roots.2, hsame.roots.2, hgrown.roots.2]
    · rw [Tree.edges_setNodeData, hgrown.edges_eq harc]
  · rw [hsame'.nums.2, hsame.nums.2, hnum]
  · intro k
    rw [Tree.nodeData_setNodeData hlt]
    by_cases hk : k = g.nodeNum
    · rw [if_pos hk, if_pos hk]
    · rw [if_neg hk, if_neg hk]
      exact (hnode k).trans (if_neg hk)

omit [Inhabited N] in
/-- An arc added between nodes that are there, and given its data. -/
theorem addArcUnsafe_assign (h : Wired g) {q t : Nat} (hq : q < g.nodeNum) (ht : t < g.nodeNum)
    (d : A) :
    ∃ g₁, addArcUnsafe g q t = some (g₁, ⟨some g.arcNum, t⟩)
      ∧ Appended g q t d (g₁.setArcData g.arcNum d)
      ∧ (g₁.setArcData g.arcNum d).nodeNum = g.nodeNum
      ∧ ∀ k, (g₁.setArcData g.arcNum d).nodeData k = g.nodeData k := by
  obtain ⟨g₁, hadd, hgrown, hnum⟩ := Tree.addArcUnsafe_spec h hq ht default
  obtain ⟨harc, hnode⟩ := Tree.addArcUnsafe_data hadd
  have hwired₁ : Wired g₁ := h.grown hgrown hq (by omega) (by omega)
  have hsame := Tree.sameLinks_setArcData g₁ g.arcNum d
  refine ⟨g₁, hadd, ⟨hsame.wired hwired₁, ?_, hgrown.edges_eq harc d⟩, ?_, hnode⟩
  · rw [hsame.roots.2, hgrown.roots.2]
  · rw [hsame.nums.2, hnum]

/-- What is built keeps the invariant of the lists. -/
theorem Built.wired (h : Built g) : Wired g := by
  induction h with
  | new => exact Tree.wired_new
  | addNode _ hs hadd ih =>
      obtain ⟨g₁, hadd', hgrown, hnum⟩ := Tree.addNodeUnsafe_spec ih hs default default
      obtain ⟨rfl, -⟩ := Prod.mk.inj (Option.some.inj (hadd'.symm.trans hadd))
      exact ih.grown hgrown hs (by omega) (by omega)
  | addArc _ hs ht hadd ih =>
      obtain ⟨g₁, hadd', hgrown, hnum⟩ := Tree.addArcUnsafe_spec ih hs ht default
      obtain ⟨rfl, -⟩ := Prod.mk.inj (Option.some.inj (hadd'.symm.trans hadd))
      exact ih.grown hgrown hs (by omega) (by omega)
  | setRoot _ hn ih => exact ih.setRoot hn
  | assignArc _ a d ih => exact (Tree.sameLinks_setArcData _ a d).wired ih
  | assignNode _ n e ih => exact (Tree.sameLinks_setNodeData _ n e).wired ih

end Additions

-- ======================================================== the invariant

/-- The copying between two arcs, when `part n` of the out-arcs of a seen
node `n` have been copied. -/
structure CopyInv (g : Tree A N) (r : Nat) (part : Nat → List (Option A × Option Nat))
    (x : Slice A N) : Prop where
  wired : Wired x.new
  root : x.visited r = some x.new.rootNode
  bound : ∀ {n k}, x.visited n = some k → n < g.nodeNum ∧ k < x.new.nodeNum
  inj : ∀ {n n' k}, x.visited n = some k → x.visited n' = some k → n = n'
  surj : ∀ {k}, k < x.new.nodeNum → ∃ n, x.visited n = some k
  data : ∀ {n k}, x.visited n = some k → x.new.nodeData k = g.nodeData n
  arcs : ∀ {n k}, x.visited n = some k → Renumbered x.visited (part n) (x.new.edges k)

theorem CopyInv.numbered {g : Tree A N} {r : Nat} {part : Nat → List (Option A × Option Nat)}
    {x : Slice A N} (h : CopyInv g r part x) : Numbered x.visited x.new.nodeNum :=
  ⟨fun hn => (h.bound hn).2, h.inj, h.surj⟩

theorem Renumbered.mono {f f' : Nat → Option Nat} {es es' : List (Option A × Option Nat)}
    (hf : ∀ n k, f n = some k → f' n = some k) (h : Renumbered f es es') :
    Renumbered f' es es' := by
  unfold Renumbered at h ⊢
  refine h.imp fun e e' he => ⟨he.1, ?_⟩
  obtain ⟨n, k, hn, hk, hnk⟩ := he.2
  exact ⟨n, k, hn, hk, hf n k hnk⟩

theorem Renumbered.concat {f : Nat → Option Nat} {es es' : List (Option A × Option Nat)}
    {d : Option A} {n k : Nat} (h : Renumbered f es es') (hn : f n = some k) :
    Renumbered f (es ++ [(d, some n)]) (es' ++ [(d, some k)]) := by
  unfold Renumbered at h ⊢
  exact List.rel_append h (List.Forall₂.cons ⟨rfl, n, k, rfl, rfl, hn⟩ List.Forall₂.nil)

section Copying

variable [Inhabited A] [Inhabited N] {g : Tree A N} {r p q a c : Nat}
  {part part' : Nat → List (Option A × Option Nat)} {x : Slice A N}

section Arc

variable (h : CopyInv g r part x) (hp : x.visited p = some q) (ha : a < g.arcNum)
  (hc : g.target a = some c) (hpart : part' p = part p ++ [(g.arcData a, some c)])
  (hother : ∀ n, x.visited n ≠ none → n ≠ p → part' n = part n)

include h hp ha hc hpart hother

/-- An arc of `p`, which is `q` in the new tree, to a node that is there
already: only the arc is new. -/
theorem CopyInv.copyArc_of_visited {k : Nat} (hv : x.visited c = some k) :
    ∃ y, copyArc g p x a = some y ∧ CopyInv g r part' y ∧ y.visited = x.visited
      ∧ y.work = x.work := by
  obtain ⟨d, hd⟩ := exists_arcData ha
  obtain ⟨new, hadd, happ, hnum, hdata⟩ :=
    addArcUnsafe_assign h.wired (h.bound hp).2 (h.bound hv).2 d
  refine ⟨{ x with new := new.setArcData x.new.arcNum d }, ?_, ?_, rfl, rfl⟩
  · unfold copyArc
    simp only [hc, hp, hd, hv, Option.bind_some, hadd, Option.map_some]
  constructor
  case wired => exact happ.wired
  case root => exact h.root.trans (congrArg some happ.root.symm)
  case bound =>
    intro n k' hn
    obtain ⟨hlt, hlt'⟩ := h.bound hn
    exact ⟨hlt, hnum ▸ hlt'⟩
  case inj => exact h.inj
  case surj => exact fun hk => h.surj (hnum ▸ hk)
  case data => exact fun hn => (hdata _).trans (h.data hn)
  case arcs =>
    intro n k' hn
    show Renumbered x.visited (part' n) ((new.setArcData x.new.arcNum d).edges k')
    rw [happ.edges]
    by_cases hnp : n = p
    · subst hnp
      obtain rfl := Option.some.inj (hp.symm.trans hn)
      rw [if_pos rfl, hpart, hd]
      exact (h.arcs hp).concat hv
    · have hkq : k' ≠ q := fun heq => hnp (h.inj hn (heq ▸ hp))
      rw [if_neg hkq, hother n (by rw [hn]; simp) hnp]
      exact h.arcs hn

/-- An arc of `p` to a node that is not: it is copied with the arc, and
goes on the work list. -/
theorem CopyInv.copyArc_of_not_visited (hcg : c < g.nodeNum) (hv : x.visited c = none)
    (hnew : part' c = []) :
    ∃ y, copyArc g p x a = some y ∧ CopyInv g r part' y
      ∧ (y.visited = fun n => if n = c then some x.new.nodeNum else x.visited n)
      ∧ y.work = x.work ++ [c] := by
  obtain ⟨d, hd⟩ := exists_arcData ha
  obtain ⟨e, he⟩ := exists_nodeData hcg
  obtain ⟨new, new', hadd, hassign, happ, hnum, hdata⟩ :=
    addNodeUnsafe_assign h.wired (h.bound hp).2 d e
  refine ⟨{ new := new'
            visited := fun n => if n = c then some x.new.nodeNum else x.visited n
            work := x.work ++ [c] }, ?_, ?_, rfl, rfl⟩
  · unfold copyArc
    simp only [hc, hp, hd, hv, he, Option.bind_some, hadd, hassign, Option.map_some]
  have hnext := h.numbered.extend hv
  rw [← hnum] at hnext
  have hgrow : ∀ n k, x.visited n = some k →
      (if n = c then some x.new.nodeNum else x.visited n) = some k :=
    fun n k hn => keeps_number hv hn
  constructor
  case wired => exact happ.wired
  case root => exact hgrow r _ (h.root.trans (congrArg some happ.root.symm))
  case bound =>
    intro n k hn
    refine ⟨?_, hnext.bound hn⟩
    rcases h.numbered.cases_next hn with ⟨rfl, -⟩ | ⟨-, hn, -⟩
    · exact hcg
    · exact (h.bound hn).1
  case inj => exact hnext.inj
  case surj => exact hnext.surj
  case data =>
    intro n k hn
    refine (hdata k).trans ?_
    rcases h.numbered.cases_next hn with ⟨rfl, rfl⟩ | ⟨-, hn, hk⟩
    · rw [if_pos rfl, he]
    · rw [if_neg (by omega), h.data hn]
  case arcs =>
    intro n k hn
    show Renumbered _ (part' n) (new'.edges k)
    rw [happ.edges]
    have hq := (h.bound hp).2
    rcases h.numbered.cases_next hn with ⟨rfl, rfl⟩ | ⟨-, hold, hk⟩
    · rw [if_neg (by omega), hnew, Tree.edges, h.wired.outArcs_new (Nat.le_refl _)]
      exact List.Forall₂.nil
    · by_cases hnp : n = p
      · subst hnp
        obtain rfl := Option.some.inj (hp.symm.trans hold)
        rw [if_pos rfl, hpart, hd]
        exact ((h.arcs hp).mono hgrow).concat (if_pos rfl)
      · have hkq : k ≠ q := fun heq => hnp (h.inj hold (heq ▸ hp))
        rw [if_neg hkq, hother n (by rw [hold]; simp) hnp]
        exact (h.arcs hold).mono hgrow

end Arc

end Copying

end MctsConnectFour.Digraph.Older
