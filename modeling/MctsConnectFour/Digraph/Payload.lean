/-
The data of the older tree, and what the operations do to it.

`edges` is what a node's out-list says, the indices of the arcs apart: in
order, the data of each arc and the node it leads to. An arc that is
added appends one edge (`Grown.edges_eq`) and leaves all other data;
writing data leaves the links (`SameLinks`), and so the invariant.
-/
import MctsConnectFour.Digraph.Wired

namespace MctsConnectFour.Digraph.Tree

open Chain (Linked Threaded)

variable {A N : Type} {g g' : Tree A N}

-- ============================================================= the data

/-- `m_arcs [ a ].data`. -/
def arcData (g : Tree A N) (a : Nat) : Option A := g.arcs[a]?.map ArcType.data

/-- `m_nodes [ n ].data`. -/
def nodeData (g : Tree A N) (n : Nat) : Option N := g.nodes[n]?.map NodeType.data

/-- `m_arcs [ a ].data = d`. -/
def setArcData (g : Tree A N) (a : Nat) (d : A) : Tree A N :=
  { g with arcs := g.arcs.modify a fun x => { x with data := d } }

/-- `m_nodes [ n ].data = e`. -/
def setNodeData (g : Tree A N) (n : Nat) (e : N) : Tree A N :=
  { g with nodes := g.nodes.modify n fun x => { x with data := e } }

/-- The out-arcs of a node: their data and their targets. -/
def edges (g : Tree A N) (n : Nat) : List (Option A × Option Nat) :=
  (g.outArcs n).map fun a => (g.arcData a, g.target a)

/-- A tree with the same links: only data may differ. -/
structure SameLinks (g g' : Tree A N) : Prop where
  roots : g'.rootArc = g.rootArc ∧ g'.rootNode = g.rootNode
  nums : g'.arcNum = g.arcNum ∧ g'.nodeNum = g.nodeNum
  source : ∀ b, g'.source b = g.source b
  target : ∀ b, g'.target b = g.target b
  nextIn : ∀ b, g'.nextIn b = g.nextIn b
  nextOut : ∀ b, g'.nextOut b = g.nextOut b
  ins : ∀ n, g'.headIn n = g.headIn n ∧ g'.tailIn n = g.tailIn n
  outs : ∀ n, g'.headOut n = g.headOut n ∧ g'.tailOut n = g.tailOut n

theorem SameLinks.outArcs (h : SameLinks g g') (n : Nat) : g'.outArcs n = g.outArcs n := by
  unfold Tree.outArcs
  rw [h.nums.1]
  exact List.filter_congr fun b _ => by rw [h.source]

theorem SameLinks.inArcs (h : SameLinks g g') (n : Nat) : g'.inArcs n = g.inArcs n := by
  unfold Tree.inArcs
  rw [h.nums.1]
  refine List.filter_congr fun b _ => ?_
  unfold home
  rw [h.target]

/-- The invariant is about the links. -/
theorem SameLinks.wired (h : SameLinks g g') (hw : Wired g) : Wired g' := by
  constructor
  case rootArc => rw [h.roots.1, hw.rootArc]
  case root_lt => rw [h.roots.2, h.nums.2]; exact hw.root_lt
  case root => rw [h.nums.1, h.source, h.target, h.roots.2]; exact hw.root
  case source_lt =>
    intro a ha hlt
    rw [h.nums.1] at hlt
    rw [h.source, h.nums.2]
    exact hw.source_lt ha hlt
  case target_lt =>
    intro a hlt
    rw [h.nums.1] at hlt
    rw [h.target, h.nums.2]
    exact hw.target_lt hlt
  case ins =>
    intro n hn
    rw [h.nums.2] at hn
    rw [h.inArcs, (h.ins n).1, (h.ins n).2]
    exact (hw.ins hn).congr fun b _ => h.nextIn b
  case outs =>
    intro n hn
    rw [h.nums.2] at hn
    rw [h.outArcs, (h.outs n).1, (h.outs n).2]
    exact (hw.outs hn).congr fun b _ => h.nextOut b
  case some_in =>
    intro n hn
    rw [h.nums.2] at hn
    rw [h.inArcs]
    exact hw.some_in hn

-- ======================================================== writing data

theorem sameLinks_setArcData (g : Tree A N) (a : Nat) (d : A) : SameLinks g (g.setArcData a d) where
  roots := ⟨rfl, rfl⟩
  nums := ⟨List.length_modify .., rfl⟩
  source b := bind_modify _ b fun _ => rfl
  target b := map_modify _ b fun _ => rfl
  nextIn b := bind_modify _ b fun _ => rfl
  nextOut b := bind_modify _ b fun _ => rfl
  ins _ := ⟨rfl, rfl⟩
  outs _ := ⟨rfl, rfl⟩

theorem sameLinks_setNodeData (g : Tree A N) (n : Nat) (e : N) :
    SameLinks g (g.setNodeData n e) where
  roots := ⟨rfl, rfl⟩
  nums := ⟨rfl, List.length_modify ..⟩
  source _ := rfl
  target _ := rfl
  nextIn _ := rfl
  nextOut _ := rfl
  ins k := ⟨bind_modify _ k fun _ => rfl, bind_modify _ k fun _ => rfl⟩
  outs k := ⟨bind_modify _ k fun _ => rfl, bind_modify _ k fun _ => rfl⟩

theorem arcData_setArcData {a : Nat} (ha : a < g.arcNum) (d : A) (b : Nat) :
    (g.setArcData a d).arcData b = if b = a then some d else g.arcData b :=
  map_modify_set _ ha b fun _ => rfl

theorem nodeData_setNodeData {n : Nat} (hn : n < g.nodeNum) (e : N) (k : Nat) :
    (g.setNodeData n e).nodeData k = if k = n then some e else g.nodeData k :=
  map_modify_set _ hn k fun _ => rfl

theorem edges_setNodeData (n : Nat) (e : N) (k : Nat) : (g.setNodeData n e).edges k = g.edges k := by
  unfold edges
  rw [(sameLinks_setNodeData g n e).outArcs]
  rfl

-- ======================================================= adding an arc

/-- The links that are set at the ends of the lists are no data. -/
theorem linkOut_data {s a : Nat} (h : g.linkOut s a = some g') :
    (∀ b, g'.arcData b = g.arcData b) ∧ ∀ n, g'.nodeData n = g.nodeData n := by
  unfold linkOut at h
  split at h
  · obtain rfl := Option.some.inj h
    exact ⟨fun _ => rfl, fun n => map_modify _ n fun _ => rfl⟩
  · obtain ⟨tail, -, rfl⟩ := Option.map_eq_some_iff.mp h
    exact ⟨fun b => map_modify _ b fun _ => rfl, fun n => map_modify _ n fun _ => rfl⟩

theorem linkIn_data {t a : Nat} (h : g.linkIn t a = some g') :
    (∀ b, g'.arcData b = g.arcData b) ∧ ∀ n, g'.nodeData n = g.nodeData n := by
  unfold linkIn at h
  obtain ⟨tail, -, rfl⟩ := Option.map_eq_some_iff.mp h
  exact ⟨fun b => map_modify _ b fun _ => rfl, fun n => map_modify _ n fun _ => rfl⟩

theorem addArcUnsafe_data {s t : Nat} {d : A} {l : Link} (h : g.addArcUnsafe s t d = some (g', l)) :
    (∀ b, g'.arcData b = if b = g.arcNum then some d else g.arcData b)
      ∧ ∀ n, g'.nodeData n = g.nodeData n := by
  unfold addArcUnsafe at h
  obtain ⟨g₁, hin, hrest⟩ := Option.bind_eq_some_iff.mp h
  obtain ⟨g₂, hout, heq⟩ := Option.map_eq_some_iff.mp hrest
  obtain ⟨rfl, -⟩ := Prod.mk.inj heq
  obtain ⟨harc, hnode⟩ := linkIn_data hin
  obtain ⟨harc', hnode'⟩ := linkOut_data hout
  refine ⟨fun b => ?_, fun n => (hnode' n).trans (hnode n)⟩
  rw [harc', harc]
  exact map_append ArcType.data _ _ b

theorem addNodeUnsafe_data {s : Nat} {d : A} {e : N} {l : Link}
    (h : g.addNodeUnsafe s d e = some (g', l)) :
    (∀ b, g'.arcData b = if b = g.arcNum then some d else g.arcData b)
      ∧ ∀ n, g'.nodeData n = if n = g.nodeNum then some e else g.nodeData n := by
  unfold addNodeUnsafe at h
  obtain ⟨g₁, hout, heq⟩ := Option.map_eq_some_iff.mp h
  obtain ⟨rfl, -⟩ := Prod.mk.inj heq
  obtain ⟨harc, hnode⟩ := linkOut_data hout
  refine ⟨fun b => ?_, fun n => ?_⟩
  · rw [harc]
    exact map_append ArcType.data _ _ b
  · rw [hnode]
    exact map_append NodeType.data _ _ n

/-- An arc that is added and then given its data is one edge more at its
source. -/
theorem Grown.edges_eq {s t : Nat} (hg : Grown g s t g') {d₀ : A}
    (harc : ∀ b, g'.arcData b = if b = g.arcNum then some d₀ else g.arcData b) (d : A) (n : Nat) :
    (g'.setArcData g.arcNum d).edges n
      = if n = s then g.edges s ++ [(some d, some t)] else g.edges n := by
  have hlt : g.arcNum < g'.arcNum := by
    rw [hg.arcs]
    omega
  have hold : ∀ k, (g.outArcs k).map (fun a =>
      ((g'.setArcData g.arcNum d).arcData a, (g'.setArcData g.arcNum d).target a))
        = g.edges k := by
    intro k
    refine List.map_congr_left fun a ha => ?_
    have hne : a ≠ g.arcNum := by
      have := (mem_outArcs.mp ha).1
      omega
    rw [arcData_setArcData hlt, if_neg hne, harc, if_neg hne,
      (sameLinks_setArcData g' g.arcNum d).target, hg.target, if_neg hne]
  unfold edges
  rw [(sameLinks_setArcData g' g.arcNum d).outArcs, hg.outArcs_eq]
  by_cases hns : n = s
  · rw [if_pos hns, if_pos hns, List.map_append, hold, List.map_singleton,
      arcData_setArcData hlt, if_pos rfl, (sameLinks_setArcData g' g.arcNum d).target, hg.target,
      if_pos rfl]
    rfl
  · rw [if_neg hns, if_neg hns, hold]
    rfl

end MctsConnectFour.Digraph.Tree
