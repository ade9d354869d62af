/-
Selection and expansion.

The selection walks from the root along the children `selectChildUCT`
chooses and replays their moves on a copy of the state `compute` was
given. `DescentInv` is its invariant: the moves replayed are a legal line
and lead to the position of the node arrived at. `Trail` is the same walk
seen on the path: the nodes entered are distinct, below the root and
positions that can be played to, because every arc brings the measure of
the game down.

`StopsAt` is the walk as a relation between a tree, the outcomes of the
generator and the node where it stops. It does not look at states.
-/
import MctsConnectFour.Mcts.Tree

namespace MctsConnectFour

open SearchTree LawfulSearchTree
open Mcts (selectChildUCT bestChildren selectChild hasUntriedMoves hasChildren)

variable {G : Game} {τ : Type} [SearchTree τ (ArcData G) (NodeData G)]

-- ====================================================== choosing a child

/-- The best children are some of the children. -/
theorem bestChildren_mem (t : τ) (n : Nat) {l : List (Nat × Nat)} :
    ∀ (rest : List (Nat × Nat)) (best : List (Nat × Nat) × Float32),
      (∀ x ∈ rest, x ∈ l) → best.1 ≠ [] → (∀ x ∈ best.1, x ∈ l) →
        (rest.foldl (bestChildren G t n) best).1 ≠ []
          ∧ ∀ x ∈ (rest.foldl (bestChildren G t n) best).1, x ∈ l := by
  intro rest
  induction rest with
  | nil => exact fun _ _ hne hbest => ⟨hne, hbest⟩
  | cons a rest ih =>
      intro best hrest hne hbest
      have ha := hrest a (List.mem_cons_self ..)
      rw [List.foldl_cons]
      refine ih _ (fun x hx => hrest x (List.mem_cons_of_mem _ hx)) ?_ ?_
      · unfold bestChildren
        simp only
        split_ifs
        · exact List.cons_ne_nil _ _
        · exact List.append_ne_nil_of_left_ne_nil hne _
        · exact hne
      · unfold bestChildren
        simp only
        split_ifs
        · intro x hx
          rwa [List.mem_singleton.mp hx]
        · intro x hx
          rcases List.mem_append.mp hx with hx | hx
          · exact hbest x hx
          · rwa [List.mem_singleton.mp hx]
        · exact hbest

/-- The child chosen is an out-arc with its target. -/
theorem selectChildUCT_mem (t : τ) (n : Nat) (ω : Rng) (h : isInternal t n = true) :
    (selectChildUCT G t n ω).1 ∈ outArcs t n := by
  cases hout : outArcs t n with
  | nil => simp [isInternal, hout] at h
  | cons a rest =>
      unfold selectChildUCT
      simp only [hout]
      obtain ⟨hne, hmem⟩ := bestChildren_mem (G := G) t n (l := a :: rest) rest
        ([a], Mcts.getUCTFromNode G t n a.2) (fun x hx => List.mem_cons_of_mem _ hx)
        (List.cons_ne_nil _ _) (fun x hx => by rw [List.mem_singleton.mp hx]; exact List.mem_cons_self ..)
      generalize (List.foldl (bestChildren G t n) ([a], Mcts.getUCTFromNode G t n a.2) rest).1
        = best at hne hmem
      split
      · obtain ⟨x, hx⟩ := Option.ne_none_iff_exists'.mp (mt List.getLast?_eq_none_iff.mp hne)
        show best.getLast?.getD default ∈ _
        rw [hx, Option.getD_some]
        exact hmem x (List.mem_of_getLast? hx)
      · have hlt := ω.uniform_lt (List.length_pos_iff.mpr hne)
        show best[(ω.uniform best.length).1]?.getD default ∈ _
        rw [List.getElem?_eq_getElem hlt, Option.getD_some]
        exact hmem _ (List.getElem_mem hlt)

-- ===================================================== where it stops

/-- The guard of the selection: `hasNoUntriedMoves` and `hasChildren`. -/
def GoesOn (t : τ) (n : Nat) : Prop :=
  (node t n : NodeData G).moves = none ∧ isInternal t n = true

/-- From `n` and with the outcomes `ω`, the selection stops at `k`. -/
inductive StopsAt (t : τ) : Nat → Rng → Nat → Prop
  | here {n : Nat} {ω : Rng} : ¬ GoesOn t n → StopsAt t n ω n
  | child {n k : Nat} {ω : Rng} : GoesOn t n →
      StopsAt t (selectChildUCT G t n ω).1.2 (selectChildUCT G t n ω).2 k → StopsAt t n ω k

/-- The selection stops at one node. -/
theorem StopsAt.unique {t : τ} {n k k' : Nat} {ω : Rng} (h : StopsAt t n ω k)
    (h' : StopsAt t n ω k') : k = k' := by
  induction h with
  | here hstop =>
      cases h' with
      | here => rfl
      | child hgo => exact absurd hgo hstop
  | child hgo _ ih =>
      cases h' with
      | here hstop => exact absurd hgo hstop
      | child _ h' => exact ih h'

-- ======================================================= the invariants

variable {s₀ s : G.State} {pos : Nat → G.State} {m : Mcts τ} {d : Descent G} {μ : G.State → Nat}

/-- A measure of games from `s₀`. -/
structure IsMeasure (s₀ : G.State) (μ : G.State → Nat) : Prop where
  decreases : ∀ {s m}, G.Mixed s₀ s → ∀ op, m ∈ G.legal s → μ (G.apply op s m) < μ s
  congr : ∀ {s t}, G.Played s₀ s → G.Played s₀ t → G.position s = G.position t → μ s = μ t

theorem Game.Lawful.exists_measure (hG : G.Lawful s₀) : ∃ μ : G.State → Nat, IsMeasure s₀ μ := by
  obtain ⟨μ, hdec, hcongr⟩ := hG.measure
  exact ⟨μ, hdec, hcongr⟩

/-- The selection has replayed a legal line and is at the node of the
position it leads to. -/
structure DescentInv (m : Mcts τ) (pos : Nat → G.State) (s : G.State) (d : Descent G) : Prop where
  line : G.LegalLine s d.line
  state : d.state = d.line.foldl G.moveHash s
  node_lt : d.node < nodeNum m.tree
  position : G.position (pos d.node) = G.position (G.play s d.line)

/-- The nodes entered on the way from the root to `n`. -/
structure Trail (μ : G.State → Nat) (t : τ) (pos : Nat → G.State) (s : G.State) (n : Nat)
    (ns : List Nat) : Prop where
  lt : ∀ k ∈ ns, k < nodeNum t
  above : ∀ k ∈ ns, μ (pos n) ≤ μ (pos k)
  below : ∀ k ∈ ns, μ (pos k) < μ (pos (rootNode t))
  last : μ (pos n) ≤ μ (pos (rootNode t))
  nodup : ns.Nodup
  playable : ∀ k ∈ ns, ∃ ms, G.LegalLine s ms ∧ G.position (pos k) = G.position (G.play s ms)

theorem Trail.start (μ : G.State → Nat) (t : τ) (pos : Nat → G.State) (s : G.State) :
    Trail μ t pos s (rootNode t) [] :=
  ⟨by simp, by simp, by simp, le_rfl, List.nodup_nil, by simp⟩

/-- A child is entered. -/
theorem Trail.concat {t : τ} {n k : Nat} {ns : List Nat} (h : Trail μ t pos s n ns)
    (hk : k < nodeNum t) (hless : μ (pos k) < μ (pos n)) {ms : List G.Move}
    (hline : G.LegalLine s ms) (hpos : G.position (pos k) = G.position (G.play s ms)) :
    Trail μ t pos s k (ns ++ [k]) := by
  have hlast := h.last
  have hout : k ∉ ns := fun hin => by
    have habove := h.above k hin
    omega
  refine ⟨?_, ?_, ?_, by omega, ?_, ?_⟩
  · exact List.forall_mem_append.mpr ⟨h.lt, by simpa using hk⟩
  · refine List.forall_mem_append.mpr ⟨fun i hi => ?_, by simp⟩
    have habove := h.above i hi
    omega
  · refine List.forall_mem_append.mpr ⟨h.below, fun i hi => ?_⟩
    rw [List.mem_singleton.mp hi]
    omega
  · exact List.nodup_append'.mpr ⟨h.nodup, List.nodup_singleton k,
      List.disjoint_singleton.mpr hout⟩
  · refine List.forall_mem_append.mpr ⟨h.playable, fun i hi => ?_⟩
    rw [List.mem_singleton.mp hi]
    exact ⟨ms, hline, hpos⟩

/-- The selection has put the nodes `ns` on the path. -/
def OnPath (m : Mcts τ) (path : List Link) (ns : List Nat) : Prop :=
  ∃ links, path = m.path ++ links ∧ links.map Link.target = ns.map some

omit [SearchTree τ (ArcData G) (NodeData G)] in
theorem OnPath.start (m : Mcts τ) : OnPath m m.path [] := ⟨[], by simp, rfl⟩

omit [SearchTree τ (ArcData G) (NodeData G)] in
theorem OnPath.concat {path : List Link} {ns : List Nat} (h : OnPath m path ns) {link : Link}
    {k : Nat} (hlink : link.target = some k) : OnPath m (path ++ [link]) (ns ++ [k]) := by
  obtain ⟨links, rfl, htargets⟩ := h
  refine ⟨links ++ [link], List.append_assoc .., ?_⟩
  rw [List.map_append, List.map_append, htargets, List.map_singleton, List.map_singleton, hlink]

section Descend

variable (hG : G.Lawful s₀) (hμ : IsMeasure s₀ μ)
  (h : TreeInv s₀ m.tree m.transpositionTable pos) (hs : G.Played s₀ s)
  (hroot : G.position (pos (rootNode m.tree)) = G.position s)

include hμ h in
/-- Every arc brings the measure down. -/
theorem TreeInv.measure_lt {n : Nat} (hn : n < nodeNum m.tree) {e : ArcData G × Nat}
    (he : e ∈ edges m.tree n) : μ (pos e.2) < μ (pos n) := by
  have hlegal := h.tried_legal hn he
  rw [← hμ.congr ((h.played hn).moveHashWinner hlegal) (h.played (h.target_lt hn he))
    (h.leads hn he)]
  exact hμ.decreases (h.played hn).mixed .moveHashWinner hlegal

include hG h hs in
/-- The moves of the node arrived at are those of the position played
to. -/
theorem DescentInv.legal_perm (hd : DescentInv m pos s d) :
    (G.legal (pos d.node)).Perm (G.legal (G.play s d.line)) :=
  hG.legal_perm (h.played hd.node_lt) (hs.play hd.line) hd.position

include hG hμ h hs in
/-- One turn of the selection. -/
theorem DescentInv.selectChild (hd : DescentInv m pos s d) {ns : List Nat}
    (htrail : Trail μ m.tree pos s d.node ns) (hpath : OnPath m d.path ns)
    (hgo : GoesOn m.tree d.node) :
    DescentInv m pos s (selectChild G m.tree d)
      ∧ μ (pos (Mcts.selectChild G m.tree d).node) < μ (pos d.node)
      ∧ ∃ k, Trail μ m.tree pos s (Mcts.selectChild G m.tree d).node (ns ++ [k])
        ∧ OnPath m (Mcts.selectChild G m.tree d).path (ns ++ [k]) := by
  have hmem := mem_edges_of_outArcs (selectChildUCT_mem (G := G) m.tree d.node d.rng hgo.2)
  generalize hchild : selectChildUCT G m.tree d.node d.rng = child at hmem
  have hstep : Mcts.selectChild G m.tree d
      = { state := G.moveHash d.state (arc m.tree child.1.1 : ArcData G).move
          node := child.1.2
          path := d.path ++ [⟨some child.1.1, some child.1.2⟩]
          line := d.line ++ [(arc m.tree child.1.1 : ArcData G).move]
          rng := child.2 } := by
    unfold Mcts.selectChild
    simp only [hchild]
  have hlegal := (hd.legal_perm hG h hs).mem_iff.mp (h.tried_legal hd.node_lt hmem)
  have hline := hG.legalLine_concat hs hd.line hlegal
  have hlt := h.target_lt hd.node_lt hmem
  have hless := h.measure_lt hμ hd.node_lt hmem
  have hposition : G.position (pos child.1.2)
      = G.position (G.play s (d.line ++ [(arc m.tree child.1.1 : ArcData G).move])) := by
    rw [Game.play_concat]
    exact (h.leads hd.node_lt hmem).symm.trans (hG.position_move hd.position _)
  rw [hstep]
  refine ⟨⟨hline, ?_, hlt, hposition⟩, hless, child.1.2, ?_, ?_⟩
  · rw [hd.state, List.foldl_append]
    rfl
  · exact htrail.concat hlt hless hline hposition
  · exact hpath.concat rfl

theorem goesOn_iff (n : Nat) :
    (!hasUntriedMoves G m n && m.hasChildren G n) = true ↔ GoesOn m.tree n := by
  unfold hasUntriedMoves hasChildren GoesOn
  rw [Bool.and_eq_true, Bool.not_eq_true', Option.isSome_eq_false_iff, Option.isNone_iff_eq_none]

include hG hμ h hs hroot

/-- What the selection returns. -/
theorem descend_spec {fuel : Nat} {ω : Rng} (hrun : m.descend G fuel s ω = some d) :
    DescentInv m pos s d ∧ (∃ ns, Trail μ m.tree pos s d.node ns ∧ OnPath m d.path ns)
      ∧ ¬ GoesOn m.tree d.node ∧ StopsAt m.tree (rootNode m.tree) ω d.node := by
  obtain ⟨⟨hd, hpath, hstop⟩, hdone⟩ := Loops.whileLoop_inv
    (I := fun d => DescentInv m pos s d
      ∧ (∃ ns, Trail μ m.tree pos s d.node ns ∧ OnPath m d.path ns)
      ∧ ∀ k, StopsAt m.tree d.node d.rng k → StopsAt m.tree (rootNode m.tree) ω k)
    (fun d d' hI hmore hstep => by
      obtain ⟨hd, ⟨ns, htrail, hpath⟩, hstop⟩ := hI
      obtain rfl := Option.some.inj hstep
      have hgo := (goesOn_iff d.node).mp hmore
      obtain ⟨hd', -, k, htrail', hpath'⟩ := hd.selectChild hG hμ h hs htrail hpath hgo
      exact ⟨hd', ⟨_, htrail', hpath'⟩, fun k hk => hstop k (.child hgo hk)⟩)
    (show DescentInv m pos s ⟨s, rootNode m.tree, m.path, [], ω⟩ ∧ _ ∧ _ from
      ⟨⟨trivial, rfl, h.root_lt, hroot⟩,
        ⟨[], Trail.start μ m.tree pos s, OnPath.start m⟩, fun _ hk => hk⟩)
    hrun
  rw [← Bool.not_eq_true, goesOn_iff] at hdone
  exact ⟨hd, hpath, hdone, hstop _ (.here hdone)⟩

/-- The selection comes to an end. -/
theorem descend_total : ∃ bound, ∀ fuel, bound ≤ fuel → ∀ ω, ∃ d, m.descend G fuel s ω = some d := by
  refine ⟨μ (pos (rootNode m.tree)), fun fuel hfuel ω => ?_⟩
  exact Loops.whileLoop_total
    (I := fun d => DescentInv m pos s d
      ∧ ∃ ns, Trail μ m.tree pos s d.node ns ∧ OnPath m d.path ns)
    (fun d => μ (pos d.node))
    (fun d hI hmore => by
      obtain ⟨hd, ns, htrail, hpath⟩ := hI
      obtain ⟨hd', hless, k, htrail', hpath'⟩ :=
        hd.selectChild hG hμ h hs htrail hpath ((goesOn_iff d.node).mp hmore)
      exact ⟨_, rfl, ⟨hd', _, htrail', hpath'⟩, hless⟩)
    (s := (⟨s, rootNode m.tree, m.path, [], ω⟩ : Descent G))
    ⟨⟨trivial, rfl, h.root_lt, hroot⟩, [], Trail.start μ m.tree pos s, OnPath.start m⟩ hfuel

end Descend

end MctsConnectFour
