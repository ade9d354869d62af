/-
One iteration of `compute`: expansion, three playouts, the path cut back.

`TurnSpec` is everything an iteration does, said once. The tree grows by
at most one node and keeps its invariant; the path of the playouts is the
path there was and a trail below the root; the leaf is where the line has
led, reached either by trying a move of an open position or, when the
selection has stopped at a position without moves, by replaying the moves
that lead to it; and each playout adds one visit to a node for every
entry the node has on the path.
-/
import MctsConnectFour.Mcts.Selection

namespace MctsConnectFour

open SearchTree LawfulSearchTree

variable {G : Game} {τ : Type} [SearchTree τ (ArcData G) (NodeData G)] [LawfulSearchTree τ]
  {s₀ s : G.State} {pos : Nat → G.State} {m : Mcts τ} {d : Descent G} {μ : G.State → Nat}

-- =========================================================== expansion

/-- What trying a move of `d.node` does. -/
structure Tried (s₀ : G.State) (m : Mcts τ) (pos : Nat → G.State) (s : G.State) (d : Descent G)
    (m' : Mcts τ) (d' : Descent G) (pos' : Nat → G.State) : Prop where
  tree : TreeInv s₀ m'.tree m'.transpositionTable pos'
  pos_eq : ∀ n, n < nodeNum m.tree → pos' n = pos n
  num_le : nodeNum m.tree ≤ nodeNum m'.tree
  root : rootNode m'.tree = rootNode m.tree
  rest : m'.path = m.path ∧ m'.pathSize = m.pathSize ∧ m'.notInitialized = m.notInitialized
  visits : ∀ n, n < nodeNum m.tree →
    (node m'.tree n : NodeData G).visits = (node m.tree n : NodeData G).visits
  state : d'.state = G.play s d'.line
  move : ∃ move ∈ G.legal (G.play s d.line), d'.line = d.line ++ [move]
  child : ∃ k link, k < nodeNum m'.tree ∧ G.position (pos' k) = G.position (G.play s d'.line)
    ∧ d'.path = d.path ++ [link] ∧ link.target = some k

/-- A move drawn from `d.node`, with the data left there, and the state
`next` it leads to. -/
structure DrawnMove (s₀ : G.State) (m : Mcts τ) (pos : Nat → G.State) (s : G.State)
    (d : Descent G) (move : G.Move) (data : NodeData G) (ω : Rng) (next : G.State) : Prop where
  untried : m.hasUntriedMoves G d.node = true
  drawn : (node m.tree d.node : NodeData G).getUntriedMove d.rng = (move, data, ω)
  perm : (move :: data.untried).Perm (node m.tree d.node : NodeData G).untried
  stocked : data.Stocked
  player : data.playerJustMoved = (node m.tree d.node : NodeData G).playerJustMoved
  visits : data.visits = (node m.tree d.node : NodeData G).visits
  legal : move ∈ G.legal (G.play s d.line)
  next_eq : G.play s (d.line ++ [move]) = next
  made : G.moveHashWinner d.state move = next
  played : G.Played s₀ next
  leads : G.position (G.moveHashWinner (pos d.node) move) = G.position next
  arc : ArcData.ofState next = (⟨move⟩ : ArcData G)

omit [LawfulSearchTree τ] in
/-- An open position has a move to draw, which is listed there. -/
theorem DescentInv.exists_drawn (hG : G.Lawful s₀)
    (h : TreeInv s₀ m.tree m.transpositionTable pos) (hs : G.Played s₀ s)
    (hd : DescentInv m pos s d) (hsome : m.hasUntriedMoves G d.node = true) :
    ∃ move data ω next, DrawnMove s₀ m pos s d move data ω next := by
  obtain ⟨hperm, hstocked, hkeep⟩ := (h.stocked hd.node_lt).getUntriedMove hsome d.rng
  generalize hdraw : (node m.tree d.node : NodeData G).getUntriedMove d.rng = drawn
    at hperm hstocked hkeep
  obtain ⟨move, data, ω⟩ := drawn
  simp only at hperm hstocked hkeep
  have hlegal : move ∈ G.legal (G.play s d.line) :=
    (hd.legal_perm hG h hs).mem_iff.mp
      (h.untried_legal hd.node_lt (hperm.mem_iff.mp (List.mem_cons_self ..)))
  have hline := hG.legalLine_concat hs hd.line hlegal
  have hstate : d.state = G.play s d.line := by
    rw [hd.state]
    exact hG.hashLine_eq hs hd.line
      ((hG.ended_iff (hs.play hd.line)).mpr (List.ne_nil_of_mem hlegal))
  refine ⟨move, data, ω, G.play s (d.line ++ [move]), hsome, hdraw, hperm, hstocked, ?_, ?_,
    hlegal, rfl, ?_, hs.play hline, ?_, ?_⟩
  · rw [hkeep]
  · rw [hkeep]
  · rw [Game.play_concat, hstate]
  · rw [Game.play_concat]
    exact hG.position_move hd.position move
  · unfold ArcData.ofState
    rw [Game.play_concat, hG.lastMove]

section Drawn

variable {move : G.Move} {data : NodeData G} {ω : Rng} {next : G.State}
  (h : TreeInv s₀ m.tree m.transpositionTable pos) (hd : DescentInv m pos s d)
  (hmove : DrawnMove s₀ m pos s d move data ω next)

include h hd hmove

/-- The state is in the table: its node gets an arc. -/
theorem expand_found (hcol : G.NoCollision s₀) {k : Nat}
    (hfind : m.transpositionTable.find (G.zobrist next) = some k) :
    Tried s₀ m pos s d (m.expand G d).1 (m.expand G d).2 pos := by
  obtain ⟨hk, hpos⟩ := h.position_of_find hcol hmove.played hfind
  have hnext := hmove.next_eq
  generalize hset : SearchTree.setNode m.tree d.node data = u
  obtain ⟨hunum, huroot, hunode, huedges⟩ := setNode_spec hd.node_lt hset
  have hstep : m.expand G d =
      ({ m with tree := (SearchTree.addArc u d.node k (⟨move⟩ : ArcData G)).1 },
        { state := next
          node := d.node
          path := d.path
            ++ [⟨some (SearchTree.addArc u d.node k (⟨move⟩ : ArcData G)).2, some k⟩]
          line := d.line ++ [move]
          rng := ω }) := by
    unfold Mcts.expand
    rw [if_pos hmove.untried]
    simp only [hmove.drawn, hset, hmove.made, Mcts.addChild, Mcts.getNode, hfind, Mcts.addArc,
      hmove.arc]
  rw [hstep]
  constructor
  case tree =>
    refine h.try_move hd.node_lt hk hmove.perm hmove.stocked hmove.player
      (hmove.leads.trans hpos.symm) ?_ ?_ ?_ ?_
    · rw [rootNode_addArc, huroot]
    · rw [nodeNum_addArc, hunum]
    · exact fun i => (node_addArc u d.node k _ i).trans (hunode i)
    · intro i
      rw [edges_addArc u k _ i (hunum ▸ hd.node_lt), huedges]
  case pos_eq => exact fun _ _ => rfl
  case num_le => exact (hunum.symm.trans (nodeNum_addArc u d.node k _).symm).le
  case root => exact (rootNode_addArc u d.node k _).trans huroot
  case rest => exact ⟨rfl, rfl, rfl⟩
  case visits =>
    intro n _
    rw [node_addArc, hunode]
    split
    · next heq => rw [hmove.visits, heq]
    · rfl
  case state => exact hnext.symm
  case move => exact ⟨move, hmove.legal, rfl⟩
  case child =>
    refine ⟨k, _, ?_, hpos.trans (congrArg G.position hnext.symm), rfl, rfl⟩
    show k < nodeNum (SearchTree.addArc u d.node k _).1
    rw [nodeNum_addArc, hunum]
    exact hk

/-- The state is not: it gets a node and an arc. -/
theorem expand_new (hG : G.Lawful s₀)
    (hfind : m.transpositionTable.find (G.zobrist next) = none) :
    Tried s₀ m pos s d (m.expand G d).1 (m.expand G d).2 (extend m.tree pos next) := by
  have hnext := hmove.next_eq
  generalize hset : SearchTree.setNode m.tree d.node data = u
  obtain ⟨hunum, huroot, hunode, huedges⟩ := setNode_spec hd.node_lt hset
  have hid : (SearchTree.addNode u (NodeData.ofState next)).2 = nodeNum m.tree :=
    (addNode_id ..).trans hunum
  generalize hadd : (SearchTree.addNode u (NodeData.ofState next)).1 = v
  have hvnum : nodeNum v = nodeNum m.tree + 1 := by rw [← hadd, nodeNum_addNode, hunum]
  have hvroot : rootNode v = rootNode m.tree := by rw [← hadd, rootNode_addNode, huroot]
  have hstep : m.expand G d =
      ({ m with
          tree := (SearchTree.addArc v d.node (nodeNum m.tree) (⟨move⟩ : ArcData G)).1
          transpositionTable :=
            m.transpositionTable.emplace (G.zobrist next) (nodeNum m.tree) },
        { state := next
          node := d.node
          path := d.path ++ [⟨some (SearchTree.addArc v d.node (nodeNum m.tree)
            (⟨move⟩ : ArcData G)).2, some (nodeNum m.tree)⟩]
          line := d.line ++ [move]
          rng := ω }) := by
    unfold Mcts.expand
    rw [if_pos hmove.untried]
    simp only [hmove.drawn, hset, hmove.made, Mcts.addChild, Mcts.getNode, hfind, Mcts.addNode,
      Mcts.addArc, hmove.arc, hadd, hid]
  have hbig := h.addNode hG hmove.played hfind
  have hbignum : nodeNum (SearchTree.addNode m.tree (NodeData.ofState next)).1
      = nodeNum m.tree + 1 := nodeNum_addNode ..
  have hnodelt := hd.node_lt
  have hnodene : d.node ≠ nodeNum m.tree := by omega
  have hvnode : ∀ i, node v i = if i = d.node then data
      else node (SearchTree.addNode m.tree (NodeData.ofState next)).1 i := by
    intro i
    rw [← hadd, node_addNode, node_addNode, hunode, hunum]
    by_cases hi : i = nodeNum m.tree
    · rw [if_pos hi, if_neg (by omega), if_pos hi]
    · rw [if_neg hi, if_neg hi]
  rw [hstep]
  constructor
  case tree =>
    refine hbig.try_move (n := d.node) (k := nodeNum m.tree) (by omega) (by omega) (m := move)
      (d := data) ?_ hmove.stocked ?_ ?_ ?_ ?_ ?_ ?_
    · rw [node_addNode, if_neg hnodene]
      exact hmove.perm
    · rw [node_addNode, if_neg hnodene]
      exact hmove.player
    · rw [extend_of_lt hd.node_lt, extend_new]
      exact hmove.leads
    · rw [rootNode_addArc, hvroot, rootNode_addNode]
    · rw [nodeNum_addArc, hvnum, hbignum]
    · exact fun i => (node_addArc v d.node _ _ i).trans (hvnode i)
    · intro i
      rw [edges_addArc v _ _ i (by omega), ← hadd, edges_addNode, edges_addNode, huedges, hunum]
  case pos_eq => exact fun n hn => extend_of_lt hn next
  case num_le =>
    show nodeNum m.tree ≤ nodeNum (SearchTree.addArc v d.node _ _).1
    rw [nodeNum_addArc, hvnum]
    exact Nat.le_succ _
  case root => exact (rootNode_addArc v d.node _ _).trans hvroot
  case rest => exact ⟨rfl, rfl, rfl⟩
  case visits =>
    intro n hn
    rw [node_addArc, hvnode]
    split
    · next heq => rw [hmove.visits, heq]
    · rw [node_addNode, if_neg (by omega)]
  case state => exact hnext.symm
  case move => exact ⟨move, hmove.legal, rfl⟩
  case child =>
    refine ⟨nodeNum m.tree, _, ?_, ?_, rfl, rfl⟩
    · show nodeNum m.tree < nodeNum (SearchTree.addArc v d.node _ _).1
      rw [nodeNum_addArc, hvnum]
      exact Nat.lt_succ_self _
    · rw [extend_new]
      exact congrArg G.position hnext.symm

end Drawn

/-- A move of an open position is tried: its state is found in the table
or gets a node. -/
theorem expand_tried (hG : G.Lawful s₀) (hcol : G.NoCollision s₀)
    (h : TreeInv s₀ m.tree m.transpositionTable pos) (hs : G.Played s₀ s)
    (hd : DescentInv m pos s d) (hsome : m.hasUntriedMoves G d.node = true) :
    ∃ pos', Tried s₀ m pos s d (m.expand G d).1 (m.expand G d).2 pos' := by
  obtain ⟨move, data, ω, next, hmove⟩ := hd.exists_drawn hG h hs hsome
  cases hfind : m.transpositionTable.find (G.zobrist next) with
  | some k => exact ⟨pos, expand_found h hd hmove hcol hfind⟩
  | none => exact ⟨extend m.tree pos next, expand_new h hd hmove hG hfind⟩

omit [LawfulSearchTree τ] in
/-- Without a move to try nothing happens. -/
theorem expand_none (hnone : m.hasUntriedMoves G d.node = false) : m.expand G d = (m, d) := by
  unfold Mcts.expand
  rw [hnone]
  rfl

-- ============================================================ playouts

/-- Two trees that differ in visits and scores only. -/
structure SameShape (t t' : τ) : Prop where
  root : rootNode t' = rootNode t
  num : nodeNum t' = nodeNum t
  edges : ∀ i, edges t' i = edges t i
  node : ∀ i, i < nodeNum t → (node t' i : NodeData G).moves = (node t i : NodeData G).moves
    ∧ (SearchTree.node t' i : NodeData G).playerJustMoved
      = (SearchTree.node t i : NodeData G).playerJustMoved

omit [LawfulSearchTree τ] in
theorem SameShape.refl (t : τ) : SameShape (G := G) t t :=
  ⟨rfl, rfl, fun _ => rfl, fun _ _ => ⟨rfl, rfl⟩⟩

omit [LawfulSearchTree τ] in
theorem SameShape.trans {t t' t'' : τ} (h : SameShape (G := G) t t')
    (h' : SameShape (G := G) t' t'') : SameShape (G := G) t t'' :=
  ⟨h'.root.trans h.root, h'.num.trans h.num, fun i => (h'.edges i).trans (h.edges i),
    fun i hi => ⟨(h'.node i (h.num ▸ hi)).1.trans (h.node i hi).1,
      (h'.node i (h.num ▸ hi)).2.trans (h.node i hi).2⟩⟩

omit [LawfulSearchTree τ] in
theorem TreeInv.of_sameShape {t t' : τ} {T : TranspositionTable} (h : TreeInv s₀ t T pos)
    (hsame : SameShape (G := G) t t') : TreeInv s₀ t' T pos :=
  h.keep_moves (hsame.root ▸ h.root_lt) hsame.num hsame.edges hsame.node

/-- The entries a node has on a path. -/
def entries (path : List Link) (n : Nat) : Nat := (path.map Link.target).count (some n)

/-- Every link of the path has a node of the tree at its end. -/
def Valid (t : τ) (path : List Link) : Prop :=
  ∀ l ∈ path, ∃ n, l.target = some n ∧ n < nodeNum t

/-- Backing up along a path: a visit for every entry. -/
theorem backup_spec (sim : G.State) :
    ∀ {path : List Link} {t : τ}, Valid t path →
      ∃ t', path.foldlM (Mcts.updateData G sim) t = some t' ∧ SameShape (G := G) t t'
        ∧ ∀ n, n < nodeNum t → (node t' n : NodeData G).visits
            = (node t n : NodeData G).visits + entries path n := by
  intro path
  induction path with
  | nil =>
      intro t _
      exact ⟨t, rfl, .refl t, fun n _ => by simp [entries]⟩
  | cons l path ih =>
      intro t hvalid
      obtain ⟨k, hk, hlt⟩ := hvalid l (List.mem_cons_self ..)
      let data : NodeData G := node t k
      obtain ⟨t₁, ht₁⟩ : ∃ t₁ : τ, t₁ = SearchTree.setNode t k { data with
          visits := data.visits + 1
          score := data.score + Float32.ofInt (G.result sim data.playerJustMoved) } := ⟨_, rfl⟩
      have hupdate : Mcts.updateData G sim t l = some t₁ := by
        unfold Mcts.updateData
        rw [hk, ht₁]
        rfl
      obtain ⟨hnum, hroot, hnode, hedges⟩ := setNode_spec hlt ht₁.symm
      have hshape : SameShape (G := G) t t₁ := by
        refine ⟨hroot, hnum, hedges, fun i _ => ?_⟩
        rw [hnode]
        split
        · next heq => rw [heq]; exact ⟨rfl, rfl⟩
        · exact ⟨rfl, rfl⟩
      obtain ⟨t', hrun, hshape', hvisits⟩ := ih (t := t₁) fun l' hl' => by
        rw [hnum]
        exact hvalid l' (List.mem_cons_of_mem _ hl')
      refine ⟨t', ?_, hshape.trans hshape', fun n hn => ?_⟩
      · rw [List.foldlM_cons, hupdate]
        exact hrun
      · rw [hvisits n (hnum ▸ hn), hnode]
        unfold entries
        rw [List.map_cons, hk, List.count_cons]
        by_cases heq : n = k
        · subst heq
          rw [if_pos rfl, if_pos (beq_self_eq_true _)]
          push_cast
          simp only [data]
          ring
        · rw [if_neg heq, if_neg (by simpa using Ne.symm heq), Nat.add_zero]

/-- What one playout does to the tree, and what it backs up. -/
structure PlayoutSpec (path : List Link) (leaf : G.State) (p : Playout τ G) : Prop where
  simulated : ∃ fuel ω ω', G.simulate fuel leaf ω = some (p.simState, ω')
  shape : SameShape (G := G) p.before p.after
  visits : ∀ n, n < nodeNum p.before → (node p.after n : NodeData G).visits
    = (node p.before n : NodeData G).visits + entries path n

theorem playout_spec {fuel : Nat} {path : List Link} {leaf : G.State} {t : τ} {ω : Rng}
    (hvalid : Valid t path) {x : Playout τ G × Rng}
    (hrun : Mcts.playout G fuel path leaf t ω = some x) :
    x.1.before = t ∧ PlayoutSpec path leaf x.1 := by
  unfold Mcts.playout at hrun
  obtain ⟨sim, hsim, hmap⟩ := Option.bind_eq_some_iff.mp hrun
  obtain ⟨t', hback, rfl⟩ := Option.map_eq_some_iff.mp hmap
  obtain ⟨t'', hback', hshape, hvisits⟩ := backup_spec sim.1 hvalid
  obtain rfl := Option.some.inj (hback.symm.trans hback')
  exact ⟨rfl, ⟨fuel, ω, sim.2, hsim⟩, hshape, hvisits⟩

/-- Some playouts in a row. -/
theorem playouts_spec {fuel : Nat} {path : List Link} {leaf : G.State} :
    ∀ {count : Nat} {t : τ} {ω : Rng} {x : List (Playout τ G) × τ × Rng}, Valid t path →
      Mcts.playouts G fuel path leaf count t ω = some x →
        x.1.length = count ∧ SameShape (G := G) t x.2.1
          ∧ (∀ p ∈ x.1, PlayoutSpec path leaf p ∧ nodeNum p.before = nodeNum t)
          ∧ ∀ n, n < nodeNum t → (node x.2.1 n : NodeData G).visits
              = (node t n : NodeData G).visits + count * entries path n := by
  intro count
  induction count with
  | zero =>
      intro t ω x _ hrun
      obtain rfl := Option.some.inj hrun
      exact ⟨rfl, .refl t, by simp, by simp⟩
  | succ count ih =>
      intro t ω x hvalid hrun
      rw [Mcts.playouts] at hrun
      obtain ⟨first, hfirst, hmap⟩ := Option.bind_eq_some_iff.mp hrun
      obtain ⟨others, hothers, rfl⟩ := Option.map_eq_some_iff.mp hmap
      obtain ⟨hbefore, hspec⟩ := playout_spec hvalid hfirst
      obtain ⟨hshape, hvisits⟩ := And.intro hspec.shape hspec.visits
      rw [hbefore] at hshape hvisits
      obtain ⟨hlen, hshape', hall, hvisits'⟩ := ih (t := first.1.after)
        (fun l hl => by rw [hshape.num]; exact hvalid l hl) hothers
      refine ⟨by simp [hlen], hshape.trans hshape', ?_, fun n hn => ?_⟩
      · intro p hp
        rcases List.mem_cons.mp hp with rfl | hp
        · exact ⟨hspec, by rw [hbefore]⟩
        · exact ⟨(hall p hp).1, (hall p hp).2.trans hshape.num⟩
      · rw [hvisits' n (hshape.num ▸ hn), hvisits n hn]
        push_cast
        ring

/-- Playouts come to an end. -/
theorem playouts_total (hG : G.Lawful s₀) {leaf : G.State} (hleaf : G.Mixed s₀ leaf) :
    ∃ bound, ∀ fuel, bound ≤ fuel → ∀ (path : List Link) (count : Nat) (t : τ) (ω : Rng),
      Valid t path → ∃ x, Mcts.playouts G fuel path leaf count t ω = some x := by
  obtain ⟨bound, hsim⟩ := hG.simulate_total hleaf
  refine ⟨bound, fun fuel hfuel path count => ?_⟩
  induction count with
  | zero => exact fun t ω _ => ⟨_, rfl⟩
  | succ count ih =>
      intro t ω hvalid
      obtain ⟨sim, hsim⟩ := hsim fuel hfuel ω
      obtain ⟨t', hback, hshape, -⟩ := backup_spec sim.1 hvalid
      have hplayout : Mcts.playout G fuel path leaf t ω = some (⟨t, sim.1, t'⟩, sim.2) := by
        unfold Mcts.playout
        rw [hsim, Option.bind_some, hback]
        rfl
      obtain ⟨x, hx⟩ := ih t' sim.2 fun l hl => by rw [hshape.num]; exact hvalid l hl
      rw [Mcts.playouts, hplayout, Option.bind_some, hx]
      exact ⟨_, rfl⟩

omit [LawfulSearchTree τ] in
/-- More fuel does not change playouts. -/
theorem playouts_mono {fuel fuel' : Nat} (hle : fuel ≤ fuel') {path : List Link} {leaf : G.State} :
    ∀ {count : Nat} {t : τ} {ω : Rng} {x : List (Playout τ G) × τ × Rng},
      Mcts.playouts G fuel path leaf count t ω = some x →
        Mcts.playouts G fuel' path leaf count t ω = some x := by
  intro count
  induction count with
  | zero => exact fun hrun => hrun
  | succ count ih =>
      intro t ω x hrun
      rw [Mcts.playouts] at hrun ⊢
      obtain ⟨first, hfirst, hmap⟩ := Option.bind_eq_some_iff.mp hrun
      obtain ⟨others, hothers, rfl⟩ := Option.map_eq_some_iff.mp hmap
      unfold Mcts.playout at hfirst ⊢
      obtain ⟨sim, hsim, hback⟩ := Option.bind_eq_some_iff.mp hfirst
      rw [Game.simulate_mono hle hsim, Option.bind_some, hback, Option.bind_some, ih hothers]
      rfl

-- ========================================================== iteration

/-- What one iteration does. -/
structure TurnSpec (s₀ : G.State) (μ : G.State → Nat) (m : Mcts τ) (pos : Nat → G.State)
    (s : G.State) (ω : Rng) (turn : Turn τ G) (pos' : Nat → G.State) : Prop where
  tree : TreeInv s₀ turn.mcts.tree turn.mcts.transpositionTable pos'
  pos_eq : ∀ n, n < nodeNum m.tree → pos' n = pos n
  num_le : nodeNum m.tree ≤ nodeNum turn.mcts.tree
  root : rootNode turn.mcts.tree = rootNode m.tree
  rest : turn.mcts.path = m.path ∧ turn.mcts.pathSize = m.pathSize
    ∧ turn.mcts.notInitialized = m.notInitialized
  line : G.LegalLine s turn.line
  trail : ∃ n ns, Trail μ turn.mcts.tree pos' s n ns ∧ OnPath m turn.path ns
  stop : ∃ n, StopsAt m.tree (rootNode m.tree) ω n ∧
    (m.hasUntriedMoves G n = true ∧ turn.leaf = G.play s turn.line
      ∨ m.hasUntriedMoves G n = false ∧ turn.leaf = turn.line.foldl G.moveHash s
        ∧ G.legal (G.play s turn.line) = [])
  length : turn.playouts.length = 3
  playouts : ∀ p ∈ turn.playouts, PlayoutSpec turn.path turn.leaf p
    ∧ nodeNum p.before = nodeNum turn.mcts.tree
  visits : ∀ n, n < nodeNum m.tree → (node turn.mcts.tree n : NodeData G).visits
    = (node m.tree n : NodeData G).visits + 3 * entries turn.path n

omit [LawfulSearchTree τ] in
/-- A valid path stays valid along a trail. -/
theorem Trail.valid {t : τ} {n : Nat} {ns : List Nat} (htrail : Trail μ t pos s n ns)
    {path : List Link} (hpath : OnPath m path ns) (hvalid : Valid t m.path) : Valid t path := by
  obtain ⟨links, rfl, htargets⟩ := hpath
  refine List.forall_mem_append.mpr ⟨hvalid, fun l hl => ?_⟩
  have hmem : l.target ∈ ns.map some := htargets ▸ List.mem_map.mpr ⟨l, hl, rfl⟩
  obtain ⟨k, hk, heq⟩ := List.mem_map.mp hmem
  exact ⟨k, heq.symm, htrail.lt k hk⟩

omit [LawfulSearchTree τ] in
/-- More fuel does not change an iteration. -/
theorem iteration_mono {fuel fuel' : Nat} (hle : fuel ≤ fuel') {ω : Rng} {turn : Turn τ G}
    (hrun : m.iteration G fuel s ω = some turn) : m.iteration G fuel' s ω = some turn := by
  unfold Mcts.iteration at hrun ⊢
  obtain ⟨d, hd, hmap⟩ := Option.bind_eq_some_iff.mp hrun
  obtain ⟨x, hx, rfl⟩ := Option.map_eq_some_iff.mp hmap
  have hd' : m.descend G fuel' s ω = some d := Loops.whileLoop_mono hle hd
  rw [hd', Option.bind_some]
  simp only [playouts_mono hle hx, Option.map_some]

section Iteration

variable (hG : G.Lawful s₀) (hcol : G.NoCollision s₀) (hμ : IsMeasure s₀ μ)
  (h : TreeInv s₀ m.tree m.transpositionTable pos) (hs : G.Played s₀ s)
  (hroot : G.position (pos (rootNode m.tree)) = G.position s)

omit [LawfulSearchTree τ] in
include hG hμ h hs in
/-- The trail after a move has been tried. -/
theorem Tried.trail {m' : Mcts τ} {d' : Descent G} {pos' : Nat → G.State}
    (ht : Tried s₀ m pos s d m' d' pos') (hd : DescentInv m pos s d) {ns : List Nat}
    (htrail : Trail μ m.tree pos s d.node ns) (hpath : OnPath m d.path ns) :
    G.LegalLine s d'.line
      ∧ ∃ k ns', Trail μ m'.tree pos' s k ns' ∧ OnPath m d'.path ns' := by
  obtain ⟨move, hlegal, hmove⟩ := ht.move
  obtain ⟨k, link, hk, hpos, hpath', hlink⟩ := ht.child
  have hline := hG.legalLine_concat hs hd.line hlegal
  rw [← hmove] at hline
  have hrootlt := h.root_lt
  -- the measure of the child, through the line that leads to it
  have hless : μ (pos' k) < μ (pos' d.node) := by
    rw [ht.pos_eq _ hd.node_lt, hμ.congr (ht.tree.played hk) (hs.play hline) hpos,
      hμ.congr (h.played hd.node_lt) (hs.play hd.line) hd.position, hmove, Game.play_concat]
    exact hμ.decreases (hs.play hd.line).mixed .moveHashWinner hlegal
  have hold : Trail μ m'.tree pos' s d.node ns := by
    have hnum := ht.num_le
    have heq : ∀ i ∈ ns, pos' i = pos i := fun i hi => ht.pos_eq i (htrail.lt i hi)
    refine ⟨fun i hi => (htrail.lt i hi).trans_le hnum, fun i hi => ?_, fun i hi => ?_, ?_,
      htrail.nodup, fun i hi => ?_⟩
    · rw [heq i hi, ht.pos_eq _ hd.node_lt]
      exact htrail.above i hi
    · rw [heq i hi, ht.root, ht.pos_eq _ hrootlt]
      exact htrail.below i hi
    · rw [ht.root, ht.pos_eq _ hrootlt, ht.pos_eq _ hd.node_lt]
      exact htrail.last
    · rw [heq i hi]
      exact htrail.playable i hi
  exact ⟨hline, k, ns ++ [k], hold.concat hk hless hline hpos, hpath' ▸ hpath.concat hlink⟩

include hG hcol hμ h hs hroot

/-- What an iteration that returns has done. -/
theorem iteration_spec (hlen : m.path.length = m.pathSize) (hvalid : Valid m.tree m.path)
    {fuel : Nat} {ω : Rng} {turn : Turn τ G} (hrun : m.iteration G fuel s ω = some turn) :
    ∃ pos', TurnSpec s₀ μ m pos s ω turn pos' := by
  unfold Mcts.iteration at hrun
  obtain ⟨d, hdescend, hrest⟩ := Option.bind_eq_some_iff.mp hrun
  obtain ⟨hd, ⟨ns, htrail, hpath⟩, hstop, hstops⟩ := descend_spec hG hμ h hs hroot hdescend
  obtain ⟨x, hx, rfl⟩ := Option.map_eq_some_iff.mp hrest
  -- what both cases share, once the tree after the expansion is known
  have hfinish : ∀ {pos' : Nat → G.State} {n : Nat} {ns' : List Nat},
      TreeInv s₀ (m.expand G d).1.tree (m.expand G d).1.transpositionTable pos' →
      nodeNum m.tree ≤ nodeNum (m.expand G d).1.tree →
      Trail μ (m.expand G d).1.tree pos' s n ns' → OnPath m (m.expand G d).2.path ns' →
      TreeInv s₀ x.2.1 (m.expand G d).1.transpositionTable pos'
        ∧ x.1.length = 3 ∧ SameShape (G := G) (m.expand G d).1.tree x.2.1
        ∧ (∀ p ∈ x.1, PlayoutSpec (m.expand G d).2.path (m.expand G d).2.state p
          ∧ nodeNum p.before = nodeNum x.2.1)
        ∧ Trail μ x.2.1 pos' s n ns'
        ∧ (∀ i, i < nodeNum (m.expand G d).1.tree → (node x.2.1 i : NodeData G).visits
            = (node (m.expand G d).1.tree i : NodeData G).visits
              + 3 * entries (m.expand G d).2.path i)
        ∧ List.takeD m.pathSize (m.expand G d).2.path default = m.path := by
    intro pos' n ns' htree hnum htrail' hpath'
    have hvalid' : Valid (m.expand G d).1.tree m.path := fun l hl => by
      obtain ⟨k, hk, hlt⟩ := hvalid l hl
      exact ⟨k, hk, by omega⟩
    obtain ⟨hlength, hshape, hall, hvisits⟩ :=
      playouts_spec (htrail'.valid hpath' hvalid') hx
    refine ⟨htree.of_sameShape hshape, hlength, hshape, fun p hp => ?_, ?_, hvisits, ?_⟩
    · exact ⟨(hall p hp).1, (hall p hp).2.trans hshape.num.symm⟩
    · exact ⟨hshape.num ▸ htrail'.lt, htrail'.above, hshape.root ▸ htrail'.below,
        hshape.root ▸ htrail'.last, htrail'.nodup, htrail'.playable⟩
    · obtain ⟨links, heq, -⟩ := hpath'
      rw [heq, List.takeD_eq_take _ (by rw [List.length_append]; omega), ← hlen, List.take_left]
  cases hsome : m.hasUntriedMoves G d.node with
  | true =>
      obtain ⟨pos', ht⟩ := expand_tried hG hcol h hs hd hsome
      obtain ⟨hline, n, ns', htrail', hpath'⟩ := ht.trail hG hμ h hs hd htrail hpath
      obtain ⟨htree, hlength, hshape, hall, htrail'', hvisits, htake⟩ :=
        hfinish ht.tree ht.num_le htrail' hpath'
      refine ⟨pos', htree, ht.pos_eq, ht.num_le.trans hshape.num.ge, hshape.root.trans ht.root,
        ⟨?_, ht.rest.2.1, ht.rest.2.2⟩, hline, ⟨n, ns', htrail'', hpath'⟩,
        ⟨d.node, hstops, Or.inl ⟨hsome, ht.state⟩⟩, hlength, hall, fun i hi => ?_⟩
      · rw [ht.rest.2.1]
        exact htake
      · rw [hvisits i (hi.trans_le ht.num_le), ht.visits i hi]
  | false =>
      have hsame := expand_none (G := G) hsome
      have hnomoves : (node m.tree d.node : NodeData G).moves = none :=
        Option.isSome_eq_false_iff.mp hsome |> Option.isNone_iff_eq_none.mp
      have hleaf : isInternal m.tree d.node = false := by
        by_contra hne
        exact hstop ⟨hnomoves, by simpa using hne⟩
      have hover : G.legal (G.play s d.line) = [] :=
        (h.legal_eq_nil hd.node_lt hleaf hnomoves ▸ hd.legal_perm hG h hs).nil_eq.symm
      rw [hsame] at hfinish ⊢
      obtain ⟨htree, hlength, hshape, hall, htrail', hvisits, htake⟩ :=
        hfinish h le_rfl htrail hpath
      exact ⟨pos, htree, fun _ _ => rfl, hshape.num.ge, hshape.root, ⟨htake, rfl, rfl⟩, hd.line,
        ⟨_, ns, htrail', hpath⟩, ⟨d.node, hstops, Or.inr ⟨hsome, hd.state, hover⟩⟩, hlength, hall,
        hvisits⟩

/-- An iteration with a valid path returns. -/
theorem iteration_total (hvalid : Valid m.tree m.path) (ω : Rng) :
    ∃ fuel turn, m.iteration G fuel s ω = some turn := by
  obtain ⟨bound, hdescend⟩ := descend_total hG hμ h hs hroot
  obtain ⟨d, hd⟩ := hdescend bound le_rfl ω
  obtain ⟨hdinv, ⟨ns, htrail, hpath⟩, -, -⟩ := descend_spec hG hμ h hs hroot hd
  obtain ⟨hleaf, hvalid'⟩ : G.Mixed s₀ (m.expand G d).2.state
      ∧ Valid (m.expand G d).1.tree (m.expand G d).2.path := by
    cases hsome : m.hasUntriedMoves G d.node with
    | true =>
        obtain ⟨pos', ht⟩ := expand_tried hG hcol h hs hdinv hsome
        obtain ⟨hline, n, ns', htrail', hpath'⟩ := ht.trail hG hμ h hs hdinv htrail hpath
        refine ⟨?_, htrail'.valid hpath' fun l hl => ?_⟩
        · rw [ht.state]
          exact (hs.play hline).mixed
        · obtain ⟨k, hk, hlt⟩ := hvalid l hl
          exact ⟨k, hk, hlt.trans_le ht.num_le⟩
    | false =>
        rw [expand_none hsome, hdinv.state]
        exact ⟨hG.hashLine_mixed hs hdinv.line, htrail.valid hpath hvalid⟩
  obtain ⟨bound', hplayouts⟩ := playouts_total (τ := τ) hG hleaf
  obtain ⟨d', hd'⟩ := hdescend (max bound bound') (le_max_left ..) ω
  -- more fuel does not change where the selection stops
  have hsame : d' = d := Option.some.inj
    (hd'.symm.trans (Loops.whileLoop_mono (le_max_left bound bound') hd))
  subst hsame
  obtain ⟨x, hx⟩ := hplayouts (max bound bound') (le_max_right ..) (m.expand G d').2.path 3
    (m.expand G d').1.tree (m.expand G d').2.rng hvalid'
  refine ⟨max bound bound', Option.ne_none_iff_exists'.mp ?_⟩
  unfold Mcts.iteration
  rw [hd', Option.bind_some]
  simp only [hx, Option.map_some]
  exact Option.some_ne_none _

end Iteration

end MctsConnectFour
