/-
The invariant of the search tree.

`TreeInv` reads a tree and its table as a set of positions: node `n`
stands for the state `pos n`, the table finds `n` under the hash of
`pos n` and finds nothing else, an arc makes a move that leads from the
position of its source to that of its target, and the moves on the
out-arcs of a node and its untried ones are together the listed moves of
its position.

The invariant looks at a tree through `nodeNum`, `rootNode`, `node` and
`edges` only, so each way of changing a tree is one lemma about these:
a node added (`TreeInv.addNode`), a move of a node tried
(`TreeInv.try_move`), data that keeps its moves (`TreeInv.keep_moves`).
-/
import MctsConnectFour.Games
import MctsConnectFour.Mcts.Basic

namespace MctsConnectFour

open SearchTree LawfulSearchTree

variable {G : Game}

-- ================================================================ nodes

namespace NodeData

/-- A node has no container rather than an empty one. -/
def Stocked (d : NodeData G) : Prop :=
  ∀ c, d.moves = some c → 0 < c.size ∧ c.size ≤ G.maxNoMoves

/-- `m_moves` is null exactly when nothing is left to try. -/
theorem Stocked.moves_eq_none_iff {d : NodeData G} (h : d.Stocked) :
    d.moves = none ↔ d.untried = [] := by
  unfold untried
  cases hd : d.moves with
  | none => exact iff_of_true rfl rfl
  | some c =>
      obtain ⟨hpos, hle⟩ := h c hd
      refine iff_of_false (Option.some_ne_none c) fun hnil => ?_
      have hlen := Moves.length_toList hle
      rw [show c.toList = [] from hnil, List.length_nil] at hlen
      omega

/-- `getUntriedMove ( )` takes out one untried move and touches nothing
else. -/
theorem Stocked.getUntriedMove {d : NodeData G} (h : d.Stocked) (hsome : d.moves.isSome = true)
    (ω : Rng) :
    ((d.getUntriedMove ω).1 :: (d.getUntriedMove ω).2.1.untried).Perm d.untried
      ∧ (d.getUntriedMove ω).2.1.Stocked
      ∧ (d.getUntriedMove ω).2.1 = { d with moves := (d.getUntriedMove ω).2.1.moves } := by
  obtain ⟨c, hc⟩ := Option.isSome_iff_exists.mp hsome
  obtain ⟨hpos, hle⟩ := h c hc
  unfold NodeData.getUntriedMove untried
  simp only [hc]
  by_cases hone : c.size = 1
  · simp only [hone, if_true]
    refine ⟨?_, fun c' hc' => ?_, trivial⟩
    · have hlen := Moves.length_toList hle
      obtain ⟨x, hx⟩ := List.length_eq_one_iff.mp (hlen.trans hone)
      have hfront : c.front = x := by
        unfold Moves.front
        rw [Moves.get_eq hle (by omega)]
        simp [hx]
      rw [hfront, hx]
    · cases hc'
  · simp only [hone, if_false]
    refine ⟨Moves.draw_perm hle hpos ω, fun c' hc' => ?_, trivial⟩
    obtain rfl := Option.some.inj hc'
    rw [Moves.size_draw]
    omega

variable {s₀ s : G.State}

/-- A new node has every listed move still to try. -/
theorem untried_ofState (hG : G.Lawful s₀) (hs : G.Mixed s₀ s) :
    (ofState s).untried = G.legal s := by
  unfold ofState untried
  by_cases hmore : (G.moves s .new).1 = true
  · simp only [hmore, if_true]
    exact (hG.moves_toList hs .new hmore).1
  · have hnil := mt (hG.moves_iff hs .new).mpr hmore
    simp only [hmore]
    exact (not_not.mp hnil).symm

theorem stocked_ofState (hG : G.Lawful s₀) (hs : G.Mixed s₀ s) : (ofState s).Stocked := by
  intro c hc
  unfold ofState at hc
  by_cases hmore : (G.moves s .new).1 = true
  · simp only [hmore, if_true] at hc
    obtain rfl := Option.some.inj hc
    obtain ⟨hlist, hsize⟩ := hG.moves_toList hs .new hmore
    refine ⟨?_, hsize⟩
    rw [← Moves.length_toList hsize, hlist]
    exact List.length_pos_iff.mpr ((hG.moves_iff hs .new).mp hmore)
  · simp only [hmore] at hc
    cases hc

end NodeData

-- ======================================================== the invariant

variable {τ : Type} [SearchTree τ (ArcData G) (NodeData G)]

/-- The moves on the out-arcs of a node, in order. -/
def triedMoves (t : τ) (n : Nat) : List G.Move := (edges t n).map fun e => e.1.move

/-- The search-tree invariant of a tree and its table, with the positions
the nodes stand for. -/
structure TreeInv (s₀ : G.State) (t : τ) (T : TranspositionTable) (pos : Nat → G.State) :
    Prop where
  root_lt : rootNode t < nodeNum t
  played : ∀ {n}, n < nodeNum t → G.Played s₀ (pos n)
  find_iff : ∀ {h n}, T.find h = some n ↔ n < nodeNum t ∧ G.zobrist (pos n) = h
  player : ∀ {n}, n < nodeNum t →
    (node t n : NodeData G).playerJustMoved = G.playerJustMoved (pos n)
  target_lt : ∀ {n e}, n < nodeNum t → e ∈ edges t n → e.2 < nodeNum t
  leads : ∀ {n e}, n < nodeNum t → e ∈ edges t n →
    G.position (G.moveHashWinner (pos n) e.1.move) = G.position (pos e.2)
  moves : ∀ {n}, n < nodeNum t →
    (triedMoves t n ++ (node t n : NodeData G).untried).Perm (G.legal (pos n))
  stocked : ∀ {n}, n < nodeNum t → (node t n : NodeData G).Stocked

variable {s₀ : G.State} {t t' : τ} {T : TranspositionTable} {pos : Nat → G.State} {n k : Nat}

/-- The table is a bijection between its hashes and the nodes. -/
theorem TreeInv.bijective (h : TreeInv s₀ t T pos) : T.Bijective (nodeNum t) where
  lt _ _ hfind := (h.find_iff.mp hfind).1
  inj _ _ _ hfind hfind' := (h.find_iff.mp hfind).2.symm.trans (h.find_iff.mp hfind').2
  surj n hn := ⟨G.zobrist (pos n), h.find_iff.mpr ⟨hn, rfl⟩⟩

theorem TreeInv.find (h : TreeInv s₀ t T pos) (hn : n < nodeNum t) :
    T.find (G.zobrist (pos n)) = some n := h.find_iff.mpr ⟨hn, rfl⟩

/-- A move on an arc is listed in the position of its source. -/
theorem TreeInv.tried_legal (h : TreeInv s₀ t T pos) (hn : n < nodeNum t) {e : ArcData G × Nat}
    (he : e ∈ edges t n) : e.1.move ∈ G.legal (pos n) :=
  (h.moves hn).mem_iff.mp (List.mem_append_left _ (List.mem_map.mpr ⟨e, he, rfl⟩))

theorem TreeInv.untried_legal (h : TreeInv s₀ t T pos) (hn : n < nodeNum t) {m : G.Move}
    (hm : m ∈ (node t n : NodeData G).untried) : m ∈ G.legal (pos n) :=
  (h.moves hn).mem_iff.mp (List.mem_append_right _ hm)

/-- A node without children and untried moves stands for a position
without moves. -/
theorem TreeInv.legal_eq_nil (h : TreeInv s₀ t T pos) (hn : n < nodeNum t)
    (hleaf : isInternal t n = false) (hnone : (node t n : NodeData G).moves = none) :
    G.legal (pos n) = [] := by
  have hedges : edges t n = [] := by
    by_contra hne
    rw [(isInternal_iff t n).mpr hne] at hleaf
    cases hleaf
  have hperm := h.moves hn
  rw [triedMoves, hedges, ((h.stocked hn).moves_eq_none_iff).mp hnone] at hperm
  exact hperm.nil_eq.symm

/-- The node of a position. -/
theorem TreeInv.find_of_position (hG : G.Lawful s₀) (h : TreeInv s₀ t T pos) (hn : n < nodeNum t)
    {s : G.State} (hs : G.Played s₀ s) (hpos : G.position (pos n) = G.position s) :
    T.find (G.zobrist s) = some n := by
  rw [← hG.zobrist_eq (h.played hn) hs hpos]
  exact h.find hn

/-- The position of a node that is found. -/
theorem TreeInv.position_of_find (hcol : G.NoCollision s₀) (h : TreeInv s₀ t T pos) {s : G.State}
    (hs : G.Played s₀ s) (hfind : T.find (G.zobrist s) = some n) :
    n < nodeNum t ∧ G.position (pos n) = G.position s := by
  obtain ⟨hn, hhash⟩ := h.find_iff.mp hfind
  exact ⟨hn, hcol (h.played hn) hs hhash⟩

-- ====================================================== changing a tree

/-- Data may change as long as the moves and the player stay. -/
theorem TreeInv.keep_moves (h : TreeInv s₀ t T pos) (hroot : rootNode t' < nodeNum t)
    (hnum : nodeNum t' = nodeNum t) (hedges : ∀ i, edges t' i = edges t i)
    (hnode : ∀ i, i < nodeNum t → (node t' i : NodeData G).moves = (node t i : NodeData G).moves
      ∧ (node t' i : NodeData G).playerJustMoved = (node t i : NodeData G).playerJustMoved) :
    TreeInv s₀ t' T pos where
  root_lt := hnum ▸ hroot
  played hn := h.played (hnum ▸ hn)
  find_iff := by
    intro hash n
    rw [hnum]
    exact h.find_iff
  player {n} hn := by
    rw [hnum] at hn
    rw [(hnode n hn).2, h.player hn]
  target_lt hn he := by
    rw [hnum] at hn ⊢
    exact h.target_lt hn (hedges _ ▸ he)
  leads hn he := h.leads (hnum ▸ hn) (hedges _ ▸ he)
  moves {n} hn := by
    rw [hnum] at hn
    have hmoves := h.moves hn
    unfold triedMoves NodeData.untried at hmoves ⊢
    rwa [hedges, (hnode n hn).1]
  stocked {n} hn := by
    rw [hnum] at hn
    have hstocked := h.stocked hn
    unfold NodeData.Stocked at hstocked ⊢
    rwa [(hnode n hn).1]

/-- A move of `n` is tried: it leaves the untried ones and goes on an
arc to `k`. -/
theorem TreeInv.try_move (h : TreeInv s₀ t T pos) (hn : n < nodeNum t) (hk : k < nodeNum t)
    {m : G.Move} {d : NodeData G} (hm : (m :: d.untried).Perm (node t n : NodeData G).untried)
    (hd : d.Stocked) (hplayer : d.playerJustMoved = (node t n : NodeData G).playerJustMoved)
    (hleads : G.position (G.moveHashWinner (pos n) m) = G.position (pos k))
    (hroot : rootNode t' = rootNode t) (hnum : nodeNum t' = nodeNum t)
    (hnode : ∀ i, node t' i = if i = n then d else node t i)
    (hedges : ∀ i, edges t' i = if i = n then edges t i ++ [(⟨m⟩, k)] else edges t i) :
    TreeInv s₀ t' T pos := by
  have hedge : ∀ {i e}, e ∈ edges t' i → e ∈ edges t i ∨ i = n ∧ e = (⟨m⟩, k) := by
    intro i e he
    rw [hedges] at he
    split at he
    · next hi =>
        rcases List.mem_append.mp he with he | he
        · exact Or.inl he
        · exact Or.inr ⟨hi, List.mem_singleton.mp he⟩
    · exact Or.inl he
  constructor
  case root_lt => rw [hroot, hnum]; exact h.root_lt
  case played => exact fun hi => h.played (hnum ▸ hi)
  case find_iff =>
    intro hash i
    rw [hnum]
    exact h.find_iff
  case player =>
    intro i hi
    rw [hnum] at hi
    rw [hnode]
    split
    · next heq => rw [hplayer, heq, h.player hn]
    · exact h.player hi
  case target_lt =>
    intro i e hi he
    rw [hnum] at hi ⊢
    rcases hedge he with he | ⟨-, rfl⟩
    · exact h.target_lt hi he
    · exact hk
  case leads =>
    intro i e hi he
    rw [hnum] at hi
    rcases hedge he with he | ⟨rfl, rfl⟩
    · exact h.leads hi he
    · exact hleads
  case moves =>
    intro i hi
    rw [hnum] at hi
    refine List.Perm.trans ?_ (h.moves hi)
    unfold triedMoves
    rw [hnode, hedges]
    split
    · next heq =>
        subst heq
        rw [List.map_append, List.append_assoc]
        exact hm.append_left _
    · exact List.Perm.refl _
  case stocked =>
    intro i hi
    rw [hnum] at hi
    rw [hnode]
    split
    · exact hd
    · exact h.stocked hi

variable [LawfulSearchTree τ]

theorem TreeInv.setRootNode (h : TreeInv s₀ t T pos) (hn : n < nodeNum t) :
    TreeInv s₀ (setRootNode t n) T pos := by
  refine h.keep_moves ?_ (nodeNum_setRootNode t n) (edges_setRootNode t n) fun i _ => ?_
  · rwa [rootNode_setRootNode t hn]
  · rw [node_setRootNode]
    exact ⟨rfl, rfl⟩

theorem TreeInv.setNode (h : TreeInv s₀ t T pos) (hn : n < nodeNum t) {d : NodeData G}
    (hmoves : d.moves = (node t n : NodeData G).moves)
    (hplayer : d.playerJustMoved = (node t n : NodeData G).playerJustMoved) :
    TreeInv s₀ (setNode t n d) T pos := by
  refine h.keep_moves ?_ (nodeNum_setNode t n d) (edges_setNode t n d) fun i _ => ?_
  · rw [rootNode_setNode]
    exact h.root_lt
  · rw [node_setNode t d i hn]
    split
    · next heq => rw [heq]; exact ⟨hmoves, hplayer⟩
    · exact ⟨rfl, rfl⟩

/-- The positions when a state gets a node. -/
def extend (t : τ) (pos : Nat → G.State) (s : G.State) : Nat → G.State :=
  fun i => if i = nodeNum t then s else pos i

omit [LawfulSearchTree τ] in
theorem extend_of_lt (hn : n < nodeNum t) (s : G.State) : extend t pos s n = pos n :=
  if_neg (Nat.ne_of_lt hn)

omit [LawfulSearchTree τ] in
theorem extend_new (t : τ) (pos : Nat → G.State) (s : G.State) :
    extend t pos s (nodeNum t) = s := if_pos rfl

/-- A state whose hash is new gets a node. -/
theorem TreeInv.addNode (hG : G.Lawful s₀) (h : TreeInv s₀ t T pos) {s : G.State}
    (hs : G.Played s₀ s) (hnew : T.find (G.zobrist s) = none) :
    TreeInv s₀ (addNode t (NodeData.ofState s)).1 (T.emplace (G.zobrist s) (nodeNum t))
      (extend t pos s) := by
  have hnum : nodeNum (SearchTree.addNode t (NodeData.ofState s)).1 = nodeNum t + 1 :=
    nodeNum_addNode t _
  have hnode : ∀ i, node (SearchTree.addNode t (NodeData.ofState s)).1 i
      = if i = nodeNum t then NodeData.ofState s else node t i := node_addNode t _
  have hedges : ∀ i, edges (SearchTree.addNode t (NodeData.ofState s)).1 i
      = if i = nodeNum t then [] else edges t i := edges_addNode t _
  have hedge : ∀ {i e}, e ∈ edges (SearchTree.addNode t (NodeData.ofState s)).1 i →
      i ≠ nodeNum t ∧ e ∈ edges t i := by
    intro i e he
    rw [hedges] at he
    split at he
    · cases he
    · next hne => exact ⟨hne, he⟩
  constructor
  case root_lt =>
    have hroot := h.root_lt
    rw [rootNode_addNode, hnum]
    omega
  case played =>
    intro i hi
    unfold extend
    split
    · exact hs
    · exact h.played (by omega)
  case find_iff =>
    intro hash i
    rw [TranspositionTable.find_emplace, hnum]
    by_cases hhash : hash = G.zobrist s
    · subst hhash
      rw [if_pos ⟨rfl, hnew⟩]
      constructor
      · intro heq
        obtain rfl := Option.some.inj heq
        exact ⟨Nat.lt_succ_self _, by rw [extend_new]⟩
      · intro h'
        obtain ⟨hi, heq⟩ := h'
        rcases Nat.lt_succ_iff_lt_or_eq.mp hi with hi | rfl
        · rw [extend_of_lt hi] at heq
          rw [h.find_iff.mpr ⟨hi, heq⟩] at hnew
          cases hnew
        · rfl
    · rw [if_neg fun hand => hhash hand.1, h.find_iff]
      constructor
      · intro h'
        obtain ⟨hi, heq⟩ := h'
        exact ⟨by omega, by rwa [extend_of_lt hi]⟩
      · intro h'
        obtain ⟨hi, heq⟩ := h'
        rcases Nat.lt_succ_iff_lt_or_eq.mp hi with hi | rfl
        · rw [extend_of_lt hi] at heq
          exact ⟨hi, heq⟩
        · rw [extend_new] at heq
          exact absurd heq.symm hhash
  case player =>
    intro i hi
    rw [hnode]
    unfold extend
    split
    · rfl
    · exact h.player (by omega)
  case target_lt =>
    intro i e hi he
    obtain ⟨hne, he⟩ := hedge he
    have hlt := h.target_lt (n := i) (by omega) he
    omega
  case leads =>
    intro i e hi he
    obtain ⟨hne, he⟩ := hedge he
    have hi' : i < nodeNum t := by omega
    rw [extend_of_lt hi', extend_of_lt (h.target_lt hi' he)]
    exact h.leads hi' he
  case moves =>
    intro i hi
    unfold triedMoves extend
    rw [hnode, hedges]
    split
    · rw [NodeData.untried_ofState hG hs.mixed]
      exact List.Perm.refl _
    · exact h.moves (by omega)
  case stocked =>
    intro i hi
    rw [hnode]
    split
    · exact NodeData.stocked_ofState hG hs.mixed
    · exact h.stocked (by omega)

/-- A tree that has just been initialised. -/
theorem treeInv_initializeRoot (hG : G.Lawful s₀) {s : G.State} (hs : G.Played s₀ s) :
    TreeInv s₀ (Mcts.initializeRoot G (Mcts.new : Mcts τ) s).tree
      (Mcts.initializeRoot G (Mcts.new : Mcts τ) s).transpositionTable fun _ => s := by
  have hzero : rootNode (new : τ) = 0 := rootNode_new
  generalize ht : (Mcts.initializeRoot G (Mcts.new : Mcts τ) s).tree = t
  have hone : OneNode t (NodeData.ofState s) := ht ▸ oneNode_setNode_new _
  have hnode : ∀ {n}, n < nodeNum t → node t n = NodeData.ofState s := fun hn => by
    rw [hone.eq_zero hn, hone.data]
  constructor
  case root_lt =>
    rw [hone.num, hone.root]
    exact Nat.one_pos
  case played => exact fun _ => hs
  case find_iff =>
    intro hash n
    show (TranspositionTable.new.emplace (G.zobrist s) (rootNode (new : τ))).find hash = some n ↔ _
    rw [hone.num, hzero, TranspositionTable.find_emplace, TranspositionTable.find_new,
      TranspositionTable.find_new]
    by_cases hhash : hash = G.zobrist s
    · rw [if_pos ⟨hhash, rfl⟩, Option.some.injEq]
      exact ⟨fun hn => ⟨by omega, hhash.symm⟩, fun hn => by omega⟩
    · rw [if_neg fun hand => hhash hand.1]
      exact iff_of_false (by simp) fun hand => hhash hand.2.symm
  case player =>
    intro n hn
    rw [hnode hn]
    rfl
  case target_lt =>
    intro n e _ he
    rw [hone.edges] at he
    cases he
  case leads =>
    intro n e _ he
    rw [hone.edges] at he
    cases he
  case moves =>
    intro n hn
    rw [hnode hn, triedMoves, hone.edges, NodeData.untried_ofState hG hs.mixed]
    exact List.Perm.refl _
  case stocked =>
    intro n hn
    rw [hnode hn]
    exact NodeData.stocked_ofState hG hs.mixed

-- ============================================================= examples

/-- A list implements the tree of the games on one cell. -/
abbrev OneCellTree : Type :=
  FlatTree (ArcData (ConnectFour.game ConnectFour.oneCell))
    (NodeData (ConnectFour.game ConnectFour.oneCell))

/-- A list implements the tree of the games on the default board. -/
abbrev DefaultTree : Type :=
  FlatTree (ArcData (ConnectFour.game ConnectFour.defaultKeys))
    (NodeData (ConnectFour.game ConnectFour.defaultKeys))

end MctsConnectFour
