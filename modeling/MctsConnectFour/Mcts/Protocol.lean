/-
The calls a program makes on one `Mcts` in the course of a game, and what
holds between any two steps of them.

`Reached` is the protocol of wmain: a first `compute` on a new `Mcts`,
and `prune` or `reset` with the same state before every later one. A
`compute` is taken apart into what it does before its loop, iterations
and what it does after, so a state reached in the `running` phase is an
iteration boundary. The states a game is searched in are states of games
from `s₀`; that each comes from the one before is not needed.

`reached_inv` is the one induction over runs of the protocol.
-/
import MctsConnectFour.Mcts.Iteration
import MctsConnectFour.Mcts.Prune

namespace MctsConnectFour

open SearchTree LawfulSearchTree

variable {G : Game} {τ : Type} [SearchTree τ (ArcData G) (NodeData G)]

-- ============================================================ protocol

/-- Where a run of the protocol is: between calls of `compute`, with the
state `prune` or `reset` have been given since the last one, or inside
`compute` with its state. -/
inductive Phase (G : Game) where
  | between (given : Option G.State)
  | running (s : G.State)

/-- `compute` may be called with `s`: on a new `Mcts`, or after `prune`
or `reset` with `s`. -/
def MayCompute (m : Mcts τ) (given : Option G.State) (s : G.State) : Prop :=
  given = some s ∨ given = none ∧ m.notInitialized = true

/-- The `Mcts` that occur, and in which phase. -/
inductive Reached (s₀ : G.State) : Mcts τ → Phase G → Prop
  | new : Reached s₀ .new (.between none)
  | prune {m m' : Mcts τ} {given : Option G.State} {s : G.State} {fuel : Nat} :
      Reached s₀ m (.between given) → G.Played s₀ s → m.prune G fuel s = some m' →
        Reached s₀ m' (.between (some s))
  | reset {m : Mcts τ} {given : Option G.State} {s : G.State} :
      Reached s₀ m (.between given) → G.Played s₀ s →
        Reached s₀ (m.reset G s) (.between (some s))
  | begin {m m' : Mcts τ} {given : Option G.State} {s : G.State} :
      Reached s₀ m (.between given) → MayCompute m given s → G.Played s₀ s →
        m.begin G s = some m' → Reached s₀ m' (.running s)
  | iterate {m : Mcts τ} {s : G.State} {fuel : Nat} {ω : Rng} {turn : Turn τ G} :
      Reached s₀ m (.running s) → m.iteration G fuel s ω = some turn →
        Reached s₀ turn.mcts (.running s)
  | finish {m : Mcts τ} {s : G.State} :
      Reached s₀ m (.running s) → Reached s₀ (m.getBestMove G).2 (.between none)

variable {s₀ s : G.State} {m m' : Mcts τ} {pos : Nat → G.State}

/-- The iterations of `compute` are steps of the protocol. -/
theorem Reached.iterations {fuel : Nat} :
    ∀ {maxIterations : Nat} {m : Mcts τ} {ω : Rng} {x : Mcts τ × Rng × List (Turn τ G)},
      Reached s₀ m (.running s) → m.iterations G fuel s maxIterations ω = some x →
        Reached s₀ x.1 (.running s) := by
  intro maxIterations
  induction maxIterations with
  | zero =>
      intro m ω x h hrun
      obtain rfl := Option.some.inj hrun
      exact h
  | succ maxIterations ih =>
      intro m ω x h hrun
      rw [Mcts.iterations] at hrun
      obtain ⟨turn, hturn, hmap⟩ := Option.bind_eq_some_iff.mp hrun
      obtain ⟨y, hy, rfl⟩ := Option.map_eq_some_iff.mp hmap
      exact (ih (h.iterate hturn) hy :)

/-- So is a whole `compute`. -/
theorem Reached.compute {given : Option G.State} (h : Reached s₀ m (.between given))
    (hmay : MayCompute m given s) (hs : G.Played s₀ s) {fuel maxIterations : Nat} {ω : Rng}
    {c : Computed τ G} (hrun : m.compute G fuel s maxIterations ω = some c) :
    Reached s₀ c.mcts (.between none) := by
  unfold Mcts.compute at hrun
  obtain ⟨m₁, hbegin, hmap⟩ := Option.bind_eq_some_iff.mp hrun
  obtain ⟨x, hx, rfl⟩ := Option.map_eq_some_iff.mp hmap
  exact ((h.begin hmay hs hbegin).iterations hx).finish

-- =========================================================== invariant

/-- The path has the length the program keeps, and links to nodes; the
last link may be the invalid one `getBestMove` leaves when there is no
move. -/
structure PathInv (m : Mcts τ) : Prop where
  length : m.path.length = m.pathSize
  links : ∃ init l, m.path = init ++ [l] ∧ Valid m.tree init
    ∧ ∀ n, l.target = some n → n < nodeNum m.tree

/-- What a phase knows of the root and the path. -/
def PhaseInv (s₀ : G.State) (m : Mcts τ) (pos : Nat → G.State) : Phase G → Prop
  | .between none => True
  | .between (some s) =>
      G.Played s₀ s ∧ G.position (pos (rootNode m.tree)) = G.position s
  | .running s =>
      G.Played s₀ s ∧ G.position (pos (rootNode m.tree)) = G.position s ∧ Valid m.tree m.path

/-- The invariant of an initialised `Mcts`. -/
structure MctsInv (s₀ : G.State) (m : Mcts τ) (pos : Nat → G.State) : Prop where
  initialized : m.notInitialized = false
  tree : TreeInv s₀ m.tree m.transpositionTable pos
  path : PathInv m

theorem PathInv.getLast? (h : PathInv m) : ∃ init l, m.path = init ++ [l] ∧ Valid m.tree init
    ∧ m.path.getLast? = some l := by
  obtain ⟨init, l, heq, hinit, -⟩ := h.links
  exact ⟨init, l, heq, hinit, by rw [heq, List.getLast?_concat]⟩

/-- When its last link is valid, so is the path. -/
theorem PathInv.valid (h : PathInv m) {n : Nat}
    (hlast : m.path.getLast?.bind Link.target = some n) : Valid m.tree m.path := by
  obtain ⟨init, l, heq, hinit, hl⟩ := h.links
  rw [heq, List.getLast?_concat, Option.bind_some] at hlast
  rw [heq]
  refine List.forall_mem_append.mpr ⟨hinit, fun l' hl' => ?_⟩
  rw [List.mem_singleton.mp hl']
  exact ⟨n, hlast, hl n hlast⟩

/-- A path of one link. -/
theorem pathInv_single {arc : Option Nat} {n : Nat} (hpath : m.path = [⟨arc, some n⟩])
    (hsize : m.pathSize = 1) (hn : n < nodeNum m.tree) : PathInv m ∧ Valid m.tree m.path := by
  refine ⟨⟨by rw [hpath, hsize]; rfl, [], ⟨arc, some n⟩, hpath, by simp [Valid], ?_⟩, ?_⟩
  · intro k hk
    rwa [← Option.some.inj hk]
  · rw [hpath]
    intro l hl
    rw [List.mem_singleton.mp hl]
    exact ⟨n, rfl, hn⟩

/-- A valid path gets another link. -/
theorem pathInv_concat {path : List Link} {size : Nat} (hlen : path.length = size)
    (hvalid : Valid m.tree path) {l : Link} (hpath : m.path = path ++ [l])
    (hsize : m.pathSize = size + 1) (hl : ∀ n, l.target = some n → n < nodeNum m.tree) :
    PathInv m :=
  ⟨by rw [hpath, hsize, List.length_append, hlen]; rfl, path, l, hpath, hvalid, hl⟩

variable [LawfulSearchTree τ]

section Steps

variable (hG : G.Lawful s₀) (hcol : G.NoCollision s₀)

include hG in
/-- A new `Mcts`, initialised. -/
theorem mctsInv_initializeRoot (hs : G.Played s₀ s) :
    MctsInv s₀ (Mcts.initializeRoot G (Mcts.new : Mcts τ) s) (fun _ => s)
      ∧ Valid (Mcts.initializeRoot G (Mcts.new : Mcts τ) s).tree
        (Mcts.initializeRoot G (Mcts.new : Mcts τ) s).path := by
  have htree := treeInv_initializeRoot (τ := τ) hG hs
  have hroot : rootNode (Mcts.initializeRoot G (Mcts.new : Mcts τ) s).tree
      = rootNode (Mcts.new : Mcts τ).tree := rootNode_setNode ..
  obtain ⟨hpath, hvalid⟩ := pathInv_single
    (m := Mcts.initializeRoot G (Mcts.new : Mcts τ) s) rfl rfl (hroot ▸ htree.root_lt)
  exact ⟨⟨rfl, htree, hpath⟩, hvalid⟩

omit [LawfulSearchTree τ] in
include hG in
/-- Before its loop, `compute` puts the root on the path: the state it is
given is in the table. -/
theorem MctsInv.connectStatesPath (h : MctsInv s₀ m pos) (hs : G.Played s₀ s)
    (hroot : G.position (pos (rootNode m.tree)) = G.position s)
    (hrun : m.connectStatesPath G s = some m') :
    (∃ link, m' = { m with path := m.path ++ [link], pathSize := m.pathSize + 1 }
      ∧ link.target = some (rootNode m.tree))
      ∧ MctsInv s₀ m' pos ∧ Valid m.tree m.path ∧ Valid m'.tree m'.path := by
  unfold Mcts.connectStatesPath at hrun
  obtain ⟨parent, hparent, rfl⟩ := Option.map_eq_some_iff.mp hrun
  have hfind : m.getNode (G.zobrist s) = some (rootNode m.tree) :=
    h.tree.find_of_position hG h.tree.root_lt hs hroot
  have hvalid := h.path.valid hparent
  simp only [hfind]
  have hvalid' : Valid m.tree (m.path ++ [link m.tree parent (rootNode m.tree)]) :=
    List.forall_mem_append.mpr ⟨hvalid, fun l hl => by
      rw [List.mem_singleton.mp hl]
      exact ⟨_, rfl, h.tree.root_lt⟩⟩
  refine ⟨⟨_, rfl, rfl⟩, ⟨h.initialized, h.tree, ?_⟩, hvalid, hvalid'⟩
  refine pathInv_concat h.path.length hvalid rfl rfl fun n hn => ?_
  rw [← Option.some.inj hn]
  exact h.tree.root_lt

omit [LawfulSearchTree τ] in
/-- On an `Mcts` that is initialised, that is all it does. -/
theorem begin_initialized (hinit : m.notInitialized = false) (s : G.State) :
    m.begin G s = m.connectStatesPath G s := by
  unfold Mcts.begin
  rw [hinit]
  rfl

omit [LawfulSearchTree τ] in
/-- A new one is initialised first. -/
theorem begin_new (s : G.State) :
    (Mcts.new : Mcts τ).begin G s = some (Mcts.initializeRoot G .new s) := rfl

omit [LawfulSearchTree τ] in
/-- An iteration keeps the invariants. -/
theorem MctsInv.iterate (h : MctsInv s₀ m pos)
    (hroot : G.position (pos (rootNode m.tree)) = G.position s) (hvalid : Valid m.tree m.path)
    {μ : G.State → Nat} {ω : Rng} {turn : Turn τ G} {pos' : Nat → G.State}
    (hturn : TurnSpec s₀ μ m pos s ω turn pos') :
    MctsInv s₀ turn.mcts pos'
      ∧ G.position (pos' (rootNode turn.mcts.tree)) = G.position s
      ∧ Valid turn.mcts.tree turn.mcts.path := by
  have hvalid' : Valid turn.mcts.tree turn.mcts.path := fun l hl => by
    obtain ⟨n, hn, hlt⟩ := hvalid l (hturn.rest.1 ▸ hl)
    exact ⟨n, hn, hlt.trans_le hturn.num_le⟩
  obtain ⟨init, l, hpath, -, hl⟩ := h.path.links
  refine ⟨⟨hturn.rest.2.2.trans h.initialized, hturn.tree, ?_⟩, ?_, hvalid'⟩
  · refine ⟨by rw [hturn.rest.1, hturn.rest.2.1, h.path.length], init, l,
      hturn.rest.1.trans hpath, fun l' hl' => hvalid' l' ?_,
      fun n hn => (hl n hn).trans_le hturn.num_le⟩
    rw [hturn.rest.1, hpath]
    exact List.mem_append_left _ hl'
  · rw [hturn.root, hturn.pos_eq _ h.tree.root_lt]
    exact hroot

omit [LawfulSearchTree τ] in
/-- The link `getBestMove` leaves is that of a child, if there is one. -/
theorem getBestMove_link
    (hout : ∀ a ∈ outArcs m.tree (rootNode m.tree), a.2 < nodeNum m.tree) : ∃ link, (m.getBestMove G).2 = { m with path := m.path ++ [link], pathSize := m.pathSize + 1 }
      ∧ ∀ n, link.target = some n → n < nodeNum m.tree := by
  have hfold : ∀ (l : List (Nat × Nat)) (best : Int × G.Move × Link),
      (∀ a ∈ l, a.2 < nodeNum m.tree) → (∀ n, best.2.2.target = some n → n < nodeNum m.tree) →
        ∀ n, (l.foldl (Mcts.mostVisits G m.tree) best).2.2.target = some n →
          n < nodeNum m.tree := by
    intro l
    induction l with
    | nil => exact fun _ _ hbest => hbest
    | cons a l ih =>
        intro best hl hbest
        rw [List.foldl_cons]
        refine ih _ (fun b hb => hl b (List.mem_cons_of_mem _ hb)) ?_
        unfold Mcts.mostVisits
        simp only
        split
        · intro n hn
          rw [← Option.some.inj hn]
          exact hl a (List.mem_cons_self ..)
        · exact hbest
  refine ⟨_, rfl, hfold _ _ hout fun n hn => ?_⟩
  cases hn

include hG hcol

/-- What holds in every state of every run of the protocol: the `Mcts`
is new, or it is initialised and satisfies the invariants. -/
theorem reached_inv {ph : Phase G} (h : Reached s₀ m ph) :
    (m = .new ∧ ∃ given, ph = .between given) ∨ ∃ pos, MctsInv s₀ m pos ∧ PhaseInv s₀ m pos ph := by
  obtain ⟨μ, hμ⟩ := hG.exists_measure
  induction h with
  | new => exact Or.inl ⟨rfl, none, rfl⟩
  | @prune m m' given s fuel _ hs hrun ih =>
      rcases ih with ⟨rfl, -⟩ | ⟨pos, hm, -⟩
      · rw [← Option.some.inj hrun]
        exact Or.inl ⟨rfl, _, rfl⟩
      · rcases prune_cases hm.initialized hm.tree.targets_lt
          (fun hfind => (hm.tree.position_of_find hcol hs hfind).1) hrun
          with rfl | ⟨old, f, hfind, hpruned⟩
        · exact Or.inl ⟨rfl, _, rfl⟩
        · obtain ⟨hold, hpos⟩ := hm.tree.position_of_find hcol hs hfind
          obtain ⟨pos', htree, hsame⟩ := hm.tree.prune hold hpruned
          have hpath := (pathInv_single hpruned.path.1 hpruned.path.2 htree.root_lt).1
          refine Or.inr ⟨pos', ⟨hpruned.initialized, htree, hpath⟩, hs, ?_⟩
          rw [hsame old _ hpruned.copy.root]
          exact hpos
  | @reset m given s _ hs ih =>
      rcases ih with ⟨rfl, -⟩ | ⟨pos, hm, -⟩
      · exact Or.inl ⟨rfl, _, rfl⟩
      · unfold Mcts.reset
        rw [hm.initialized, if_neg (by decide)]
        cases hfind : m.getNode (G.zobrist s) with
        | none =>
            exact Or.inr ⟨fun _ => s, (mctsInv_initializeRoot hG hs).1, hs, rfl⟩
        | some newRoot =>
            obtain ⟨hlt, hpos⟩ := hm.tree.position_of_find hcol hs hfind
            have hnum : nodeNum (setRootNode m.tree newRoot) = nodeNum m.tree :=
              nodeNum_setRootNode ..
            refine Or.inr ⟨pos, ⟨rfl, hm.tree.setRootNode hlt, hm.path.length, ?_⟩, hs, ?_⟩
            · obtain ⟨init, l, hpath, hinit, hl⟩ := hm.path.links
              refine ⟨init, l, hpath, fun l' hl' => ?_, fun n hn => ?_⟩
              · obtain ⟨n, hn, hlt'⟩ := hinit l' hl'
                exact ⟨n, hn, hnum ▸ hlt'⟩
              · exact hnum ▸ hl n hn
            · show G.position (pos (rootNode (setRootNode m.tree newRoot))) = _
              rw [rootNode_setRootNode m.tree hlt]
              exact hpos
  | @begin m m' given s _ hmay hs hrun ih =>
      rcases ih with ⟨rfl, -⟩ | ⟨pos, hm, hphase⟩
      · rw [begin_new] at hrun
        rw [← Option.some.inj hrun]
        obtain ⟨hinv, hvalid⟩ := mctsInv_initializeRoot (τ := τ) hG hs
        exact Or.inr ⟨_, hinv, hs, rfl, hvalid⟩
      · rw [begin_initialized hm.initialized] at hrun
        rcases hmay with rfl | ⟨-, hfresh⟩
        · obtain ⟨-, hroot⟩ := hphase
          obtain ⟨⟨link, heq, -⟩, hinv, -, hvalid⟩ := hm.connectStatesPath hG hs hroot hrun
          refine Or.inr ⟨pos, hinv, hs, ?_, hvalid⟩
          rw [heq]
          exact hroot
        · rw [hm.initialized] at hfresh
          cases hfresh
  | @iterate m s fuel ω turn _ hrun ih =>
      rcases ih with ⟨-, given, hph⟩ | ⟨pos, hm, hs, hroot, hvalid⟩
      · cases hph
      · obtain ⟨pos', hturn⟩ :=
          iteration_spec hG hcol hμ hm.tree hs hroot hm.path.length hvalid hrun
        obtain ⟨hm', hroot', hvalid'⟩ := hm.iterate hroot hvalid hturn
        exact Or.inr ⟨pos', hm', hs, hroot', hvalid'⟩
  | @finish m s _ ih =>
      rcases ih with ⟨-, given, hph⟩ | ⟨pos, hm, hs, hroot, hvalid⟩
      · cases hph
      · obtain ⟨link, heq, hlink⟩ := getBestMove_link (G := G) (m := m) fun _ ha =>
          hm.tree.target_lt hm.tree.root_lt (mem_edges_of_outArcs ha)
        rw [heq]
        exact Or.inr ⟨pos, ⟨hm.initialized, hm.tree,
          pathInv_concat hm.path.length hvalid rfl rfl hlink⟩, trivial⟩

end Steps

/-- What a first `compute` leaves. -/
theorem compute_treeInv (hG : G.Lawful s₀) (hcol : G.NoCollision s₀) (hs : G.Played s₀ s)
    {fuel maxIterations : Nat} {ω : Rng} {c : Computed τ G}
    (hrun : (Mcts.new : Mcts τ).compute G fuel s maxIterations ω = some c) :
    ∃ pos, TreeInv s₀ c.mcts.tree c.mcts.transpositionTable pos
      ∧ G.position (pos (rootNode c.mcts.tree)) = G.position s := by
  unfold Mcts.compute at hrun
  obtain ⟨m₁, hbegin, hmap⟩ := Option.bind_eq_some_iff.mp hrun
  obtain ⟨x, hx, rfl⟩ := Option.map_eq_some_iff.mp hmap
  have hreached : Reached s₀ x.1 (.running s) :=
    (Reached.begin .new (Or.inr ⟨rfl, rfl⟩) hs hbegin).iterations hx
  rcases reached_inv hG hcol hreached with ⟨-, given, hph⟩ | ⟨pos, hm, -, hroot, -⟩
  · cases hph
  · exact ⟨pos, hm.tree, hroot⟩

-- ============================================== the search-tree invariant

/-- The nodes of the tree stand for the positions `pos`. -/
structure Faithful (s₀ : G.State) (m : Mcts τ) (pos : Nat → G.State) : Prop where
  played : ∀ n, n < nodeNum m.tree → G.Played s₀ (pos n)
  /-- the table matches hashes and nodes one to one -/
  bijective : m.transpositionTable.Bijective (nodeNum m.tree)
  /-- `invertTranspositionTable ( )` indexes inside its vector -/
  inBounds : ∀ e ∈ m.transpositionTable.entries, e.2 < m.transpositionTable.size
  inverse : ∀ h n,
    m.transpositionTable.invert[n]? = some h ↔ m.transpositionTable.find h = some n
  found : ∀ n, n < nodeNum m.tree → m.transpositionTable.find (G.zobrist (pos n)) = some n
  player : ∀ n, n < nodeNum m.tree →
    (node m.tree n : NodeData G).playerJustMoved = G.playerJustMoved (pos n)
  /-- an arc makes a listed move and leads to the position of its target -/
  arcs : ∀ n, n < nodeNum m.tree → ∀ a ∈ outArcs m.tree n, a.2 < nodeNum m.tree
    ∧ (arc m.tree a.1 : ArcData G).move ∈ G.legal (pos n)
    ∧ G.position (G.moveHashWinner (pos n) (arc m.tree a.1 : ArcData G).move)
      = G.position (pos a.2)
  /-- the moves on the out-arcs and the untried ones are the listed ones -/
  moves : ∀ n, n < nodeNum m.tree →
    (triedMoves m.tree n ++ (node m.tree n : NodeData G).untried).Perm (G.legal (pos n))
  once : ∀ n, n < nodeNum m.tree →
    (triedMoves m.tree n ++ (node m.tree n : NodeData G).untried).Nodup
  /-- `m_moves` is null exactly when none is untried -/
  null : ∀ n, n < nodeNum m.tree →
    ((node m.tree n : NodeData G).moves = none ↔ (node m.tree n : NodeData G).untried = [])

omit [LawfulSearchTree τ] in
theorem TreeInv.faithful (hG : G.Lawful s₀)
    (h : TreeInv s₀ m.tree m.transpositionTable pos) : Faithful s₀ m pos where
  played _ hn := h.played hn
  bijective := h.bijective
  inBounds := h.bijective.invert_inBounds
  inverse := h.bijective.invert_eq
  found _ hn := h.find hn
  player _ hn := h.player hn
  arcs _ hn _ ha :=
    have he := mem_edges_of_outArcs ha
    ⟨h.target_lt hn he, h.tried_legal hn he, h.leads hn he⟩
  moves _ hn := h.moves hn
  once _ hn := (h.moves hn).nodup_iff.mpr (hG.legal_nodup (h.played hn).mixed)
  null _ hn := (h.stocked hn).moves_eq_none_iff

end MctsConnectFour
