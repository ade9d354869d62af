/-
The move `compute ( )` returns.

It is read off the root when the iterations are over, so what has to be
known is that the root has a child by then. A root whose position is open
has an untried move or a child; the first iteration makes it have a child
(`SoundTurn`), and later ones do not take it away. That the move on the
arc is a listed one is the invariant of the tree.

`Course` are the calls in the course of a game: every `compute` is called
with an open state and makes an iteration. Then the last link on the path
stays valid, which the next `compute` relies on.
-/
import MctsConnectFour.Mcts.Rerooted
import MctsConnectFour.Mcts.Visits

namespace MctsConnectFour

open SearchTree LawfulSearchTree
open Loops (FirstMax)

variable {G : Game} {τ : Type} [SearchTree τ (ArcData G) (NodeData G)]

-- ====================================================== the best move

/-- What the move returned has to be, and what is left on the path. -/
structure IsBest (s : G.State) (c : Computed τ G) : Prop where
  legal : c.move ∈ G.legal s
  valid : c.move ≠ G.noneMove ∧ c.move ≠ default
  /-- it is on the first out-arc of the root whose child has the most
  visits, and this arc and child come last on the path -/
  most : ∃ a, FirstMax (fun x => (node c.mcts.tree x.2 : NodeData G).visits)
      (outArcs c.mcts.tree (rootNode c.mcts.tree)) a
    ∧ c.move = (arc c.mcts.tree a.1 : ArcData G).move
    ∧ c.mcts.path.getLast? = some ⟨some a.1, some a.2⟩
  length : c.mcts.path.length = c.mcts.pathSize

variable {s₀ s : G.State} {m m' : Mcts τ} {pos : Nat → G.State}

/-- `getBestMove ( )` of a root with children: visits are not negative,
so the first child is taken. -/
theorem getBestMove_firstMax (htree : SoundTree m.tree m.transpositionTable)
    (hroot : isInternal m.tree (rootNode m.tree) = true) :
    ∃ a, FirstMax (fun x => (node m.tree x.2 : NodeData G).visits)
        (outArcs m.tree (rootNode m.tree)) a
      ∧ m.getBestMove G = ((arc m.tree a.1 : ArcData G).move,
        { m with path := m.path ++ [⟨some a.1, some a.2⟩], pathSize := m.pathSize + 1 }) := by
  have hne : outArcs m.tree (rootNode m.tree) ≠ [] := by
    intro hnil
    rw [isInternal, hnil] at hroot
    cases hroot
  have hlow : ∀ x ∈ outArcs m.tree (rootNode m.tree),
      ((-2147483648 : Int), G.noneMove, (default : Link)).1
        < (node m.tree x.2 : NodeData G).visits := by
    intro x hx
    have hvisits : 0 ≤ (node m.tree x.2 : NodeData G).visits :=
      htree.visits (htree.target_lt htree.root_lt (mem_edges_of_outArcs hx))
    exact lt_of_lt_of_le (show (-2147483648 : Int) < 0 by decide) hvisits
  obtain ⟨a, hmax, hfold⟩ := Loops.foldl_firstMax
    (f := fun x : Nat × Nat => (node m.tree x.2 : NodeData G).visits)
    (fun x : Nat × Nat => ((arc m.tree x.1 : ArcData G).move, (⟨some x.1, some x.2⟩ : Link)))
    hlow hne
  refine ⟨a, hmax, ?_⟩
  have hbest : (outArcs m.tree (rootNode m.tree)).foldl (Mcts.mostVisits G m.tree)
      (-2147483648, G.noneMove, default)
      = ((node m.tree a.2 : NodeData G).visits, (arc m.tree a.1 : ArcData G).move,
        ⟨some a.1, some a.2⟩) := hfold
  unfold Mcts.getBestMove
  rw [hbest]

-- ========================================================= iterations

section Iterations

variable [LawfulSearchTree τ]

/-- After an iteration a root that can have a child has one. -/
theorem iterations_internal {fuel : Nat} :
    ∀ {count : Nat} {m : Mcts τ} {ω : Rng} {x : Mcts τ × Rng × List (Turn τ G)}, 1 ≤ count →
      Sound m →
      (m.hasUntriedMoves G (rootNode m.tree) = true ∨ isInternal m.tree (rootNode m.tree) = true) →
      m.iterations G fuel s count ω = some x →
        isInternal x.1.tree (rootNode x.1.tree) = true := by
  intro count
  induction count with
  | zero => exact fun hcount => absurd hcount (by decide)
  | succ count ih =>
      intro m ω x _ hm hcan hrun
      rw [Mcts.iterations] at hrun
      obtain ⟨turn, hturn, hmap⟩ := Option.bind_eq_some_iff.mp hrun
      obtain ⟨y, hy, rfl⟩ := Option.map_eq_some_iff.mp hmap
      have hsound := iteration_sound hm.tree hm.path hturn
      have hroot := hsound.internal hcan
      cases count with
      | zero =>
          obtain rfl := Option.some.inj hy
          exact hroot
      | succ count =>
          have hm' : Sound turn.mcts :=
            ⟨hsound.initialized.trans hm.initialized, hsound.tree, hsound.path⟩
          exact (ih (Nat.succ_pos count) hm' (Or.inr hroot) hy :)

omit [LawfulSearchTree τ] in
/-- The node of an open position has an untried move or a child. -/
theorem TreeInv.open_root (hG : G.Lawful s₀) (h : TreeInv s₀ m.tree m.transpositionTable pos)
    (hs : G.Played s₀ s) (hroot : G.position (pos (rootNode m.tree)) = G.position s)
    (hopen : G.ended s = none) :
    m.hasUntriedMoves G (rootNode m.tree) = true
      ∨ isInternal m.tree (rootNode m.tree) = true := by
  by_contra hnot
  obtain ⟨huntried, hleaf⟩ := not_or.mp hnot
  have hnone : (node m.tree (rootNode m.tree) : NodeData G).moves = none :=
    Option.not_isSome_iff_eq_none.mp huntried
  have hnil := h.legal_eq_nil h.root_lt (Bool.eq_false_iff.mpr hleaf) hnone
  have hperm := hG.legal_perm (h.played h.root_lt) hs hroot
  rw [hnil] at hperm
  exact (hG.ended_iff hs).mp hopen hperm.nil_eq.symm

end Iterations

-- ============================================================ compute

/-- The calls in the course of a game, and the state `prune` or `reset`
have been given since the last `compute`. -/
inductive Course (s₀ : G.State) : Mcts τ → Option G.State → Prop
  | new : Course s₀ .new none
  | prune {m m' : Mcts τ} {given : Option G.State} {s : G.State} {fuel : Nat} :
      Course s₀ m given → G.Played s₀ s → m.prune G fuel s = some m' → Course s₀ m' (some s)
  | reset {m : Mcts τ} {given : Option G.State} {s : G.State} :
      Course s₀ m given → G.Played s₀ s → Course s₀ (m.reset G s) (some s)
  | compute {m : Mcts τ} {given : Option G.State} {s : G.State} {fuel count : Nat} {ω : Rng}
      {c : Computed τ G} : Course s₀ m given → MayCompute m given s → G.Played s₀ s →
        G.ended s = none → 1 ≤ count → m.compute G fuel s count ω = some c →
          Course s₀ c.mcts none

theorem Course.reached {given : Option G.State} (h : Course s₀ m given) :
    Reached s₀ m (.between given) := by
  induction h with
  | new => exact .new
  | prune _ hs hrun ih => exact ih.prune hs hrun
  | reset _ hs ih => exact ih.reset hs
  | compute _ hmay hs _ _ hrun ih => exact ih.compute hmay hs hrun

section Compute

variable [LawfulSearchTree τ]

/-- A `compute` that returns, on an open state and with an iteration. -/
theorem Reached.isBest (hgame : Setting G s₀) (hcol : G.NoCollision s₀) {given : Option G.State}
    (h : Reached s₀ m (.between given)) (hmay : MayCompute m given s) (hs : G.Played s₀ s)
    (hopen : G.ended s = none) {count : Nat} (hcount : 1 ≤ count) {fuel : Nat} {ω : Rng}
    {c : Computed τ G} (hrun : m.compute G fuel s count ω = some c) : IsBest s c := by
  have hG := hgame.lawful
  unfold Mcts.compute at hrun
  obtain ⟨m₁, hbegin, hmap⟩ := Option.bind_eq_some_iff.mp hrun
  obtain ⟨x, hx, rfl⟩ := Option.map_eq_some_iff.mp hmap
  have hbegun : Reached s₀ m₁ (.running s) := h.begin hmay hs hbegin
  have hdone : Reached s₀ x.1 (.running s) := hbegun.iterations hx
  have hsound : ∀ {m : Mcts τ}, Reached s₀ m (.running s) → Sound m := by
    intro m hm
    rcases reached_sound hm with ⟨-, given, hph⟩ | hm
    · cases hph
    · exact hm
  have hinv : ∀ {m : Mcts τ}, Reached s₀ m (.running s) →
      ∃ pos, MctsInv s₀ m pos ∧ G.position (pos (rootNode m.tree)) = G.position s := by
    intro m hm
    rcases reached_inv hG hcol hm with ⟨-, given, hph⟩ | ⟨pos, hm, -, hroot, -⟩
    · cases hph
    · exact ⟨pos, hm, hroot⟩
  -- the root has a child
  obtain ⟨pos, hm, hroot⟩ := hinv hbegun
  have hchild := iterations_internal hcount (hsound hbegun)
    (hm.tree.open_root hG hs hroot hopen) hx
  obtain ⟨a, hmax, hbest⟩ := getBestMove_firstMax (hsound hdone).tree hchild
  -- and the move on the arc to it is listed
  obtain ⟨pos', hm', hroot'⟩ := hinv hdone
  have hlegal : (arc x.1.tree a.1 : ArcData G).move ∈ G.legal s := by
    have hroot_lt := hm'.tree.root_lt
    rw [← (hG.legal_perm (hm'.tree.played hroot_lt) hs hroot').mem_iff]
    exact hm'.tree.tried_legal hroot_lt (mem_edges_of_outArcs hmax.mem)
  rw [hbest]
  constructor
  case legal => exact hlegal
  case valid => exact hgame.legal_valid hs.mixed hlegal
  case most => exact ⟨a, hmax, rfl, List.getLast?_concat⟩
  case length =>
    show (x.1.path ++ [_]).length = x.1.pathSize + 1
    rw [List.length_append, hm'.path.length]
    rfl

omit [LawfulSearchTree τ] in
/-- The path a pruning leaves is that of a new `Mcts` or the root. -/
theorem prune_path {fuel : Nat} (hrun : m.prune G fuel s = some m') :
    m' = .new ∨ m'.path = [⟨rootArc m'.tree, some (rootNode m'.tree)⟩] := by
  by_cases hunknown : m.notInitialized = true ∨ m.getNode (G.zobrist s) = none
  · rw [prune_unknown hunknown] at hrun
    exact Or.inl (Option.some.inj hrun).symm
  · obtain ⟨hinit, hknown⟩ := not_or.mp hunknown
    obtain ⟨old, hfind⟩ := Option.ne_none_iff_exists'.mp hknown
    rw [prune_eq (Bool.eq_false_iff.mpr hinit) hfind, Mcts.pruneImpl] at hrun
    obtain ⟨x, -, rfl⟩ := Option.map_eq_some_iff.mp hrun
    exact Or.inr rfl

/-- In the course of a game the last link on the path is valid. -/
theorem Course.last_valid (hgame : Setting G s₀) (hcol : G.NoCollision s₀)
    {given : Option G.State} (h : Course s₀ m given) :
    m.notInitialized = true ∨ m.path.getLast?.bind Link.target ≠ none := by
  induction h with
  | new => exact Or.inl rfl
  | prune _ _ hrun _ =>
      rcases prune_path hrun with rfl | hpath
      · exact Or.inl rfl
      · rw [hpath]
        exact Or.inr (Option.some_ne_none _)
  | @reset m given s _ _ ih =>
      unfold Mcts.reset
      split
      · exact ih
      · next hinit =>
          split
          · exact Or.inr (Option.some_ne_none _)
          · exact Or.inr (ih.resolve_left hinit)
  | compute hbefore hmay hs hopen hcount hrun _ =>
      obtain ⟨a, -, -, hlast⟩ :=
        (hbefore.reached.isBest hgame hcol hmay hs hopen hcount hrun).most
      rw [hlast]
      exact Or.inr (Option.some_ne_none _)

end Compute

-- ========================================================= a collision

/-- A tree for a board of one row and 85 columns, which has more cells
than the source has keys. -/
abbrev WideTree : Type :=
  FlatTree (ArcData (ConnectFour.game (ConnectFour.sourceKeys 1 85)))
    (NodeData (ConnectFour.game (ConnectFour.sourceKeys 1 85)))

/-- Outcomes of the generator: the first decides which move is tried. -/
def outcomes (first : Nat) : Rng := fun k => if k = 0 then first else 0

end MctsConnectFour
