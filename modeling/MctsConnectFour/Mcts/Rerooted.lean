/-
What `prune ( )` hands back.

`Rerooted` is the contract a caller reads off the function: the `Mcts`
has been initialised, and its root is the node of the state. The pruning
of a tree that knows the state keeps it. The other branch initialises the
`Mcts` that is deleted and hands back one that is new, so it does not
(`prune_rerooted_iff`). Nothing is assumed of the hashes: a node found
under the hash of a state may stand for another one, and then the contract
stands and falls with the player it has.
-/
import MctsConnectFour.Mcts.Sound

namespace MctsConnectFour

open SearchTree LawfulSearchTree

variable {G : Game} {τ : Type} [SearchTree τ (ArcData G) (NodeData G)]

/-- The `Mcts` that takes the place of `m` has the state as its root. -/
structure Rerooted (m : Mcts τ) (s : G.State) (m' : Mcts τ) : Prop where
  initialized : m'.notInitialized = false
  table : m'.transpositionTable.find (G.zobrist s) = some (rootNode m'.tree)
  player : (node m'.tree (rootNode m'.tree) : NodeData G).playerJustMoved = G.playerJustMoved s
  /-- nothing has been tried of a state that was not known -/
  untried : m.notInitialized = true ∨ m.transpositionTable.find (G.zobrist s) = none →
    (node m'.tree (rootNode m'.tree) : NodeData G).untried = G.legal s
  path : m'.path.map Link.target = [some (rootNode m'.tree)] ∧ m'.pathSize = 1

/-- The hash of the state leads to a node with the player of the state. -/
def Knows (m : Mcts τ) (s : G.State) : Prop :=
  m.notInitialized = false ∧ ∃ n, m.transpositionTable.find (G.zobrist s) = some n
    ∧ (node m.tree n : NodeData G).playerJustMoved = G.playerJustMoved s

variable {s₀ : G.State} {m m' : Mcts τ} {old : Nat}

/-- A new `Mcts` has not been initialised. -/
theorem not_rerooted_new (m : Mcts τ) (s : G.State) : ¬ Rerooted m s .new := by
  intro h
  have hinit : (Mcts.new : Mcts τ).notInitialized = true := rfl
  rw [h.initialized] at hinit
  cases hinit

/-- The copy keeps the contract when the node copied has the player of
the state. -/
theorem Pruned.rerooted_iff {f : Nat → Option Nat} {s : G.State} (h : Pruned m old m' f)
    (hinit : m.notInitialized = false) (hfind : m.transpositionTable.find (G.zobrist s) = some old) :
    Rerooted m s m' ↔ (node m.tree old : NodeData G).playerJustMoved = G.playerJustMoved s := by
  have hdata : node m'.tree (rootNode m'.tree) = (node m.tree old : NodeData G) :=
    h.copy.data h.copy.root
  constructor
  · intro hroot
    rw [← hdata]
    exact hroot.player
  · intro hplayer
    constructor
    case initialized => exact h.initialized
    case table => rw [h.table, hfind, Option.bind_some, h.copy.root]
    case player => rw [hdata, hplayer]
    case untried =>
      intro hunknown
      rw [hinit, hfind] at hunknown
      rcases hunknown with hunknown | hunknown <;> cases hunknown
    case path =>
      rw [h.path.1]
      exact ⟨rfl, h.path.2⟩

/-- Between two calls of any run of the protocol, and for any state,
`prune ( )` returns, and hands back an `Mcts` with the state as its root
exactly when the hash of the state led to a node with its player. -/
theorem prune_rerooted_iff [LawfulSearchTree τ] {given : Option G.State}
    (h : Reached s₀ m (.between given)) (s : G.State) :
    (∃ bound, ∀ fuel, bound ≤ fuel → ∃ m', m.prune G fuel s = some m')
      ∧ ∀ fuel m', m.prune G fuel s = some m' → (Rerooted m s m' ↔ Knows m s) := by
  by_cases hunknown : m.notInitialized = true ∨ m.getNode (G.zobrist s) = none
  · have hprune := prune_unknown hunknown
    refine ⟨⟨0, fun fuel _ => ⟨_, hprune fuel⟩⟩, fun fuel m' hrun => ?_⟩
    obtain rfl := Option.some.inj ((hprune fuel).symm.trans hrun)
    refine iff_of_false (not_rerooted_new m s) ?_
    intro h'
    obtain ⟨hinit, n, hfind, -⟩ := h'
    rcases hunknown with hnew | hnone
    · rw [hinit] at hnew
      cases hnew
    · rw [show m.getNode (G.zobrist s) = some n from hfind] at hnone
      cases hnone
  · obtain ⟨hinit, hknown⟩ := not_or.mp hunknown
    obtain ⟨old, hfind⟩ := Option.ne_none_iff_exists'.mp hknown
    rw [Bool.not_eq_true] at hinit
    have hm : Sound m := by
      rcases reached_sound h with ⟨rfl, -⟩ | hm
      · cases hinit
      · exact hm
    have hold := hm.tree.find_lt hfind
    refine ⟨⟨nodeNum m.tree, prune_total hinit hfind hm.tree.targets_lt hold⟩,
      fun fuel m' hrun => ?_⟩
    obtain ⟨f, hpruned⟩ := prune_spec hinit hfind hm.tree.targets_lt hold hrun
    rw [hpruned.rerooted_iff hinit hfind]
    constructor
    · exact fun hplayer => ⟨hinit, old, hfind, hplayer⟩
    · intro h'
      obtain ⟨-, n, hn, hplayer⟩ := h'
      obtain rfl := Option.some.inj ((show m.transpositionTable.find _ = some old from hfind).symm.trans hn)
      exact hplayer

/-- After a first `compute` that has made no iterations. -/
theorem prune_rerooted_iff_oneCell :
    let G := ConnectFour.game ConnectFour.oneCell
    let s : G.State := ConnectFour.new ConnectFour.oneCell .agent
    let m := ((Mcts.initializeRoot G (.new : Mcts OneCellTree) s).getBestMove G).2
    (∃ bound, ∀ fuel, bound ≤ fuel → ∃ m', m.prune G fuel s = some m')
      ∧ ∀ fuel m', m.prune G fuel s = some m' → (Rerooted m s m' ↔ Knows m s) := by
  intro G s m
  exact prune_rerooted_iff (.finish (.begin .new (Or.inr ⟨rfl, rfl⟩) .start rfl)) s

/-- In the first turn of a match `prune ( )` is called with an `Mcts` that
is new. -/
theorem prune_new_not_rerooted :
    let G := ConnectFour.game ConnectFour.oneCell
    let s : G.State := ConnectFour.new ConnectFour.oneCell .agent
    let m : Mcts OneCellTree := .new
    Reached s m (.between none) ∧ m.prune G 0 s = some .new ∧ ¬ Rerooted m s .new := by
  intro G s m
  exact ⟨.new, prune_unknown (Or.inl rfl) 0, not_rerooted_new m s⟩

end MctsConnectFour
