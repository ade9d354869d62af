/-
The visits `compute` adds.

A playout adds to a node one visit for every entry the node has on the
path (`TurnSpec`). The part of the path an iteration adds has distinct
nodes below the root, so what counts is what was on the path before, and
that is what `prune`, `reset` and the end of the last `compute` left
there. `connectStatesPath ( )` pushes the root; after `prune` the root is
on the path already, and so it is after a `reset` that has started a new
tree. Then every playout visits it twice.

`visits_accounted` is about any `compute` in any run of the protocol.
-/
import MctsConnectFour.Mcts.Protocol

namespace MctsConnectFour

open SearchTree LawfulSearchTree

variable {G : Game} {τ : Type} [SearchTree τ (ArcData G) (NodeData G)] {s₀ s : G.State}
  {m : Mcts τ} {pos : Nat → G.State} {μ : G.State → Nat}

-- =========================================================== statements

/-- The visits of the root; a new `Mcts` has none. -/
def rootVisits (m : Mcts τ) : Int :=
  if m.notInitialized then 0 else (node m.tree (rootNode m.tree) : NodeData G).visits

/-- The visits are accounted for: a playout visits every node on its path
once and no other, and the root has three more visits an iteration. -/
structure Accounted (m : Mcts τ) (count : Nat) (c : Computed τ G) : Prop where
  turns : c.turns.length = count
  playouts : ∀ turn ∈ c.turns, turn.playouts.length = 3 ∧ ∀ p ∈ turn.playouts,
    ∀ n, n < nodeNum p.before → (node p.after n : NodeData G).visits
      = (node p.before n : NodeData G).visits
        + if some n ∈ turn.path.map Link.target then 1 else 0
  root : rootVisits c.mcts = rootVisits m + 3 * count

/-- The nodes on the path are valid and distinct, and none is the node of
a position that can be played to from `s`, which `s` is itself. -/
structure PathAside (m : Mcts τ) (s : G.State) : Prop where
  valid : ∀ l ∈ m.path, l.target ≠ none
  nodup : (m.path.map Link.target).Nodup
  aside : ∀ ms, G.LegalLine s ms → ∀ l ∈ m.path,
    l.target ≠ m.getNode (G.zobrist (G.play s ms))

-- ================================================= the path of a playout

omit [SearchTree τ (ArcData G) (NodeData G)] in
/-- The entries on the path of an iteration. -/
theorem OnPath.entries {path : List Link} {ns : List Nat} (h : OnPath m path ns) (n : Nat) :
    entries path n = entries m.path n + ns.count n := by
  obtain ⟨links, rfl, htargets⟩ := h
  unfold MctsConnectFour.entries
  rw [List.map_append, List.count_append, htargets,
    List.count_map_of_injective _ _ (Option.some_injective Nat)]

/-- The root is not entered. -/
theorem Trail.root_not_mem {t : τ} {n : Nat} {ns : List Nat} (h : Trail μ t pos s n ns) :
    rootNode t ∉ ns := fun hmem => lt_irrefl _ (h.below _ hmem)

theorem entries_of_nodup {path : List Link} (h : (path.map Link.target).Nodup) (n : Nat) :
    entries path n = if some n ∈ path.map Link.target then 1 else 0 :=
  h.count

/-- What every iteration of a `compute` that starts with `m` does. -/
structure TurnAt (μ : G.State → Nat) (m : Mcts τ) (pos : Nat → G.State) (s : G.State)
    (turn : Turn τ G) : Prop where
  length : turn.playouts.length = 3
  visits : ∀ p ∈ turn.playouts, ∀ n, n < nodeNum p.before →
    (node p.after n : NodeData G).visits
      = (node p.before n : NodeData G).visits + entries turn.path n
  trail : ∃ (t : τ) (pos' : Nat → G.State) (n : Nat) (ns : List Nat),
    rootNode t = rootNode m.tree ∧ (∀ k, k < nodeNum m.tree → pos' k = pos k)
      ∧ Trail μ t pos' s n ns ∧ OnPath m turn.path ns

/-- The nodes on the path of a turn are distinct when those on the path
before are, and only the root among them can be played to. -/
theorem TurnAt.nodup (hvalid : Valid m.tree m.path) (hnodup : (m.path.map Link.target).Nodup)
    (haside : ∀ n, some n ∈ m.path.map Link.target → n ≠ rootNode m.tree →
      ∀ ms, G.LegalLine s ms → G.position (pos n) ≠ G.position (G.play s ms))
    {turn : Turn τ G} (h : TurnAt μ m pos s turn) : (turn.path.map Link.target).Nodup := by
  obtain ⟨t, pos', n, ns, hroot, hpos, htrail, links, hpath, htargets⟩ := h.trail
  rw [hpath, List.map_append, htargets]
  refine List.nodup_append'.mpr
    ⟨hnodup, htrail.nodup.map (Option.some_injective Nat), fun target htarget hmem => ?_⟩
  obtain ⟨k, hk, rfl⟩ := List.mem_map.mp hmem
  obtain ⟨l, hl, hlk⟩ := List.mem_map.mp htarget
  obtain ⟨k', hk', hlt⟩ := hvalid l hl
  obtain rfl := Option.some.inj (hk'.symm.trans hlk)
  obtain ⟨ms, hline, hplay⟩ := htrail.playable k' hk
  rw [hpos k' hlt] at hplay
  refine haside k' htarget (fun heq => ?_) ms hline hplay
  rw [heq, ← hroot] at hk
  exact htrail.root_not_mem hk

-- =========================================================== iterations

variable [LawfulSearchTree τ]

section Iterations

variable (hG : G.Lawful s₀) (hcol : G.NoCollision s₀) (hμ : IsMeasure s₀ μ) (hs : G.Played s₀ s)

include hG hcol hμ hs

/-- What the iterations of a `compute` do, by induction on their
number. -/
theorem iterations_spec {fuel : Nat} :
    ∀ {count : Nat} {m : Mcts τ} {pos : Nat → G.State} {ω : Rng}
      {x : Mcts τ × Rng × List (Turn τ G)}, MctsInv s₀ m pos →
        G.position (pos (rootNode m.tree)) = G.position s → Valid m.tree m.path →
          m.iterations G fuel s count ω = some x →
            x.1.notInitialized = false ∧ rootNode x.1.tree = rootNode m.tree
              ∧ (node x.1.tree (rootNode m.tree) : NodeData G).visits
                = (node m.tree (rootNode m.tree) : NodeData G).visits
                  + 3 * count * entries m.path (rootNode m.tree)
              ∧ x.2.2.length = count ∧ ∀ turn ∈ x.2.2, TurnAt μ m pos s turn := by
  intro count
  induction count with
  | zero =>
      intro m pos ω x hm _ _ hrun
      obtain rfl := Option.some.inj hrun
      exact ⟨hm.initialized, rfl, by simp, rfl, by simp⟩
  | succ count ih =>
      intro m pos ω x hm hroot hvalid hrun
      rw [Mcts.iterations] at hrun
      obtain ⟨turn, hturn, hmap⟩ := Option.bind_eq_some_iff.mp hrun
      obtain ⟨y, hy, rfl⟩ := Option.map_eq_some_iff.mp hmap
      obtain ⟨pos', hspec⟩ :=
        iteration_spec hG hcol hμ hm.tree hs hroot hm.path.length hvalid hturn
      obtain ⟨n, ns, htrail, hpath⟩ := hspec.trail
      obtain ⟨hm', hroot', hvalid'⟩ := hm.iterate hroot hvalid hspec
      obtain ⟨hinit, hsame, hvisits, hlen, hturns⟩ := ih hm' hroot' hvalid' hy
      refine ⟨hinit, hsame.trans hspec.root, ?_, by simp [hlen], fun turn' hturn' => ?_⟩
      · -- the root has the same entries on the path of every iteration
        have hentries := hpath.entries (rootNode m.tree)
        rw [← hspec.root, List.count_eq_zero_of_not_mem htrail.root_not_mem, hspec.root] at hentries
        have hfirst := hspec.visits _ hm.tree.root_lt
        rw [hspec.root, hspec.rest.1] at hvisits
        show (node y.1.tree (rootNode m.tree) : NodeData G).visits = _
        rw [hvisits, hfirst, hentries]
        push_cast
        ring
      · rcases List.mem_cons.mp hturn' with rfl | hturn'
        · exact ⟨hspec.length, fun p hp => (hspec.playouts p hp).1.visits,
            _, pos', n, ns, hspec.root, hspec.pos_eq, htrail, hpath⟩
        · obtain ⟨hlength, hall, t, pos'', k, ks, ht, hpos, hks, hon⟩ := hturns turn' hturn'
          refine ⟨hlength, hall, t, pos'', k, ks, ht.trans hspec.root, fun i hi => ?_, hks, ?_⟩
          · rw [hpos i (hi.trans_le hspec.num_le), hspec.pos_eq i hi]
          · unfold OnPath at hon ⊢
            rwa [hspec.rest.1] at hon

/-- With enough fuel they return. -/
theorem iterations_total :
    ∀ (count : Nat) {m : Mcts τ} {pos : Nat → G.State} {ω : Rng}, MctsInv s₀ m pos →
      G.position (pos (rootNode m.tree)) = G.position s → Valid m.tree m.path →
        ∃ bound, ∀ fuel, bound ≤ fuel → ∃ x, m.iterations G fuel s count ω = some x := by
  intro count
  induction count with
  | zero => exact fun _ _ _ => ⟨0, fun _ _ => ⟨_, rfl⟩⟩
  | succ count ih =>
      intro m pos ω hm hroot hvalid
      obtain ⟨bound, turn, hturn⟩ := iteration_total hG hcol hμ hm.tree hs hroot hvalid ω
      obtain ⟨pos', hspec⟩ :=
        iteration_spec hG hcol hμ hm.tree hs hroot hm.path.length hvalid hturn
      obtain ⟨hm', hroot', hvalid'⟩ := hm.iterate hroot hvalid hspec
      obtain ⟨bound', hrest⟩ := ih (ω := turn.rng) hm' hroot' hvalid'
      refine ⟨max bound bound', fun fuel hfuel => ?_⟩
      obtain ⟨x, hx⟩ := hrest fuel (le_of_max_le_right hfuel)
      rw [Mcts.iterations, iteration_mono (le_of_max_le_left hfuel) hturn, Option.bind_some, hx]
      exact ⟨_, rfl⟩

end Iterations

-- ============================================================== compute

omit [LawfulSearchTree τ] in
/-- What `getBestMove ( )` leaves of the tree. -/
theorem rootVisits_getBestMove (hinit : m.notInitialized = false) :
    rootVisits (m.getBestMove G).2 = (node m.tree (rootNode m.tree) : NodeData G).visits := by
  unfold rootVisits
  rw [show (m.getBestMove G).2.notInitialized = false from hinit]
  rfl

/-- What `compute` has when its loop begins, of what it was called on: the
root is on the path once more. -/
structure Begun (s₀ : G.State) (m m₁ : Mcts τ) (s : G.State) (pos : Nat → G.State) : Prop where
  inv : MctsInv s₀ m₁ pos
  root : G.position (pos (rootNode m₁.tree)) = G.position s
  valid : Valid m₁.tree m₁.path
  visits : (node m₁.tree (rootNode m₁.tree) : NodeData G).visits = rootVisits m
  path : m.notInitialized = true ∧ m₁.path.map Link.target = [some (rootNode m₁.tree)]
    ∨ m.notInitialized = false ∧ m₁.tree = m.tree
      ∧ m₁.transpositionTable = m.transpositionTable
      ∧ m₁.path.map Link.target = m.path.map Link.target ++ [some (rootNode m.tree)]

theorem begin_spec (hG : G.Lawful s₀) (hcol : G.NoCollision s₀) {given : Option G.State}
    (h : Reached s₀ m (.between given)) (hs : G.Played s₀ s) (hmay : MayCompute m given s)
    {m₁ : Mcts τ} (hbegin : m.begin G s = some m₁) : ∃ pos, Begun s₀ m m₁ s pos := by
  rcases reached_inv hG hcol h with ⟨rfl, -⟩ | ⟨pos, hm, hphase⟩
  · have hnew : Mcts.begin G (.new : Mcts τ) s = some (Mcts.initializeRoot G .new s) := rfl
    obtain rfl := Option.some.inj (hnew.symm.trans hbegin)
    obtain ⟨hinv, hvalid⟩ := mctsInv_initializeRoot (τ := τ) hG hs
    have hzero : rootNode (new : τ) < nodeNum (new : τ) := by
      rw [nodeNum_new, rootNode_new]
      exact Nat.one_pos
    have hroot : rootNode (Mcts.initializeRoot G (.new : Mcts τ) s).tree = rootNode (new : τ) :=
      rootNode_setNode ..
    refine ⟨_, hinv, rfl, hvalid, ?_, Or.inl ⟨rfl, ?_⟩⟩
    · rw [hroot]
      show (node (SearchTree.setNode (new : τ) (rootNode (new : τ)) (NodeData.ofState s)) _
        : NodeData G).visits = 0
      rw [node_setNode _ _ _ hzero, if_pos rfl]
      rfl
    · rw [hroot]
      rfl
  · have hknown : given = some s := by
      rcases hmay with hgiven | ⟨-, hfresh⟩
      · exact hgiven
      · rw [hm.initialized] at hfresh
        cases hfresh
    subst hknown
    rw [begin_initialized hm.initialized] at hbegin
    obtain ⟨⟨link, rfl, hlink⟩, hinv, -, hvalid⟩ :=
      hm.connectStatesPath hG hs hphase.2 hbegin
    refine ⟨pos, hinv, hphase.2, hvalid, ?_, Or.inr ⟨hm.initialized, rfl, rfl, ?_⟩⟩
    · unfold rootVisits
      rw [hm.initialized]
      rfl
    · rw [List.map_append, List.map_singleton, hlink]

omit [LawfulSearchTree τ] in
/-- The loop of `compute` is come to when the last link on the path is
valid. -/
theorem begin_total (hlast : m.notInitialized = true ∨ m.path.getLast?.bind Link.target ≠ none) :
    ∃ m₁, m.begin G s = some m₁ := by
  unfold Mcts.begin
  split
  · exact ⟨_, rfl⟩
  · next hinit =>
      obtain ⟨parent, hparent⟩ := Option.ne_none_iff_exists'.mp (hlast.resolve_left hinit)
      unfold Mcts.connectStatesPath
      rw [hparent]
      exact ⟨_, rfl⟩

omit [LawfulSearchTree τ] in
/-- The nodes on the path are distinct when the loop begins, and only the
root among them can be played to. -/
theorem Begun.distinct (hG : G.Lawful s₀) (hs : G.Played s₀ s) {m₁ : Mcts τ}
    (h : Begun s₀ m m₁ s pos) (haside : m.notInitialized = true ∨ PathAside m s) :
    (m₁.path.map Link.target).Nodup
      ∧ ∀ n, some n ∈ m₁.path.map Link.target → n ≠ rootNode m₁.tree →
        ∀ ms, G.LegalLine s ms → G.position (pos n) ≠ G.position (G.play s ms) := by
  obtain ⟨hm, hroot, hvalid, -, hpath⟩ := h
  rcases hpath with ⟨-, hsingle⟩ | ⟨hinit, htree, htable, hconcat⟩
  · rw [hsingle]
    refine ⟨List.nodup_singleton _, fun n hn hne => ?_⟩
    exact absurd (Option.some.inj (List.mem_singleton.mp hn)) hne
  · have haside : PathAside m s := haside.resolve_left (by rw [hinit]; decide)
    have hfind : ∀ {n ms}, n < nodeNum m₁.tree → G.LegalLine s ms →
        G.position (pos n) = G.position (G.play s ms) →
          m.getNode (G.zobrist (G.play s ms)) = some n := by
      intro n ms hn hline heq
      have hfound := hm.tree.find_of_position hG hn (hs.play hline) heq
      rwa [htable] at hfound
    rw [hconcat]
    refine ⟨List.nodup_append'.mpr ⟨haside.nodup, List.nodup_singleton _,
      List.disjoint_singleton.mpr fun hmem => ?_⟩, fun n hn hne ms hline heq => ?_⟩
    · obtain ⟨l, hl, hlroot⟩ := List.mem_map.mp hmem
      have hnil : G.LegalLine s [] := trivial
      refine haside.aside [] hnil l hl (hlroot.trans ?_)
      rw [← htree]
      exact (hfind hm.tree.root_lt hnil hroot).symm
    · rcases List.mem_append.mp hn with hn | hn
      · obtain ⟨l, hl, hln⟩ := List.mem_map.mp hn
        have hlt : n < nodeNum m₁.tree := by
          obtain ⟨l', hl', hln'⟩ := List.mem_map.mp
            (hconcat ▸ List.mem_append_left [some (rootNode m.tree)] hn)
          obtain ⟨k, hk, hlt⟩ := hvalid l' hl'
          rwa [← Option.some.inj (hk.symm.trans hln')]
        exact haside.aside ms hline l hl (hln.trans (hfind hlt hline heq).symm)
      · rw [htree] at hne
        exact hne (Option.some.inj (List.mem_singleton.mp hn))

/-- With `e` entries too many, a multiple of three is met by none. -/
theorem three_more_iff (v : Int) (count e : Nat) :
    v + 3 * count * (e + 1 : Nat) = v + 3 * count ↔ count = 0 ∨ e = 0 := by
  rw [add_right_inj, Nat.cast_add, mul_add, Nat.cast_one, mul_one, add_eq_right, mul_eq_zero,
    mul_eq_zero]
  omega

end MctsConnectFour
