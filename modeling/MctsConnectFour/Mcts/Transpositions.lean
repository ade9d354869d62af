/-
Counting the transpositions (`numTranspositions`).

A node with more than one in-arc is reached by more than one line of
moves. The counting walks the digraph from its root, depth first, with a
stack and a set of bits, one for each node, and counts a node when it
meets it. `Tally` holds between any two arcs of the walk: what has been
pushed are the nodes marked, once each, and the count is how many of them
are shared. With `IsSearch` (Lib/Worklist.lean) this is all there is to
it, since nothing has to be known about the digraph but that its ids are
valid (`Closed`): nodes are met once whatever cycles there are, and what
has been cut off by moving the root is not met, though its arcs remain
in-arcs of the nodes they lead to.

What has been pushed is not kept by the program.
-/
import MctsConnectFour.Mcts.Sound

namespace MctsConnectFour

open SearchTree Worklist

-- =========================================================== the stack

/-- `Stack < T >`: a vector, its top at the back. -/
structure Stack (T : Type) where
  data : List T

namespace Stack

variable {T : Type}

/-- `Stack ( v )`. -/
def new (v : T) : Stack T := ⟨[v]⟩

/-- `pop ( )`: the top, and what is left. -/
def pop (s : Stack T) : Option (T × Stack T) :=
  s.data.getLast?.map fun v => (v, ⟨s.data.dropLast⟩)

/-- `push ( v )`. -/
def push (s : Stack T) (v : T) : Stack T := ⟨s.data ++ [v]⟩

/-- `not_empty ( )`. -/
def notEmpty (s : Stack T) : Bool := s.data.length != 0

/-- What is not empty has a top. -/
theorem exists_pop {s : Stack T} (h : s.notEmpty = true) :
    ∃ v rest, s.pop = some (v, rest) ∧ s.data = rest.data ++ [v] := by
  have hne : s.data ≠ [] := by simpa [notEmpty] using h
  refine ⟨s.data.getLast hne, ⟨s.data.dropLast⟩, ?_, (List.dropLast_append_getLast hne).symm⟩
  rw [pop, List.getLast?_eq_getLast_of_ne_nil hne, Option.map_some]

theorem data_of_not_notEmpty {s : Stack T} (h : s.notEmpty = false) : s.data = [] := by
  simpa [notEmpty] using h

end Stack

-- ======================================================== the counting

/-- `numTranspositions ( )` between two arcs. -/
structure Count where
  visited : List Bool
  stack : Stack Nat
  nt : Nat
  /-- everything that has been pushed, in order -/
  pushed : List Nat

namespace Mcts

variable {τ A N : Type} [SearchTree τ A N] [InArcs τ]

omit [InArcs τ] in
/-- The counting starts with the root. -/
def startCount (t : τ) : Option Count :=
  if rootNode t < nodeNum t then
    some
      { visited := (List.replicate (nodeNum t) false).set (rootNode t) true
        stack := .new (rootNode t)
        nt := 0
        pushed := [rootNode t] }
  else none

/-- A child that has not been visited. -/
def discover (t : τ) (x : Count) (child : Nat) : Count where
  visited := x.visited.set child true
  stack := x.stack.push child
  nt := if inArcNum t child > 1 then x.nt + 1 else x.nt
  pushed := x.pushed ++ [child]

/-- One out-arc of a parent. -/
def countArc (t : τ) (x : Count) (a : Nat × Nat) : Option Count :=
  x.visited[a.2]?.map fun visited => if visited then x else discover t x a.2

/-- One turn: the parent is popped, and all its out-arcs are gone over. -/
def countNode (t : τ) (x : Count) : Option Count :=
  x.stack.pop.bind fun y => (outArcs t y.1).foldlM (countArc t) { x with stack := y.2 }

/-- The walk of `numTranspositions ( )`. -/
def countTranspositions (fuel : Nat) (m : Mcts τ) : Option Count :=
  (startCount m.tree).bind
    (Loops.whileLoop (fun x : Count => x.stack.notEmpty) (countNode m.tree) fuel)

/-- `numTranspositions ( )`. -/
def numTranspositions (fuel : Nat) (m : Mcts τ) : Option Nat :=
  (m.countTranspositions fuel).map Count.nt

end Mcts

-- =================================================== the bits, the arc

/-- The bit of a node is set. -/
def Count.Marked (x : Count) (n : Nat) : Prop := x.visited[n]? = some true

theorem Count.Marked.lt {x : Count} {n : Nat} (h : x.Marked n) : n < x.visited.length := by
  obtain ⟨hlt, -⟩ := List.getElem?_eq_some_iff.mp h
  exact hlt

section Arc

variable {τ A N : Type} [SearchTree τ A N] [InArcs τ] {t : τ} {x : Count} {k : Nat}

omit [SearchTree τ A N] in
/-- One bit more is set. -/
theorem marked_discover (hk : k < x.visited.length) (n : Nat) :
    (Mcts.discover t x k).Marked n ↔ n = k ∨ x.Marked n := by
  show (x.visited.set k true)[n]? = some true ↔ n = k ∨ x.visited[n]? = some true
  rw [List.getElem?_set]
  by_cases hn : k = n
  · simp [hn, hn ▸ hk]
  · simp [hn, Ne.symm hn]

omit [SearchTree τ A N] in
/-- A child that has been visited is passed over. -/
theorem countArc_of_marked {a : Nat × Nat} (h : x.Marked a.2) : Mcts.countArc t x a = some x := by
  unfold Count.Marked at h
  rw [Mcts.countArc, h]
  rfl

omit [SearchTree τ A N] in
/-- Any other is counted and pushed. -/
theorem countArc_of_not_marked {a : Nat × Nat} (ha : a.2 < x.visited.length)
    (h : ¬ x.Marked a.2) : Mcts.countArc t x a = some (Mcts.discover t x a.2) := by
  unfold Count.Marked at h
  rw [List.getElem?_eq_getElem ha, Option.some_inj, Bool.not_eq_true] at h
  rw [Mcts.countArc, List.getElem?_eq_getElem ha, h]
  rfl

end Arc

-- ============================================================ digraphs

variable {G : Game} {τ : Type} [SearchTree τ (ArcData G) (NodeData G)]

/-- A digraph the ids of which are valid: the root is a node, and so are
the targets of the arcs. -/
structure Closed (t : τ) : Prop where
  root_lt : rootNode t < nodeNum t
  targets_lt : ∀ {n k}, n < nodeNum t → k ∈ targets t n → k < nodeNum t

/-- A node other than the root that can be reached and has more than one
in-arc. -/
def Shared [InArcs τ] (t : τ) (n : Nat) : Prop :=
  n ≠ rootNode t ∧ Reachable (targets t) (rootNode t) n
    ∧ ∃ a b, a ≠ b ∧ InArc t a n ∧ InArc t b n

theorem SoundTree.closed {t : τ} {T : TranspositionTable} (h : SoundTree t T) : Closed t :=
  ⟨h.root_lt, h.targets_lt⟩

/-- The digraph of an `Mcts` is closed in every run of the protocol,
whatever the hashes. -/
theorem reached_closed [LawfulSearchTree τ] {s₀ : G.State} {m : Mcts τ} {ph : Phase G}
    (h : Reached s₀ m ph) : Closed m.tree := by
  rcases reached_sound h with ⟨rfl, -⟩ | hm
  · have hnum : nodeNum (Mcts.new : Mcts τ).tree = 1 := LawfulSearchTree.nodeNum_new
    have hroot : rootNode (Mcts.new : Mcts τ).tree = 0 := LawfulSearchTree.rootNode_new
    refine ⟨by rw [hnum, hroot]; exact Nat.one_pos, ?_⟩
    intro n k _ hk
    have hout : outArcs (Mcts.new : Mcts τ).tree n = [] := LawfulSearchTree.outArcs_new n
    rw [targets, hout] at hk
    cases hk
  · exact hm.tree.closed

-- =========================================================== the tally

variable [InArcs τ] {t : τ} {x : Count} {k : Nat}

/-- The counting between two arcs: the nodes marked have been pushed, once
each, and those of them that are shared have been counted. -/
structure Tally (t : τ) (x : Count) : Prop where
  length : x.visited.length = nodeNum t
  root : x.Marked (rootNode t)
  nodup : x.pushed.Nodup
  mem : ∀ n, n ∈ x.pushed ↔ x.Marked n
  nt : x.nt = x.pushed.countP fun n => n ≠ rootNode t ∧ 1 < inArcNum t n

/-- Before the first arc. -/
theorem tally_start (h : Closed t) : ∃ x, Mcts.startCount t = some x ∧ Tally t x
    ∧ x.stack.data = [rootNode t] ∧ ∀ n, x.Marked n ↔ n = rootNode t := by
  have hmarked : ∀ n, ((List.replicate (nodeNum t) false).set (rootNode t) true)[n]? = some true
      ↔ n = rootNode t := by
    intro n
    rw [List.getElem?_set, List.length_replicate, if_pos h.root_lt]
    by_cases hn : rootNode t = n
    · simp [hn]
    · simp [hn, Ne.symm hn, List.getElem?_replicate]
  refine ⟨_, if_pos h.root_lt, ?_, rfl, hmarked⟩
  constructor
  case length => rw [List.length_set, List.length_replicate]
  case root => exact (hmarked _).mpr rfl
  case nodup => exact List.nodup_singleton _
  case mem =>
    intro n
    rw [List.mem_singleton]
    exact (hmarked n).symm
  case nt => simp

/-- A child is counted when it is shared; the root is not a child that has
not been visited. -/
theorem Tally.discover (h : Tally t x) (hk : k < nodeNum t) (hnew : ¬ x.Marked k) :
    Tally t (Mcts.discover t x k) := by
  have hlt : k < x.visited.length := h.length ▸ hk
  have hout : k ∉ x.pushed := mt (h.mem k).mp hnew
  constructor
  case length => exact List.length_set.trans h.length
  case root => exact (marked_discover hlt _).mpr (Or.inr h.root)
  case nodup =>
    show (x.pushed ++ [k]).Nodup
    rw [← List.concat_eq_append]
    exact h.nodup.concat hout
  case mem =>
    intro n
    rw [marked_discover hlt, ← h.mem, or_comm]
    exact List.mem_append.trans (or_congr_right List.mem_singleton)
  case nt =>
    have hkr : k ≠ rootNode t := fun heq => hnew (heq ▸ h.root)
    show (if inArcNum t k > 1 then x.nt + 1 else x.nt) = (x.pushed ++ [k]).countP _
    rw [List.countP_append, List.countP_singleton, ← h.nt]
    by_cases hin : 1 < inArcNum t k
    · simp [hin, hkr]
    · simp [hin]

-- ============================================================ the walk

/-- The counting between two turns. -/
structure CountInv (t : τ) (x : Count) : Prop where
  tally : Tally t x
  frontier : Frontier (targets t) (rootNode t) x.Marked x.stack.data

/-- A turn: all out-arcs of the node on top of the stack. -/
theorem CountInv.countNode (hclosed : Closed t) (h : CountInv t x)
    (hmore : x.stack.notEmpty = true) :
    ∃ a rest y, x.stack.data.Perm (a :: rest) ∧ a ∈ Finset.range (nodeNum t)
      ∧ Mcts.countNode t x = some y ∧ CountInv t y
      ∧ Scanned x.Marked rest (targets t a) y.Marked y.stack.data := by
  obtain ⟨htally, hfrontier⟩ := h
  obtain ⟨a, rest, hpop, hdata⟩ := Stack.exists_pop hmore
  have hperm : x.stack.data.Perm (a :: rest.data) := by
    rw [hdata]
    exact List.perm_append_singleton a rest.data
  have hmem : ∀ {n}, n ∈ a :: rest.data → x.Marked n := fun hn =>
    hfrontier.work_seen _ (hperm.mem_iff.mpr hn)
  have hat : a < nodeNum t := htally.length ▸ (hmem (List.mem_cons_self ..)).lt
  have hnodup := List.nodup_cons.mp (hperm.nodup_iff.mp hfrontier.nodup)
  -- the loop over the out-arcs of `a`
  obtain ⟨y, hloop, hy, hscan⟩ := Loops.foldlM_inv (f := Mcts.countArc t) (l := outArcs t a)
    (b := ({ x with stack := rest } : Count))
    (I := fun l y => Tally t y ∧ Scanned x.Marked rest.data (l.map Prod.snd) y.Marked y.stack.data)
    ⟨⟨htally.length, htally.root, htally.nodup, htally.mem, htally.nt⟩, .start _ hnodup.2⟩
    (by
      intro l b l' y hl hI
      obtain ⟨hy, hscan⟩ := hI
      have hb : b.2 < nodeNum t := hclosed.targets_lt hat
        (List.mem_map.mpr ⟨b, hl ▸ List.mem_append_right _ (List.mem_cons_self ..), rfl⟩)
      rw [List.map_append, List.map_singleton]
      by_cases hmarked : y.Marked b.2
      · exact ⟨y, countArc_of_marked hmarked, hy, hscan.skip hmarked⟩
      · have hlt : b.2 < y.visited.length := hy.length ▸ hb
        refine ⟨_, countArc_of_not_marked hlt hmarked, hy.discover hb hmarked, ?_⟩
        exact hscan.push (fun c hc => hmem (List.mem_cons_of_mem _ hc)) hmarked
          (marked_discover hlt) (List.perm_append_singleton _ _))
  refine ⟨a, rest.data, y, hperm, Finset.mem_range.mpr hat, ?_, ⟨hy, ?_⟩, hscan⟩
  · rw [Mcts.countNode, hpop]
    exact hloop
  · exact hfrontier.expand hperm hscan.seen_iff hscan.work_iff hscan.nodup

/-- The counting is a search from the root. -/
theorem count_isSearch (hclosed : Closed t) :
    IsSearch (targets t) (rootNode t) (Finset.range (nodeNum t))
      (fun x : Count => x.stack.notEmpty) (Mcts.countNode t) (CountInv t) Count.Marked
      (fun x => x.stack.data) where
  frontier h := h.frontier
  done _ hdone := Stack.data_of_not_notEmpty hdone
  turn h hmore := h.countNode hclosed hmore

/-- It returns, with what can be reached marked. -/
theorem countTranspositions_spec {m : Mcts τ} (hclosed : Closed m.tree) {fuel : Nat}
    (hfuel : nodeNum m.tree ≤ fuel) :
    ∃ x, m.countTranspositions fuel = some x ∧ Tally m.tree x
      ∧ ∀ n, x.Marked n ↔ Reachable (targets m.tree) (rootNode m.tree) n := by
  obtain ⟨x, hstart, htally, hstack, hmarked⟩ := tally_start hclosed
  have hinv : CountInv m.tree x := by
    refine ⟨htally, ?_⟩
    rw [hstack, show x.Marked = (· = rootNode m.tree) from funext fun n => propext (hmarked n)]
    exact .start _ _
  have hsearch := count_isSearch hclosed
  obtain ⟨y, hrun⟩ := hsearch.total hinv ((Finset.card_range _).trans_le hfuel)
  refine ⟨y, ?_, (hsearch.exit hinv hrun).1.tally, hsearch.seen_iff_reachable hinv hrun⟩
  rw [Mcts.countTranspositions, hstart, Option.bind_some]
  exact hrun

-- ========================================================== the result

variable [LawfulInArcs τ]

/-- What has been counted at the end. -/
theorem Tally.card_shared (h : Tally t x)
    (hmarked : ∀ n, x.Marked n ↔ Reachable (targets t) (rootNode t) n) :
    ∃ shared : Finset Nat, (∀ n, n ∈ shared ↔ Shared t n) ∧ x.nt = shared.card := by
  refine ⟨(x.pushed.filter fun n => n ≠ rootNode t ∧ 1 < inArcNum t n).toFinset, ?_, ?_⟩
  · intro n
    rw [List.mem_toFinset, List.mem_filter, decide_eq_true_eq, h.mem, Shared, ← hmarked]
    constructor
    · intro hn
      obtain ⟨hn, hroot, hin⟩ := hn
      exact ⟨hroot, hn, (one_lt_inArcNum_iff t (h.length ▸ hn.lt)).mp hin⟩
    · intro hn
      obtain ⟨hroot, hn, hin⟩ := hn
      exact ⟨hn, hroot, (one_lt_inArcNum_iff t (h.length ▸ hn.lt)).mpr hin⟩
  · rw [List.toFinset_card_of_nodup (h.nodup.filter _), ← List.countP_eq_length_filter]
    exact h.nt

/-- `numTranspositions ( )` of any digraph returns. It has pushed what can
be reached from the root, each node once, and what it returns is how many
of these nodes, the root left out, have more than one in-arc. -/
theorem numTranspositions_counts {m : Mcts τ} (hclosed : Closed m.tree) :
    ∀ fuel, nodeNum m.tree ≤ fuel → ∃ x, m.countTranspositions fuel = some x
      ∧ x.pushed.Nodup
      ∧ (∀ n, n ∈ x.pushed ↔ Reachable (targets m.tree) (rootNode m.tree) n)
      ∧ ∃ shared : Finset Nat, (∀ n, n ∈ shared ↔ Shared m.tree n)
        ∧ m.numTranspositions fuel = some shared.card := by
  intro fuel hfuel
  obtain ⟨x, hrun, htally, hmarked⟩ := countTranspositions_spec hclosed hfuel
  obtain ⟨shared, hshared, hcard⟩ := htally.card_shared hmarked
  refine ⟨x, hrun, htally.nodup, fun n => (htally.mem n).trans (hmarked n), shared, hshared, ?_⟩
  rw [Mcts.numTranspositions, hrun, Option.map_some, hcard]

/-- A digraph that has been moved to its node one: two children of the root
share a child, which leads back to the root, and one of them is a child of
the node cut off too. -/
def diamond : Mcts OneCellTree where
  tree :=
    { root := 1
      nodes := [(default, [(0, 1), (1, 2)]), (default, [(2, 2), (3, 3)]), (default, [(4, 4)]),
        (default, [(5, 4)]), (default, [(6, 1)])]
      arcs := List.replicate 7 default
      ids_lt := by decide }
  transpositionTable := .new
  notInitialized := false
  path := []
  pathSize := 0

/-- Two nodes of it are shared. -/
theorem numTranspositions_counts_diamond :
    (∀ fuel, nodeNum diamond.tree ≤ fuel → ∃ x, diamond.countTranspositions fuel = some x
      ∧ x.pushed.Nodup
      ∧ (∀ n, n ∈ x.pushed ↔ Reachable (targets diamond.tree) (rootNode diamond.tree) n)
      ∧ ∃ shared : Finset Nat, (∀ n, n ∈ shared ↔ Shared diamond.tree n)
        ∧ diamond.numTranspositions fuel = some shared.card)
      ∧ (diamond.countTranspositions 5).map Count.pushed = some [1, 2, 3, 4]
      ∧ diamond.numTranspositions 5 = some 2 := by
  refine ⟨numTranspositions_counts ⟨by decide, ?_⟩, by decide, by decide⟩
  intro n k hn hk
  exact (by decide : ∀ n < nodeNum diamond.tree, ∀ k ∈ targets diamond.tree n,
    k < nodeNum diamond.tree) n hn k hk

/-- In every run of the protocol, what `numTranspositions ( )` returns is
how many nodes are shared. -/
theorem reached_numTranspositions [LawfulSearchTree τ] {s₀ : G.State} {m : Mcts τ} {ph : Phase G}
    (h : Reached s₀ m ph) : ∃ shared : Finset Nat, (∀ n, n ∈ shared ↔ Shared m.tree n)
      ∧ ∀ fuel, nodeNum m.tree ≤ fuel → m.numTranspositions fuel = some shared.card := by
  have hclosed := reached_closed h
  obtain ⟨x, -, htally, hmarked⟩ := countTranspositions_spec hclosed le_rfl
  obtain ⟨shared, hshared, -⟩ := htally.card_shared hmarked
  refine ⟨shared, hshared, ?_⟩
  intro fuel hfuel
  obtain ⟨y, hrun, htally', hmarked'⟩ := countTranspositions_spec hclosed hfuel
  obtain ⟨shared', hshared', hcard⟩ := htally'.card_shared hmarked'
  have hsame : shared' = shared := by
    ext n
    rw [hshared, hshared']
  rw [Mcts.numTranspositions, hrun, Option.map_some, hcard, hsame]

end MctsConnectFour
