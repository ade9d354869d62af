/-
What `selectChildUCT ( )` finds when it is called.

It divides by the visits of the children and collects the best of them in
a container of `max_no_moves` links, without looking at either. Both are a
matter of how a tree comes about, and of nothing the hashes could spoil: a
child gets its visits before the iteration that has added its arc is over
(`ScoreInv.visited`, `ScoreInv.children`), and an arc is paid for by an
untried move (`Room`).

Where hashes collide, a line may be replayed on a state in which its moves
are not listed. `Strays` takes in these states; their lists of moves still
fit the container.
-/
import MctsConnectFour.Mcts.Descent
import MctsConnectFour.Mcts.Sound

namespace MctsConnectFour

open SearchTree LawfulSearchTree

-- ================================================================ states

/-- A state reached from `s₀` by any moves, listed or not. -/
inductive Strays {G : Game} (s₀ : G.State) : G.State → Prop
  | start : Strays s₀ s₀
  | move {s : G.State} (op : Game.MoveOp) (m : G.Move) :
      Strays s₀ s → Strays s₀ (G.apply op s m)

theorem Game.Played.strays {G : Game} {s₀ s : G.State} (h : G.Played s₀ s) : Strays s₀ s :=
  h.invariant (I := Strays s₀) .start fun _ op m hs _ _ => .move op m hs

/-- No player of Oska has more than `S` stones. -/
def Oska.FewStones {S : Nat} (s : Oska.State S) : Prop :=
  s.agentStoneId.length ≤ S ∧ s.humanStoneId.length ≤ S

theorem Oska.FewStones.moveStone {S : Nat} {T : Oska.Statics S} {s : Oska.State S}
    (h : FewStones s) (p : Player) (m : Oska.Move) : FewStones (s.moveStone T p m) := by
  obtain ⟨hagent, hhuman⟩ := h
  unfold State.moveStone
  split
  · exact ⟨List.length_replace.trans_le hagent, hhuman⟩
  · exact ⟨hagent, List.length_replace.trans_le hhuman⟩

theorem Oska.FewStones.captureStone {S : Nat} {T : Oska.Statics S} {s : Oska.State S}
    (h : FewStones s) (p : Player) (m : Oska.Move) : FewStones (s.captureStone T p m) := by
  unfold State.captureStone
  simp only
  split
  · exact ⟨h.1, (List.length_filter_le _ _).trans h.2⟩
  · exact ⟨(List.length_filter_le _ _).trans h.1, h.2⟩

/-- Moves put no stones on the board, whatever they are. -/
theorem Oska.FewStones.apply {S : Nat} {T : Oska.Statics S} {s : Oska.State S}
    (h : FewStones s) (op : Game.MoveOp) (m : Oska.Move) : FewStones ((game T).apply op s m) := by
  obtain ⟨hash, winner, heq⟩ := apply_eq (T := T) (s := s) (m := m) op
  have hlast : FewStones ({ s with lastMove := m } : State S) := h
  have hmoved := hlast.moveStone (T := T) s.playerToMove m
  have hplaced : FewStones (s.place T m) := by
    unfold State.place
    simp only
    split
    · exact hmoved.captureStone _ m
    · exact hmoved
  rw [heq]
  exact hplaced

/-- The searches of a stone list push at most two moves a stone. -/
theorem Oska.size_pushMoves {n : Nat} (f g : Int → Oska.Move) (l : List Int)
    (c : Moves Oska.Move n) :
    (l.foldl (fun m id =>
      let m' := if f id ≠ Oska.Move.invalid then m.pushBack (f id) else m
      if g id ≠ Oska.Move.invalid then m'.pushBack (g id) else m') c).size
      ≤ c.size + 2 * l.length := by
  induction l generalizing c with
  | nil => simp
  | cons id l ih =>
      rw [List.foldl_cons]
      refine (ih _).trans ?_
      rw [List.length_cons]
      split_ifs <;> simp only [Moves.pushBack] <;> omega

/-- The list of moves of a state that has gone astray fits its container. -/
theorem Setting.size_moves {G : Game} {s₀ : G.State} (h : Setting G s₀) {s : G.State}
    (hs : Strays s₀ s) : (G.moves s .new).2.size ≤ G.maxNoMoves := by
  cases h with
  | connectFour Z _ _ _ _ _ => exact (ConnectFour.moves_spec s .new).2.2
  | @oska S T s₀ hS hinit =>
      obtain ⟨-, hT, hstart⟩ := hinit.start hS
      have hcoherent := hstart.coherent hS hT
      have hfew : Oska.FewStones s := by
        induction hs with
        | start =>
            exact ⟨(hcoherent.viewed .agent (Or.inl rfl)).size,
              (hcoherent.viewed .human (Or.inr rfl)).size⟩
        | move op m _ ih => exact ih.apply op m
      show (s.moves T .new).2.size ≤ 2 * S
      unfold Oska.State.moves
      split
      · exact Nat.zero_le _
      · simp only
        split
        · have hpush := Oska.size_pushMoves
            (fun id => Oska.leftMove s.agentBoard (T.idToLocation.at' id).c (T.idToLocation.at' id).r)
            (fun id => Oska.rightMove s.agentBoard (T.idToLocation.at' id).c (T.idToLocation.at' id).r)
            s.agentStoneId (Moves.new : Moves Oska.Move (2 * S)).clear
          have hle := hfew.1
          simp only [Moves.size_clear] at hpush
          exact hpush.trans (by omega)
        · have hpush := Oska.size_pushMoves
            (fun id => Oska.leftMove s.humanBoard (T.idToLocation.atR id).c (T.idToLocation.atR id).r)
            (fun id => Oska.rightMove s.humanBoard (T.idToLocation.atR id).c (T.idToLocation.atR id).r)
            s.humanStoneId (Moves.new : Moves Oska.Move (2 * S)).clear
          have hle := hfew.2
          simp only [Moves.size_clear] at hpush
          exact hpush.trans (by omega)

-- ================================================================= room

variable {G : Game} {τ : Type} [SearchTree τ (ArcData G) (NodeData G)] {s₀ s : G.State}
  {m m' : Mcts τ} {t : τ}

/-- A node with so many out-arcs has untried moves for the arcs that are
left. A container that has been filled with nothing is never used up. -/
def Room (moves : Option (Moves G.Move G.maxNoMoves)) (arcs : Nat) : Prop :=
  match moves with
  | none => arcs ≤ G.maxNoMoves
  | some c => c.size = 0 ∨ arcs + c.size ≤ G.maxNoMoves

/-- A new node has room for all its moves. -/
theorem room_ofState (hsize : (G.moves s .new).2.size ≤ G.maxNoMoves) :
    Room (NodeData.ofState s : NodeData G).moves 0 := by
  unfold NodeData.ofState
  cases (G.moves s .new).1 with
  | true => exact Or.inr (by simpa using hsize)
  | false => exact Nat.zero_le _

/-- A move that is drawn makes room for an arc. -/
theorem Room.getUntriedMove {d : NodeData G} {arcs : Nat} (h : Room d.moves arcs)
    (hsome : d.moves.isSome = true) (ω : Rng) :
    Room (d.getUntriedMove ω).2.1.moves (arcs + 1) := by
  obtain ⟨c, hc⟩ := Option.isSome_iff_exists.mp hsome
  unfold NodeData.getUntriedMove
  rw [hc] at h
  simp only [hc]
  by_cases hone : c.size = 1
  · rw [if_pos hone]
    rcases h with hzero | hle
    · omega
    · show arcs + 1 ≤ G.maxNoMoves
      omega
  · rw [if_neg hone]
    show (c.draw ω).2.1.size = 0 ∨ arcs + 1 + (c.draw ω).2.1.size ≤ G.maxNoMoves
    rw [Moves.size_draw]
    rcases h with hzero | hle
    · omega
    · omega

/-- The node has the room its untried moves need. -/
def Roomy (t : τ) (n : Nat) : Prop := Room (node t n : NodeData G).moves (outArcs t n).length

/-- All nodes have, and `p` room for an arc more. -/
structure Spare (t : τ) (p : Nat) : Prop where
  lt : p < nodeNum t
  others : ∀ n, n < nodeNum t → n ≠ p → Roomy t n
  spare : Room (node t p : NodeData G).moves ((outArcs t p).length + 1)

section Grow

variable [LawfulSearchTree τ]

/-- Drawing a move of `p` makes room for an arc. -/
theorem spare_setNode (h : ∀ n, n < nodeNum t → Roomy (G := G) t n) {p : Nat} (hp : p < nodeNum t)
    (hsome : (node t p : NodeData G).moves.isSome = true) (ω : Rng) :
    Spare (G := G) (setNode t p ((node t p : NodeData G).getUntriedMove ω).2.1) p := by
  constructor
  case lt => rwa [nodeNum_setNode]
  case others =>
    intro n hn hne
    rw [nodeNum_setNode] at hn
    unfold Roomy
    rw [node_setNode t _ n hp, if_neg hne, outArcs_setNode]
    exact h n hn
  case spare =>
    rw [node_setNode t _ p hp, if_pos rfl, outArcs_setNode]
    exact (h p hp).getUntriedMove hsome ω

/-- A new node does not take any. -/
theorem Spare.addNode {p : Nat} (h : Spare (G := G) t p) {d : NodeData G} (hd : Room d.moves 0) :
    Spare (G := G) (SearchTree.addNode t d).1 p := by
  have hp := h.lt
  constructor
  case lt =>
    rw [nodeNum_addNode]
    omega
  case others =>
    intro n hn hne
    rw [nodeNum_addNode] at hn
    unfold Roomy
    rw [node_addNode, outArcs_addNode]
    split
    · exact hd
    · exact h.others n (by omega) hne
  case spare =>
    rw [node_addNode, outArcs_addNode, if_neg hp.ne, if_neg hp.ne]
    exact h.spare

/-- A new arc does. -/
theorem Spare.addArc {p : Nat} (h : Spare (G := G) t p) (k : Nat) (a : ArcData G) :
    ∀ n, n < nodeNum t → Roomy (G := G) (SearchTree.addArc t p k a).1 n := by
  intro n hn
  unfold Roomy
  rw [node_addArc, outArcs_addArc t k a n h.lt]
  split
  · next heq =>
      subst heq
      rw [List.length_append]
      exact h.spare
  · next hne => exact h.others n hn hne

/-- Adding a child: there is room for the arc, and what is not new is as
before. -/
theorem addChild_room {p : Nat} (h : Spare (G := G) m.tree p)
    (hsize : (G.moves s .new).2.size ≤ G.maxNoMoves) :
    ∀ n, n < nodeNum (m.addChild G p s).1.tree → Roomy (G := G) (m.addChild G p s).1.tree n
      ∧ (n < nodeNum m.tree ∧ (node (m.addChild G p s).1.tree n : NodeData G) = node m.tree n
        ∨ (m.addChild G p s).2.target = some n) := by
  intro n hn
  unfold Mcts.addChild at hn ⊢
  cases hfind : m.getNode (G.zobrist s) with
  | some child =>
      simp only [hfind] at hn
      have hold : n < nodeNum m.tree :=
        hn.trans_eq (nodeNum_addArc m.tree p child (ArcData.ofState s))
      exact ⟨h.addArc child _ n hold, Or.inl ⟨hold, node_addArc ..⟩⟩
  | none =>
      have hid : (SearchTree.addNode m.tree (NodeData.ofState s)).2 = nodeNum m.tree := addNode_id ..
      have hnode := h.addNode (room_ofState hsize)
      simp only [hfind, Mcts.addNode, Mcts.addArc, hid, nodeNum_addArc] at hn ⊢
      refine ⟨hnode.addArc _ _ n hn, ?_⟩
      rw [nodeNum_addNode] at hn
      by_cases hnew : n = nodeNum m.tree
      · exact Or.inr (congrArg some hnew.symm)
      · left
        refine ⟨by omega, ?_⟩
        rw [node_addArc, node_addNode, if_neg hnew]

/-- What an expansion does to room and visits. -/
structure Grown (m : Mcts τ) (d : Descent G) (r : Mcts τ × Descent G) : Prop where
  room : ∀ n, n < nodeNum r.1.tree → Roomy (G := G) r.1.tree n
  path : ∃ more, r.2.path = d.path ++ more
  visits : ∀ n, n < nodeNum r.1.tree →
    n < nodeNum m.tree ∧ (node r.1.tree n : NodeData G).visits = (node m.tree n : NodeData G).visits
      ∨ some n ∈ r.2.path.map Link.target

theorem expand_grown (h : ∀ n, n < nodeNum m.tree → Roomy (G := G) m.tree n) {d : Descent G}
    (hnode : d.node < nodeNum m.tree)
    (hsize : ∀ move, (G.moves (G.moveHashWinner d.state move) .new).2.size ≤ G.maxNoMoves) :
    Grown m d (m.expand G d) := by
  cases hsome : m.hasUntriedMoves G d.node with
  | false =>
      rw [expand_none hsome]
      exact ⟨h, ⟨[], (List.append_nil _).symm⟩, fun n hn => Or.inl ⟨hn, rfl⟩⟩
  | true =>
      have hspare := spare_setNode h hnode hsome d.rng
      have hvisits := getUntriedMove_visits (node m.tree d.node : NodeData G) d.rng
      unfold Mcts.expand
      rw [if_pos hsome]
      generalize (node m.tree d.node : NodeData G).getUntriedMove d.rng = drawn at hspare hvisits
      obtain ⟨move, data, ω⟩ := drawn
      have hadded := addChild_room (m := { m with tree := SearchTree.setNode m.tree d.node data })
        hspare (hsize move)
      refine ⟨fun n hn => (hadded n hn).1, ⟨_, rfl⟩, fun n hn => ?_⟩
      rcases (hadded n hn).2 with ⟨hold, heq⟩ | htarget
      · left
        have hold' : n < nodeNum m.tree := hold.trans_eq (nodeNum_setNode ..)
        refine ⟨hold', (congrArg NodeData.visits heq).trans ?_⟩
        show (node (SearchTree.setNode m.tree d.node data) n : NodeData G).visits = _
        rw [node_setNode _ _ _ hnode]
        split
        · next heq' => rw [heq', ← hvisits]
        · rfl
      · right
        rw [List.map_append]
        exact List.mem_append_right _ (List.mem_singleton.mpr htarget.symm)

end Grow

-- ============================================================ invariant

/-- What holds of an initialised `Mcts` between any two steps. -/
structure ScoreInv (m : Mcts τ) : Prop where
  sound : Sound m
  room : ∀ n, n < nodeNum m.tree → Roomy (G := G) m.tree n
  /-- who has not been visited is about to be -/
  visited : ∀ n, n < nodeNum m.tree →
    1 ≤ (node m.tree n : NodeData G).visits ∨ some n ∈ m.path.map Link.target
  children : ∀ n, n < nodeNum m.tree → ∀ k ∈ targets m.tree n,
    1 ≤ (node m.tree k : NodeData G).visits

theorem mem_targets_iff {n k : Nat} :
    k ∈ targets t n ↔ ∃ e ∈ (edges t n : List (ArcData G × Nat)), e.2 = k := by
  unfold targets edges
  simp only [List.mem_map, exists_exists_and_eq_and]

/-- It does not matter where the root is, and the path may grow. -/
theorem ScoreInv.congr (h : ScoreInv m) (hsound : Sound m')
    (hnum : nodeNum m'.tree = nodeNum m.tree) (hout : ∀ n, outArcs m'.tree n = outArcs m.tree n)
    (hnode : ∀ n, (node m'.tree n : NodeData G) = node m.tree n)
    (hpath : ∃ more, m'.path = m.path ++ more) : ScoreInv m' := by
  obtain ⟨more, hmore⟩ := hpath
  constructor
  case sound => exact hsound
  case room =>
    intro n hn
    unfold Roomy
    rw [hnode, hout]
    exact h.room n (hnum ▸ hn)
  case visited =>
    intro n hn
    rw [hnode, hmore, List.map_append]
    rcases h.visited n (hnum ▸ hn) with hvisited | hon
    · exact Or.inl hvisited
    · exact Or.inr (List.mem_append_left _ hon)
  case children =>
    intro n hn k hk
    unfold targets at hk
    rw [hout] at hk
    rw [hnode]
    exact h.children n (hnum ▸ hn) k hk

/-- What `prune ( )` copies keeps its visits and its room; the node that
becomes the root is on the new path. -/
theorem ScoreInv.of_pruned (h : ScoreInv m) {old : Nat} (hold : old < nodeNum m.tree)
    {f : Nat → Option Nat} (hpruned : Pruned m old m' f) : ScoreInv m' := by
  have hcopy := hpruned.copy
  have hreach : ∀ {n k}, f n = some k →
      Worklist.Reachable (targets m.tree) old n ∧ n < nodeNum m.tree := by
    intro n k hn
    have hreach := (hcopy.reachable n).mp (by rw [hn]; simp)
    exact ⟨hreach, h.sound.tree.reachable_lt hold hreach⟩
  constructor
  case sound => exact h.sound.of_pruned hold hpruned
  case room =>
    intro k hk
    obtain ⟨n, hn⟩ := (hcopy.image k).mp hk
    have hlen := (hcopy.arcs hn).length_eq
    unfold edges at hlen
    rw [List.length_map, List.length_map] at hlen
    unfold Roomy
    rw [hcopy.data hn, ← hlen]
    exact h.room n (hreach hn).2
  case visited =>
    intro k hk
    obtain ⟨n, hn⟩ := (hcopy.image k).mp hk
    rcases Relation.ReflTransGen.cases_tail (hreach hn).1 with heq | ⟨parent, hparent, hedge⟩
    · right
      rw [heq, hcopy.root] at hn
      rw [hpruned.path.1, ← hn]
      exact List.mem_singleton.mpr rfl
    · left
      obtain ⟨k', hk'⟩ := Option.ne_none_iff_exists'.mp ((hcopy.reachable parent).mpr hparent)
      rw [hcopy.data hn]
      exact h.children parent (hreach hk').2 n hedge
  case children =>
    intro i hi k hk
    obtain ⟨n, hn⟩ := (hcopy.image i).mp hi
    obtain ⟨e, he, rfl⟩ := mem_targets_iff.mp hk
    obtain ⟨e₀, he₀, -, hsame⟩ := (hcopy.arcs hn).exists_of_mem he
    rw [hcopy.data hsame]
    exact h.children n (hreach hn).2 _ (mem_targets_iff.mpr ⟨e₀, he₀, rfl⟩)

-- ================================================================= steps

section Steps

variable [LawfulSearchTree τ]

/-- The root of a new tree is on the path, and has no children. -/
theorem scoreInv_initializeRoot (hsize : (G.moves s .new).2.size ≤ G.maxNoMoves) :
    ScoreInv (Mcts.initializeRoot G (.new : Mcts τ) s) := by
  have hzero : rootNode (Mcts.new : Mcts τ).tree = 0 := rootNode_new
  generalize hm : Mcts.initializeRoot G (.new : Mcts τ) s = m
  have hone : OneNode m.tree (NodeData.ofState s) := by
    rw [← hm]
    exact oneNode_setNode_new _
  constructor
  case sound =>
    rw [← hm]
    exact sound_initializeRoot s
  case room =>
    intro n hn
    unfold Roomy
    rw [hone.no_arcs, hone.eq_zero hn, hone.data]
    exact room_ofState hsize
  case visited =>
    intro n hn
    right
    rw [← hm, hone.eq_zero hn, ← hzero]
    exact List.mem_singleton.mpr rfl
  case children =>
    intro n _ k hk
    unfold targets at hk
    rw [hone.no_arcs] at hk
    cases hk

omit [LawfulSearchTree τ] in
/-- The states of the selection may have gone astray. -/
theorem descend_strays (hs : Strays s₀ s) {fuel : Nat} {ω : Rng} {d : Descent G}
    (hrun : m.descend G fuel s ω = some d) : Strays s₀ d.state := by
  refine (Loops.whileLoop_inv (I := fun d : Descent G => Strays s₀ d.state) ?_ hs hrun).1
  intro d d' hd _ hstep
  obtain rfl := Option.some.inj hstep
  exact .move .moveHash _ hd

/-- After an iteration every node has been visited. -/
theorem ScoreInv.iteration (h : ScoreInv m) (hs : Strays s₀ s)
    (hsize : ∀ s, Strays s₀ s → (G.moves s .new).2.size ≤ G.maxNoMoves) {fuel : Nat} {ω : Rng}
    {turn : Turn τ G} (hrun : m.iteration G fuel s ω = some turn) : ScoreInv turn.mcts := by
  have hturn := iteration_sound h.sound.tree h.sound.path hrun
  unfold Mcts.iteration at hrun
  obtain ⟨d, hdescend, hrest⟩ := Option.bind_eq_some_iff.mp hrun
  obtain ⟨x, hx, rfl⟩ := Option.map_eq_some_iff.mp hrest
  obtain ⟨hnode, hdpath⟩ := descend_inside h.sound.tree h.sound.path hdescend
  obtain ⟨⟨links, hlinks, -⟩, -⟩ := descend_walk hdescend
  have hstrays := descend_strays hs hdescend
  have hexp := expand_expanded h.sound.tree hnode hdpath
  have hgrown := expand_grown h.room hnode fun move =>
    hsize _ (.move .moveHashWinner move hstrays)
  generalize m.expand G d = r at hexp hgrown hx hturn
  obtain ⟨-, hshape, -, hvisits⟩ := playouts_spec (valid_of_playouts hexp.path hx) hx
  obtain ⟨more, hmore⟩ := hgrown.path
  have hall : ∀ n, n < nodeNum r.1.tree → 1 ≤ (node x.2.1 n : NodeData G).visits := by
    intro n hn
    have hold := hexp.tree.visits hn
    rw [hvisits n hn]
    by_cases hon : some n ∈ r.2.path.map Link.target
    · have hentry : 0 < entries r.2.path n := List.count_pos_iff.mpr hon
      omega
    · rcases hgrown.visits n hn with ⟨hlt, heq⟩ | hon'
      · rcases h.visited n hlt with hvisited | hon'
        · omega
        · refine absurd ?_ hon
          rw [hmore, hlinks, List.append_assoc, List.map_append]
          exact List.mem_append_left _ hon'
      · exact absurd hon' hon
  constructor
  case sound => exact ⟨hturn.initialized.trans h.sound.initialized, hturn.tree, hturn.path⟩
  case room =>
    intro n hn
    have hn' : n < nodeNum r.1.tree := hshape.num ▸ hn
    have hroom := hgrown.room n hn'
    have hlen := congrArg List.length (hshape.edges n)
    unfold edges at hlen
    rw [List.length_map, List.length_map] at hlen
    unfold Roomy at hroom ⊢
    show Room (node x.2.1 n : NodeData G).moves (outArcs x.2.1 n).length
    rw [(hshape.node n hn').1, hlen]
    exact hroom
  case visited => exact fun n hn => Or.inl (hall n (hshape.num ▸ hn))
  case children =>
    intro n hn k hk
    have hk' := hturn.tree.targets_lt hn hk
    exact hall k (hshape.num ▸ hk')

/-- What a phase knows of the table: between `prune` or `reset` and
`compute` the state is that of the root. -/
def Given (m : Mcts τ) : Phase G → Prop
  | .between none => True
  | .between (some s) => m.getNode (G.zobrist s) = some (rootNode m.tree)
  | .running _ => True

/-- `prune ( )` leaves a new `Mcts`, or one in which the state is that of
the root. -/
theorem ScoreInv.prune (h : ScoreInv m) {fuel : Nat} (hrun : m.prune G fuel s = some m') :
    m' = .new ∨ ScoreInv m' ∧ Given m' (.between (some s)) := by
  rcases prune_cases h.sound.initialized h.sound.tree.targets_lt h.sound.tree.find_lt hrun
    with hnew | ⟨old, f, hfind, hpruned⟩
  · exact Or.inl hnew
  · refine Or.inr ⟨h.of_pruned (h.sound.tree.find_lt hfind) hpruned, ?_⟩
    show m'.transpositionTable.find (G.zobrist s) = _
    rw [hpruned.table, show m.transpositionTable.find (G.zobrist s) = some old from hfind]
    exact hpruned.copy.root

/-- After `reset ( )` the state is that of the root. -/
theorem ScoreInv.reset (h : ScoreInv m) (hsize : (G.moves s .new).2.size ≤ G.maxNoMoves) :
    ScoreInv (m.reset G s) ∧ Given (m.reset G s) (.between (some s)) := by
  unfold Mcts.reset
  rw [h.sound.initialized, if_neg (by decide)]
  cases hfind : m.getNode (G.zobrist s) with
  | none =>
      refine ⟨scoreInv_initializeRoot hsize, ?_⟩
      show (TranspositionTable.new.emplace (G.zobrist s) (rootNode (SearchTree.new : τ))).find
        (G.zobrist s) = some (rootNode (SearchTree.setNode _ _ _))
      rw [TranspositionTable.find_emplace, if_pos ⟨rfl, TranspositionTable.find_new _⟩,
        rootNode_setNode]
      rfl
  | some newRoot =>
      have hlt := h.sound.tree.find_lt hfind
      have hsound : Sound { m with
          tree := setRootNode m.tree newRoot
          notInitialized := false } :=
        ⟨rfl, h.sound.tree.setRootNode hlt, h.sound.path.mono (nodeNum_setRootNode ..).ge⟩
      refine ⟨h.congr hsound (nodeNum_setRootNode ..) (outArcs_setRootNode _ _)
        (node_setRootNode _ _) ⟨[], (List.append_nil _).symm⟩, ?_⟩
      show m.transpositionTable.find (G.zobrist s) = some (rootNode (setRootNode m.tree newRoot))
      rw [rootNode_setRootNode m.tree hlt]
      exact hfind

/-- `connectStatesPath ( )` puts nodes on the path. -/
theorem ScoreInv.connectStatesPath (h : ScoreInv m) (hgiven : Given m (.between (some s)))
    (hrun : m.connectStatesPath G s = some m') : ScoreInv m' := by
  have hsound := h.sound.connectStatesPath hrun
  unfold Mcts.connectStatesPath at hrun
  obtain ⟨parent, -, rfl⟩ := Option.map_eq_some_iff.mp hrun
  have hfind : m.getNode (G.zobrist s) = some (rootNode m.tree) := hgiven
  simp only [hfind] at hsound ⊢
  exact h.congr hsound rfl (fun _ => rfl) (fun _ => rfl) ⟨_, rfl⟩

/-- In every run of the protocol, whatever the hashes. -/
theorem reached_scores (hsize : ∀ s, Strays s₀ s → (G.moves s .new).2.size ≤ G.maxNoMoves)
    {ph : Phase G} (h : Reached s₀ m ph) :
    (m = .new ∧ ∃ given, ph = .between given)
      ∨ ScoreInv m ∧ Given m ph ∧ ∀ s, ph = .running s → G.Played s₀ s := by
  induction h with
  | new => exact Or.inl ⟨rfl, none, rfl⟩
  | @prune m m' given s fuel _ hs hrun ih =>
      rcases ih with ⟨rfl, -⟩ | ⟨hm, -⟩
      · rw [← Option.some.inj hrun]
        exact Or.inl ⟨rfl, _, rfl⟩
      · rcases hm.prune hrun with rfl | ⟨hm', hgiven⟩
        · exact Or.inl ⟨rfl, _, rfl⟩
        · exact Or.inr ⟨hm', hgiven, nofun⟩
  | @reset m given s _ hs ih =>
      rcases ih with ⟨rfl, -⟩ | ⟨hm, -⟩
      · exact Or.inl ⟨rfl, _, rfl⟩
      · obtain ⟨hm', hgiven⟩ := hm.reset (hsize s hs.strays)
        exact Or.inr ⟨hm', hgiven, nofun⟩
  | @begin m m' given s hreached hmay hs hrun ih =>
      have hrunning : ∀ t, Phase.running s = Phase.running t → G.Played s₀ t := by
        intro t ht
        obtain rfl := Phase.running.inj ht
        exact hs
      rcases ih with ⟨rfl, -⟩ | ⟨hm, hgiven, -⟩
      · rw [begin_new] at hrun
        rw [← Option.some.inj hrun]
        exact Or.inr ⟨scoreInv_initializeRoot (hsize s hs.strays), trivial, hrunning⟩
      · rw [begin_initialized hm.sound.initialized] at hrun
        rcases hmay with rfl | ⟨-, hfresh⟩
        · exact Or.inr ⟨hm.connectStatesPath hgiven hrun, trivial, hrunning⟩
        · rw [hm.sound.initialized] at hfresh
          cases hfresh
  | @iterate m s fuel ω turn _ hrun ih =>
      rcases ih with ⟨-, given, hph⟩ | ⟨hm, -, hplayed⟩
      · cases hph
      · exact Or.inr ⟨hm.iteration (hplayed s rfl).strays hsize hrun, trivial, hplayed⟩
  | @finish m s hreached ih =>
      rcases ih with ⟨-, given, hph⟩ | ⟨hm, -, -⟩
      · cases hph
      · refine Or.inr ⟨hm.congr ?_ rfl (fun _ => rfl) (fun _ => rfl) ⟨_, rfl⟩, trivial, nofun⟩
        rcases reached_sound hreached.finish with ⟨hnew, -⟩ | hsound
        · have hinit := congrArg Mcts.notInitialized hnew
          rw [show ((m.getBestMove G).2).notInitialized = m.notInitialized from rfl,
            hm.sound.initialized] at hinit
          cases hinit
        · exact hsound

end Steps

-- ========================================================= the selection

/-- A selection from `s` with the outcomes `ω` calls `selectChildUCT ( )`
with `n`. -/
def Selected (m : Mcts τ) (s : G.State) (ω : Rng) (n : Nat) : Prop :=
  ∃ d : Descent G,
    Loops.Met (fun d => !m.hasUntriedMoves G d.node && m.hasChildren G d.node)
      (fun d => some (Mcts.selectChild G m.tree d)) ⟨s, rootNode m.tree, m.path, [], ω⟩ d
    ∧ (!m.hasUntriedMoves G d.node && m.hasChildren G d.node) = true ∧ d.node = n

/-- What `selectChildUCT ( )` relies on. -/
structure Scorable (t : τ) (parent : Nat) : Prop where
  children : outArcs t parent ≠ []
  /-- the divisors of `getUCTFromNode ( )`, and what it takes the logarithm of -/
  visits : ∀ a ∈ outArcs t parent, 1 ≤ (node t a.2 : NodeData G).visits
  parentVisits : 1 ≤ (node t parent : NodeData G).visits + 1
  few : (outArcs t parent).length ≤ G.maxNoMoves
  /-- `best_children`, after any number of children -/
  best : ∀ a rest seen, outArcs t parent = a :: rest → seen <+: rest →
    (seen.foldl (Mcts.bestChildren G t parent)
      ([a], Mcts.getUCTFromNode G t parent a.2)).1.length ≤ G.maxNoMoves

/-- Each child makes the best ones more by one at most. -/
theorem length_bestChildren (t : τ) (parent : Nat) (seen : List (Nat × Nat))
    (best : List (Nat × Nat) × Float32) (hne : 1 ≤ best.1.length) :
    (seen.foldl (Mcts.bestChildren G t parent) best).1.length
      ≤ best.1.length + seen.length := by
  induction seen generalizing best with
  | nil => exact le_rfl
  | cons a seen ih =>
      have hstep : 1 ≤ (Mcts.bestChildren G t parent best a).1.length
          ∧ (Mcts.bestChildren G t parent best a).1.length ≤ best.1.length + 1 := by
        unfold Mcts.bestChildren
        simp only
        split_ifs
        · simp
        · simp
        · omega
      have hrest := ih _ hstep.1
      rw [List.foldl_cons, List.length_cons]
      omega

/-- Every node of the selection is one of the tree. -/
theorem selected_lt (h : SoundTree m.tree m.transpositionTable) {ω : Rng} {n : Nat}
    (hn : Selected m s ω n) : n < nodeNum m.tree := by
  obtain ⟨d, hmet, -, rfl⟩ := hn
  refine hmet.inv (I := fun d : Descent G => d.node < nodeNum m.tree) ?_ h.root_lt
  intro d d' hd hmore hstep
  obtain rfl := Option.some.inj hstep
  have hgo := (goesOn_iff d.node).mp hmore
  exact h.target_lt hd
    (mem_edges_of_outArcs (selectChildUCT_mem (G := G) m.tree d.node d.rng hgo.2))

/-- With the invariant, it is called with nodes that can be scored. -/
theorem ScoreInv.scorable (h : ScoreInv m) {ω : Rng} {n : Nat} (hn : Selected m s ω n) :
    Scorable m.tree n := by
  have hlt := selected_lt h.sound.tree hn
  obtain ⟨d, -, hmore, rfl⟩ := hn
  obtain ⟨hnone, hint⟩ := (goesOn_iff d.node).mp hmore
  have hfew : (outArcs m.tree d.node).length ≤ G.maxNoMoves := by
    have hroom := h.room d.node hlt
    unfold Roomy at hroom
    rw [hnone] at hroom
    exact hroom
  constructor
  case children =>
    intro hnil
    rw [isInternal, hnil] at hint
    cases hint
  case visits =>
    intro a ha
    exact h.children d.node hlt a.2 (List.mem_map.mpr ⟨a, ha, rfl⟩)
  case parentVisits =>
    have hvisits := h.sound.tree.visits hlt
    omega
  case few => exact hfew
  case best =>
    intro a rest seen hout hseen
    have hbest := length_bestChildren (G := G) m.tree d.node seen
      ([a], Mcts.getUCTFromNode G m.tree d.node a.2) le_rfl
    have hlen := hseen.length_le
    rw [hout, List.length_cons] at hfew
    rw [List.length_singleton] at hbest
    omega

variable [LawfulSearchTree τ]

end MctsConnectFour
