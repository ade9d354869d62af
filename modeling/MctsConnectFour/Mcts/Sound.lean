/-
What holds of the search without any assumption on the hashes.

When the hashes of two positions collide, a node stands for more than one
of them, and `TreeInv` is lost. Less remains, and is enough for the ids to
be valid: the table, the arcs and the path lead to nodes of the tree, and
visits are not negative (`SoundTree`, `Inside`). `Extends` is what all of
`compute` does to a tree: it grows. The out-arcs there are stay where they
are, and a node whose moves are not all tried has a child after it has been
expanded.

`reached_sound` is the induction over the runs of the protocol.
-/
import MctsConnectFour.Mcts.Protocol

namespace MctsConnectFour

open SearchTree LawfulSearchTree

variable {G : Game} {τ : Type} [SearchTree τ (ArcData G) (NodeData G)]

-- ================================================================ trees

/-- Ids that are kept are ids of nodes. -/
structure SoundTree (t : τ) (T : TranspositionTable) : Prop where
  root_lt : rootNode t < nodeNum t
  find_lt : ∀ {h n}, T.find h = some n → n < nodeNum t
  target_lt : ∀ {n e}, n < nodeNum t → e ∈ edges t n → e.2 < nodeNum t
  visits : ∀ {n}, n < nodeNum t → 0 ≤ (node t n : NodeData G).visits

/-- So are those of a path, as far as they are valid. -/
def Inside (t : τ) (path : List Link) : Prop :=
  ∀ l ∈ path, ∀ n, l.target = some n → n < nodeNum t

/-- A tree that has grown out of another. -/
structure Extends (t t' : τ) : Prop where
  root : rootNode t' = rootNode t
  num_le : nodeNum t ≤ nodeNum t'
  edges : ∀ {n}, n < nodeNum t → ∃ more, edges t' n = SearchTree.edges t n ++ more

variable {t t' : τ} {T : TranspositionTable} {path : List Link} {m m' : Mcts τ} {s₀ s : G.State}

theorem Extends.refl (t : τ) : Extends t t := ⟨rfl, le_rfl, fun _ => ⟨[], (List.append_nil _).symm⟩⟩

theorem Extends.trans {t'' : τ} (h : Extends t t') (h' : Extends t' t'') : Extends t t'' := by
  refine ⟨h'.root.trans h.root, h.num_le.trans h'.num_le, fun {n} hn => ?_⟩
  obtain ⟨more, hmore⟩ := h.edges hn
  obtain ⟨more', hmore'⟩ := h'.edges (hn.trans_le h.num_le)
  exact ⟨more ++ more', by rw [hmore', hmore, List.append_assoc]⟩

/-- A child is not lost. -/
theorem Extends.isInternal (h : Extends t t') {n : Nat} (hn : n < nodeNum t)
    (hint : isInternal t n = true) : isInternal t' n = true := by
  rw [isInternal_iff] at hint ⊢
  obtain ⟨more, hmore⟩ := h.edges hn
  rw [hmore]
  exact List.append_ne_nil_of_left_ne_nil hint more

theorem Inside.mono (h : Inside t path) (hext : nodeNum t ≤ nodeNum t') : Inside t' path :=
  fun l hl n hn => (h l hl n hn).trans_le hext

theorem Inside.concat (h : Inside t path) {l : Link} (hl : ∀ n, l.target = some n → n < nodeNum t) :
    Inside t (path ++ [l]) :=
  List.forall_mem_append.mpr ⟨h, fun l' hl' => by rwa [List.mem_singleton.mp hl']⟩

/-- Which trees with a table are like one that is sound. -/
theorem SoundTree.of_sameShape (h : SoundTree t T) (hsame : SameShape (G := G) t t')
    (hvisits : ∀ n, n < nodeNum t → 0 ≤ (node t' n : NodeData G).visits) : SoundTree t' T where
  root_lt := by rw [hsame.root, hsame.num]; exact h.root_lt
  find_lt hfind := hsame.num ▸ h.find_lt hfind
  target_lt hn he := by
    rw [hsame.num] at hn ⊢
    exact h.target_lt hn (hsame.edges _ ▸ he)
  visits hn := hvisits _ (hsame.num ▸ hn)

theorem Extends.of_sameShape (h : SameShape (G := G) t t') : Extends t t' :=
  ⟨h.root, h.num.ge, fun _ => ⟨[], by rw [h.edges, List.append_nil]⟩⟩

section Operations

variable [LawfulSearchTree τ]

theorem SoundTree.setNode (h : SoundTree t T) {n : Nat} (hn : n < nodeNum t) {d : NodeData G}
    (hd : 0 ≤ d.visits) : SoundTree (setNode t n d) T := by
  constructor
  case root_lt => rw [rootNode_setNode, nodeNum_setNode]; exact h.root_lt
  case find_lt =>
    intro hash k hfind
    rw [nodeNum_setNode]
    exact h.find_lt hfind
  case target_lt =>
    intro k e hk he
    rw [nodeNum_setNode] at hk ⊢
    rw [edges_setNode] at he
    exact h.target_lt hk he
  case visits =>
    intro k hk
    rw [nodeNum_setNode] at hk
    rw [node_setNode t d k hn]
    split
    · exact hd
    · exact h.visits hk

theorem extends_setNode (t : τ) (n : Nat) (d : NodeData G) : Extends t (setNode t n d) :=
  ⟨rootNode_setNode t n d, (nodeNum_setNode t n d).ge,
    fun _ => ⟨[], by rw [edges_setNode, List.append_nil]⟩⟩

theorem SoundTree.setRootNode (h : SoundTree t T) {n : Nat} (hn : n < nodeNum t) :
    SoundTree (setRootNode t n) T := by
  constructor
  case root_lt => rw [rootNode_setRootNode t hn, nodeNum_setRootNode]; exact hn
  case find_lt =>
    intro hash k hfind
    rw [nodeNum_setRootNode]
    exact h.find_lt hfind
  case target_lt =>
    intro k e hk he
    rw [nodeNum_setRootNode] at hk ⊢
    rw [edges_setRootNode] at he
    exact h.target_lt hk he
  case visits =>
    intro k hk
    rw [nodeNum_setRootNode] at hk
    rw [node_setRootNode]
    exact h.visits hk

/-- A new node, found under a hash. -/
theorem SoundTree.addNode (h : SoundTree t T) (hash : UInt64) {d : NodeData G}
    (hd : 0 ≤ d.visits) :
    SoundTree (SearchTree.addNode t d).1 (T.emplace hash (nodeNum t)) := by
  have hnum : nodeNum (SearchTree.addNode t d).1 = nodeNum t + 1 := nodeNum_addNode t d
  constructor
  case root_lt => rw [rootNode_addNode, hnum]; exact Nat.lt_succ_of_lt h.root_lt
  case find_lt =>
    intro hash' n hfind
    rw [TranspositionTable.find_emplace] at hfind
    rw [hnum]
    split at hfind
    · obtain rfl := Option.some.inj hfind
      exact Nat.lt_succ_self _
    · exact Nat.lt_succ_of_lt (h.find_lt hfind)
  case target_lt =>
    intro k e hk he
    rw [hnum] at hk ⊢
    rw [edges_addNode] at he
    split at he
    · cases he
    · next hne => exact Nat.lt_succ_of_lt (h.target_lt (by omega) he)
  case visits =>
    intro k hk
    rw [hnum] at hk
    rw [node_addNode]
    split
    · exact hd
    · next hne => exact h.visits (by omega)

theorem extends_addNode (t : τ) (d : NodeData G) : Extends t (SearchTree.addNode t d).1 := by
  refine ⟨rootNode_addNode t d, by rw [nodeNum_addNode]; exact Nat.le_succ _, fun {n} hn => ?_⟩
  exact ⟨[], by rw [edges_addNode, if_neg (Nat.ne_of_lt hn), List.append_nil]⟩

theorem SoundTree.addArc (h : SoundTree t T) {n k : Nat} (hn : n < nodeNum t) (hk : k < nodeNum t)
    (d : ArcData G) : SoundTree (SearchTree.addArc t n k d).1 T := by
  have hnum : nodeNum (SearchTree.addArc t n k d).1 = nodeNum t := nodeNum_addArc t n k d
  constructor
  case root_lt => rw [rootNode_addArc, hnum]; exact h.root_lt
  case find_lt =>
    intro hash i hfind
    rw [hnum]
    exact h.find_lt hfind
  case target_lt =>
    intro i e hi he
    rw [hnum] at hi ⊢
    rw [edges_addArc t k d i hn] at he
    split at he
    · rcases List.mem_append.mp he with he | he
      · exact h.target_lt hi he
      · rw [List.mem_singleton.mp he]
        exact hk
    · exact h.target_lt hi he
  case visits =>
    intro i hi
    rw [hnum] at hi
    rw [node_addArc]
    exact h.visits hi

theorem extends_addArc (t : τ) {n : Nat} (k : Nat) (d : ArcData G) (hn : n < nodeNum t) :
    Extends t (SearchTree.addArc t n k d).1 := by
  refine ⟨rootNode_addArc t n k d, (nodeNum_addArc t n k d).ge, fun {i} _ => ?_⟩
  rw [edges_addArc t k d i hn]
  split
  · exact ⟨_, rfl⟩
  · exact ⟨[], (List.append_nil _).symm⟩

/-- The source of a new arc has a child. -/
theorem isInternal_addArc (t : τ) {n : Nat} (k : Nat) (d : ArcData G) (hn : n < nodeNum t) :
    isInternal (SearchTree.addArc t n k d).1 n = true := by
  rw [isInternal_iff, edges_addArc t k d n hn, if_pos rfl]
  exact List.append_ne_nil_of_right_ne_nil _ (List.cons_ne_nil _ _)

end Operations

-- ============================================================ iterations

section Iteration

variable [LawfulSearchTree τ]

/-- What adding a child does. -/
structure ChildAdded (m : Mcts τ) (parent : Nat) (r : Mcts τ × Link) : Prop where
  tree : SoundTree r.1.tree r.1.transpositionTable
  extends_tree : Extends m.tree r.1.tree
  internal : isInternal r.1.tree parent = true
  target : ∀ n, r.2.target = some n → n < nodeNum r.1.tree
  rest : r.1.path = m.path ∧ r.1.pathSize = m.pathSize ∧ r.1.notInitialized = m.notInitialized

/-- A child is added with a node of its own. -/
theorem addNode_added (h : SoundTree m.tree m.transpositionTable) {parent : Nat}
    (hparent : parent < nodeNum m.tree) (s : G.State) :
    ChildAdded m parent (m.addNode G parent s)
      ∧ nodeNum (m.addNode G parent s).1.tree = nodeNum m.tree + 1 := by
  have hid : (SearchTree.addNode m.tree (NodeData.ofState s)).2 = nodeNum m.tree := addNode_id ..
  have hnode := h.addNode (G.zobrist s) (d := NodeData.ofState s) (le_refl (0 : Int))
  have hnum : nodeNum (SearchTree.addNode m.tree (NodeData.ofState s)).1 = nodeNum m.tree + 1 :=
    nodeNum_addNode ..
  have hext := extends_addNode m.tree (NodeData.ofState s)
  have hparent' : parent < nodeNum (SearchTree.addNode m.tree (NodeData.ofState s)).1 :=
    hparent.trans_le hext.num_le
  have hchild : nodeNum m.tree < nodeNum (SearchTree.addNode m.tree (NodeData.ofState s)).1 := by
    rw [hnum]
    exact Nat.lt_succ_self _
  simp only [Mcts.addNode, Mcts.addArc, hid]
  refine ⟨?_, (nodeNum_addArc ..).trans hnum⟩
  constructor
  case tree => exact hnode.addArc hparent' hchild _
  case extends_tree => exact hext.trans (extends_addArc _ _ _ hparent')
  case internal => exact isInternal_addArc _ _ _ hparent'
  case target =>
    intro n hn
    obtain rfl := Option.some.inj hn
    exact hchild.trans_le (extends_addArc _ _ _ hparent').num_le
  case rest => exact ⟨rfl, rfl, rfl⟩

/-- A child is added, with a node of its own or not. -/
theorem addChild_added (h : SoundTree m.tree m.transpositionTable) {parent : Nat}
    (hparent : parent < nodeNum m.tree) (s : G.State) :
    ChildAdded m parent (m.addChild G parent s) := by
  unfold Mcts.addChild
  cases hfind : m.getNode (G.zobrist s) with
  | none => exact (addNode_added h hparent s).1
  | some child =>
      have hchild := h.find_lt hfind
      constructor
      case tree => exact h.addArc hparent hchild _
      case extends_tree => exact extends_addArc m.tree child _ hparent
      case internal => exact isInternal_addArc m.tree child _ hparent
      case target =>
        intro n hn
        obtain rfl := Option.some.inj hn
        exact hchild.trans_le (extends_addArc m.tree child _ hparent).num_le
      case rest => exact ⟨rfl, rfl, rfl⟩

/-- What an expansion does. -/
structure Expanded (m : Mcts τ) (d : Descent G) (r : Mcts τ × Descent G) : Prop where
  tree : SoundTree r.1.tree r.1.transpositionTable
  extends_tree : Extends m.tree r.1.tree
  internal : m.hasUntriedMoves G d.node = true → isInternal r.1.tree d.node = true
  path : Inside r.1.tree r.2.path
  rest : r.1.path = m.path ∧ r.1.pathSize = m.pathSize ∧ r.1.notInitialized = m.notInitialized

omit [LawfulSearchTree τ] [SearchTree τ (ArcData G) (NodeData G)] in
/-- Drawing a move leaves the visits alone. -/
theorem getUntriedMove_visits (d : NodeData G) (ω : Rng) :
    (d.getUntriedMove ω).2.1.visits = d.visits := by
  unfold NodeData.getUntriedMove
  split
  · rfl
  · split <;> rfl

theorem expand_expanded (h : SoundTree m.tree m.transpositionTable) {d : Descent G}
    (hnode : d.node < nodeNum m.tree) (hpath : Inside m.tree d.path) :
    Expanded m d (m.expand G d) := by
  cases hsome : m.hasUntriedMoves G d.node with
  | false =>
      rw [expand_none hsome]
      exact ⟨h, .refl _, fun hmore => absurd hmore (by rw [hsome]; decide), hpath, rfl, rfl, rfl⟩
  | true =>
      unfold Mcts.expand
      rw [if_pos hsome]
      generalize hdraw : (node m.tree d.node : NodeData G).getUntriedMove d.rng = drawn
      obtain ⟨move, data, ω⟩ := drawn
      have hvisits : 0 ≤ data.visits := by
        have hkeep := getUntriedMove_visits (node m.tree d.node : NodeData G) d.rng
        rw [hdraw] at hkeep
        rw [show data.visits = (node m.tree d.node : NodeData G).visits from hkeep]
        exact h.visits hnode
      have hset := h.setNode hnode hvisits
      have hext := extends_setNode m.tree d.node data
      have hadded := addChild_added (m := { m with tree := SearchTree.setNode m.tree d.node data })
        hset (hnode.trans_le hext.num_le) (G.moveHashWinner d.state move)
      have hext' := hext.trans hadded.extends_tree
      exact ⟨hadded.tree, hext', fun _ => hadded.internal,
        (hpath.mono hext'.num_le).concat hadded.target, hadded.rest⟩

omit [LawfulSearchTree τ] in
/-- The selection stays in the tree. -/
theorem descend_inside (h : SoundTree m.tree m.transpositionTable) (hpath : Inside m.tree m.path)
    {fuel : Nat} {ω : Rng} {d : Descent G} (hrun : m.descend G fuel s ω = some d) :
    d.node < nodeNum m.tree ∧ Inside m.tree d.path := by
  refine (Loops.whileLoop_inv
    (I := fun d : Descent G => d.node < nodeNum m.tree ∧ Inside m.tree d.path) ?_
    ⟨h.root_lt, hpath⟩ hrun).1
  intro d d' hI hmore hstep
  obtain rfl := Option.some.inj hstep
  have hgo := (goesOn_iff d.node).mp hmore
  have hchild := h.target_lt hI.1
    (mem_edges_of_outArcs (selectChildUCT_mem (G := G) m.tree d.node d.rng hgo.2))
  refine ⟨hchild, hI.2.concat fun n hn => ?_⟩
  obtain rfl := Option.some.inj hn
  exact hchild

omit [LawfulSearchTree τ] in
/-- A selection that stops at the root. -/
theorem descend_of_stop (hstop : ¬ GoesOn m.tree (rootNode m.tree)) (fuel : Nat) (ω : Rng) :
    m.descend G fuel s ω = some ⟨s, rootNode m.tree, m.path, [], ω⟩ := by
  unfold Mcts.descend
  apply Loops.whileLoop_done
  exact Bool.eq_false_iff.mpr fun hmore => hstop ((goesOn_iff _).mp hmore)

omit [LawfulSearchTree τ] in
/-- Results are backed up along valid links only. -/
theorem valid_of_backup {sim : G.State} (hpath : Inside t path)
    (hrun : path.foldlM (Mcts.updateData G sim) t = some t') : Valid t path := by
  have hsome : ∀ {path : List Link} {t : τ}, path.foldlM (Mcts.updateData G sim) t = some t' →
      ∀ l ∈ path, ∃ n, l.target = some n := by
    intro path
    induction path with
    | nil => exact fun _ l hl => absurd hl List.not_mem_nil
    | cons l path ih =>
        intro t hrun
        rw [List.foldlM_cons] at hrun
        obtain ⟨t₁, hfirst, hrest⟩ := Option.bind_eq_some_iff.mp hrun
        obtain ⟨n, hn, -⟩ := Option.map_eq_some_iff.mp hfirst
        intro l' hl'
        rcases List.mem_cons.mp hl' with rfl | hl'
        · exact ⟨n, hn⟩
        · exact ih hrest l' hl'
  intro l hl
  obtain ⟨n, hn⟩ := hsome hrun l hl
  exact ⟨n, hn, hpath l hl n hn⟩

omit [LawfulSearchTree τ] in
/-- So a playout that has been backed up was backed up along valid links. -/
theorem valid_of_playouts {fuel count : Nat} {leaf : G.State} (hpath : Inside t path) {ω : Rng}
    {x : List (Playout τ G) × τ × Rng}
    (hrun : Mcts.playouts G fuel path leaf (count + 1) t ω = some x) : Valid t path := by
  rw [Mcts.playouts] at hrun
  obtain ⟨first, hfirst, -⟩ := Option.bind_eq_some_iff.mp hrun
  obtain ⟨sim, -, hback⟩ := Option.bind_eq_some_iff.mp hfirst
  obtain ⟨t', ht', -⟩ := Option.map_eq_some_iff.mp hback
  exact valid_of_backup hpath ht'

/-- What an iteration does to a sound tree. -/
structure SoundTurn (m : Mcts τ) (turn : Turn τ G) : Prop where
  tree : SoundTree turn.mcts.tree turn.mcts.transpositionTable
  extends_tree : Extends m.tree turn.mcts.tree
  path : Inside turn.mcts.tree turn.mcts.path
  /-- a root that can have a child has one -/
  internal : m.hasUntriedMoves G (rootNode m.tree) = true ∨ isInternal m.tree (rootNode m.tree) = true →
    isInternal turn.mcts.tree (rootNode turn.mcts.tree) = true
  initialized : turn.mcts.notInitialized = m.notInitialized

omit [LawfulSearchTree τ] in
/-- The path cut back has links of the path, or invalid ones. -/
theorem inside_takeD (hpath : Inside t path) (size : Nat) :
    Inside t (List.takeD size path default) := by
  induction size generalizing path with
  | zero => exact fun l hl => absurd hl List.not_mem_nil
  | succ size ih =>
      rw [List.takeD_succ]
      intro l hl
      rcases List.mem_cons.mp hl with rfl | hl
      · intro n hn
        cases path with
        | nil => cases hn
        | cons l path => exact hpath l (List.mem_cons_self ..) n hn
      · exact ih (fun l' hl' => hpath l' (List.mem_of_mem_tail hl')) l hl

theorem iteration_sound (h : SoundTree m.tree m.transpositionTable) (hpath : Inside m.tree m.path)
    {fuel : Nat} {ω : Rng} {turn : Turn τ G} (hrun : m.iteration G fuel s ω = some turn) :
    SoundTurn m turn := by
  unfold Mcts.iteration at hrun
  obtain ⟨d, hdescend, hrest⟩ := Option.bind_eq_some_iff.mp hrun
  obtain ⟨x, hx, rfl⟩ := Option.map_eq_some_iff.mp hrest
  obtain ⟨hnode, hdpath⟩ := descend_inside h hpath hdescend
  have hexp := expand_expanded h hnode hdpath
  generalize hr : m.expand G d = r at hexp hx
  have hvalid := valid_of_playouts hexp.path hx
  obtain ⟨-, hshape, -, hvisits⟩ := playouts_spec hvalid hx
  have hext : Extends r.1.tree x.2.1 := .of_sameShape hshape
  constructor
  case tree =>
    refine hexp.tree.of_sameShape hshape fun n hn => ?_
    have hold := hexp.tree.visits hn
    rw [hvisits n hn]
    omega
  case extends_tree => exact hexp.extends_tree.trans hext
  case path => exact inside_takeD (hexp.path.mono hext.num_le) _
  case internal =>
    intro hcan
    show isInternal x.2.1 (rootNode x.2.1) = true
    rw [hext.root, hexp.extends_tree.root]
    have hroot := h.root_lt
    refine hext.isInternal (hroot.trans_le hexp.extends_tree.num_le) ?_
    rcases hcan with huntried | hint
    · -- the selection does not leave a root with untried moves
      have hstop : ¬ GoesOn m.tree (rootNode m.tree) := by
        intro hgo
        unfold Mcts.hasUntriedMoves at huntried
        rw [hgo.1] at huntried
        cases huntried
      have hat : d.node = rootNode m.tree := by
        rw [descend_of_stop hstop] at hdescend
        rw [← Option.some.inj hdescend]
      rw [← hat]
      exact hexp.internal (hat ▸ huntried)
    · exact hexp.extends_tree.isInternal hroot hint
  case initialized => exact hexp.rest.2.2

end Iteration

-- =========================================================== every run

/-- What is left of the invariant of an initialised `Mcts`. -/
structure Sound (m : Mcts τ) : Prop where
  initialized : m.notInitialized = false
  tree : SoundTree m.tree m.transpositionTable
  path : Inside m.tree m.path

variable [LawfulSearchTree τ]

omit [LawfulSearchTree τ] in
theorem SoundTree.targets_lt (h : SoundTree t T) {n k : Nat} (hn : n < nodeNum t)
    (hk : k ∈ targets t n) : k < nodeNum t := by
  obtain ⟨a, ha, rfl⟩ := List.mem_map.mp hk
  exact h.target_lt hn (mem_edges_of_outArcs ha)

omit [LawfulSearchTree τ] in
/-- What can be reached are nodes. -/
theorem SoundTree.reachable_lt (h : SoundTree t T) {r n : Nat} (hr : r < nodeNum t)
    (hreach : Worklist.Reachable (targets t) r n) : n < nodeNum t :=
  hreach.closed (P := fun n => n < nodeNum t) (fun hn hk => h.targets_lt hn hk) hr

omit [LawfulSearchTree τ] in
/-- A path of one valid link. -/
theorem inside_single {arc : Option Nat} {n : Nat} (hn : n < nodeNum t) :
    Inside t [⟨arc, some n⟩] := by
  intro l hl k hk
  rw [List.mem_singleton.mp hl] at hk
  rwa [← Option.some.inj hk]

omit [LawfulSearchTree τ] in
theorem soundTree_oneNode {d : NodeData G} (h : OneNode t d) (hvisits : 0 ≤ d.visits)
    (hfind : ∀ h n, T.find h = some n → n = 0) : SoundTree t T where
  root_lt := by
    rw [h.root, h.num]
    exact Nat.one_pos
  find_lt := by
    intro hash n hn
    rw [hfind hash n hn, h.num]
    exact Nat.one_pos
  target_lt := by
    intro n e _ he
    rw [h.edges] at he
    cases he
  visits := by
    intro n hn
    rw [h.eq_zero hn, h.data]
    exact hvisits

theorem sound_initializeRoot (s : G.State) :
    Sound (Mcts.initializeRoot G (.new : Mcts τ) s) := by
  have hzero : rootNode (Mcts.new : Mcts τ).tree = 0 := rootNode_new
  have hone : OneNode (Mcts.initializeRoot G (.new : Mcts τ) s).tree (NodeData.ofState s) :=
    oneNode_setNode_new _
  refine ⟨rfl, soundTree_oneNode hone le_rfl fun h n hfind => ?_,
    inside_single (by rw [hzero, hone.num]; exact Nat.one_pos)⟩
  unfold Mcts.initializeRoot at hfind
  rw [TranspositionTable.find_emplace] at hfind
  split at hfind
  · rw [← Option.some.inj hfind, hzero]
  · cases hfind

/-- The path of `compute` leads to nodes, also when the state it is given
is not in the table. -/
theorem Sound.connectStatesPath (h : Sound m) (hrun : m.connectStatesPath G s = some m') :
    Sound m' := by
  unfold Mcts.connectStatesPath at hrun
  obtain ⟨parent, hlast, rfl⟩ := Option.map_eq_some_iff.mp hrun
  obtain ⟨l, hl, htarget⟩ := Option.bind_eq_some_iff.mp hlast
  have hparent := h.path l (List.mem_of_getLast? hl) parent htarget
  cases hfind : m.getNode (G.zobrist s) with
  | some child =>
      refine ⟨h.initialized, h.tree, h.path.concat fun n hn => ?_⟩
      obtain rfl := Option.some.inj hn
      exact h.tree.find_lt hfind
  | none =>
      obtain ⟨hadded, hnum⟩ := addNode_added h.tree hparent s
      refine ⟨hadded.rest.2.2.trans h.initialized, hadded.tree, ?_⟩
      show Inside (m.addNode G parent s).1.tree ((m.addNode G parent s).1.path ++ [_])
      rw [hadded.rest.1]
      refine (h.path.mono hadded.extends_tree.num_le).concat fun n hn => ?_
      obtain rfl := Option.some.inj hn
      rw [hnum]
      exact Nat.lt_succ_self _

omit [LawfulSearchTree τ] in
/-- What `prune ( )` copies is sound. -/
theorem Sound.of_pruned (h : Sound m) {old : Nat} (hold : old < nodeNum m.tree)
    {f : Nat → Option Nat} (hpruned : Pruned m old m' f) : Sound m' := by
  have hcopy := hpruned.copy
  have hroot : rootNode m'.tree < nodeNum m'.tree := (hcopy.image _).mpr ⟨old, hcopy.root⟩
  refine ⟨hpruned.initialized, ?_, hpruned.path.1 ▸ inside_single hroot⟩
  constructor
  case root_lt => exact hroot
  case find_lt =>
    intro hash k hfind
    rw [hpruned.table] at hfind
    obtain ⟨n, -, hn⟩ := Option.bind_eq_some_iff.mp hfind
    exact (hcopy.image k).mpr ⟨n, hn⟩
  case target_lt =>
    intro k e hk he
    obtain ⟨n, hn⟩ := (hcopy.image k).mp hk
    obtain ⟨e₀, -, -, he₀⟩ := (hcopy.arcs hn).exists_of_mem he
    exact (hcopy.image _).mpr ⟨_, he₀⟩
  case visits =>
    intro k hk
    obtain ⟨n, hn⟩ := (hcopy.image k).mp hk
    rw [hcopy.data hn]
    exact h.tree.visits (h.tree.reachable_lt hold ((hcopy.reachable n).mp (by rw [hn]; simp)))

/-- In every run of the protocol, whatever the hashes: the `Mcts` is new,
or it is initialised and sound. -/
theorem reached_sound {ph : Phase G} (h : Reached s₀ m ph) :
    (m = .new ∧ ∃ given, ph = .between given) ∨ Sound m := by
  induction h with
  | new => exact Or.inl ⟨rfl, none, rfl⟩
  | @prune m m' given s fuel _ hs hrun ih =>
      rcases ih with ⟨rfl, -⟩ | hm
      · rw [← Option.some.inj hrun]
        exact Or.inl ⟨rfl, _, rfl⟩
      · rcases prune_cases hm.initialized hm.tree.targets_lt hm.tree.find_lt hrun
          with rfl | ⟨old, f, hfind, hpruned⟩
        · exact Or.inl ⟨rfl, _, rfl⟩
        · exact Or.inr (hm.of_pruned (hm.tree.find_lt hfind) hpruned)
  | @reset m given s _ hs ih =>
      rcases ih with ⟨rfl, -⟩ | hm
      · exact Or.inl ⟨rfl, _, rfl⟩
      · unfold Mcts.reset
        rw [hm.initialized, if_neg (by decide)]
        cases hfind : m.getNode (G.zobrist s) with
        | none => exact Or.inr (sound_initializeRoot s)
        | some newRoot =>
            exact Or.inr ⟨rfl, hm.tree.setRootNode (hm.tree.find_lt hfind),
              hm.path.mono (nodeNum_setRootNode ..).ge⟩
  | @begin m m' given s _ hmay hs hrun ih =>
      rcases ih with ⟨rfl, -⟩ | hm
      · rw [begin_new] at hrun
        rw [← Option.some.inj hrun]
        exact Or.inr (sound_initializeRoot s)
      · rw [begin_initialized hm.initialized] at hrun
        exact Or.inr (hm.connectStatesPath hrun)
  | @iterate m s fuel ω turn _ hrun ih =>
      rcases ih with ⟨-, given, hph⟩ | hm
      · cases hph
      · have hturn := iteration_sound hm.tree hm.path hrun
        exact Or.inr ⟨hturn.initialized.trans hm.initialized, hturn.tree, hturn.path⟩
  | @finish m s _ ih =>
      rcases ih with ⟨-, given, hph⟩ | hm
      · cases hph
      · obtain ⟨link, heq, hlink⟩ := getBestMove_link (G := G) (m := m) fun _ ha =>
          hm.tree.target_lt hm.tree.root_lt (mem_edges_of_outArcs ha)
        rw [heq]
        exact Or.inr ⟨hm.initialized, hm.tree, hm.path.concat hlink⟩

end MctsConnectFour
