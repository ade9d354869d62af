/-
The selection walks down the digraph.

Nodes are shared: an arc may lead to any node the table finds, so nothing
in the tree itself forbids a cycle. What forbids it is the game. An arc
makes a move, and a move adds a stone to a board of Connect Four and takes
rows off the way the stones of Oska still have to go (`Further`). Between
nodes this is a measure of the positions they stand for (`arcs_further`),
so there are no cycles, and a walk along arcs meets no node twice
(`Descends.nodup`). The loop of the selection is such a walk, whatever
children it chooses.
-/
import MctsConnectFour.ConnectFour.Playout
import MctsConnectFour.Mcts.Protocol
import MctsConnectFour.Oska.Playout

namespace MctsConnectFour

open SearchTree LawfulSearchTree

-- ============================================================== progress

/-- `t` is further on in the game than `s`. -/
inductive Further : (G : Game) → G.State → G.State → Prop
  | connectFour {NumRows NumCols : Nat} {Z : ZobristTables NumRows NumCols}
      {s t : ConnectFour.State NumRows NumCols} :
      s.board.count Player.occupied < t.board.count Player.occupied →
        Further (ConnectFour.game Z) s t
  | oska {S : Nat} {T : Oska.Statics S} {s t : Oska.State S} :
      Oska.remaining t < Oska.remaining s → Further (Oska.game T) s t

/-- The vacant cells are a measure of the games of Connect Four. -/
theorem ConnectFour.isMeasure {NumRows NumCols : Nat} {Z : ZobristTables NumRows NumCols}
    (hrows : 1 ≤ NumRows) (hcells : NumRows * NumCols ≤ 255) (hnarrow : NumCols ≤ 128)
    {p : Player} (hp : p.IsSide) :
    IsMeasure (G := game Z) (new Z p)
      fun s => NumRows * NumCols - s.board.count Player.occupied := by
  constructor
  case decreases =>
    intro s m hs op hm
    have h := boardInv_run hrows hnarrow hcells (boardInv_new Z hp) hs
    have h' := h.apply hrows hnarrow hcells op hm
    have hcount := h.noMoves_apply hrows hnarrow hcells op hm
    have hle := h'.noMoves_le
    show NumRows * NumCols - ((game Z).apply op s m).board.count _
      < NumRows * NumCols - s.board.count _
    rw [← h.count, ← h'.count]
    omega
  case congr =>
    intro s t _ _ hpos
    have hboard : s.board = t.board := congrArg Prod.fst hpos
    rw [hboard]

/-- The rows to go are one of the games of Oska. -/
theorem Oska.isMeasure {S : Nat} {T : Oska.Statics S} {s₀ : Oska.State S} (hS : 3 ≤ S)
    (hinit : Initialised T s₀) : IsMeasure (G := game T) s₀ remaining := by
  obtain ⟨-, hT, hstart⟩ := hinit.start hS
  have hinv : ∀ {s : Oska.State S}, (game T).Mixed s₀ s → Coherent T s :=
    coherent_run hS hT (hstart.coherent hS hT)
  constructor
  case decreases =>
    intro s m hs op hm
    exact (hinv hs).remaining_apply hS hT op hm
  case congr =>
    intro s t hs ht hpos
    have hboard := (hinv hs.mixed).board_congr (hinv ht.mixed) (congrArg Prod.fst hpos)
    show remaining s = remaining t
    unfold remaining rowsToGo
    rw [stonesOn_congr (hboard .agent), stonesOn_congr (hboard .human)]

/-- Progress is measured. -/
theorem Setting.measure {G : Game} {s₀ : G.State} (h : Setting G s₀) :
    ∃ μ : G.State → Nat, IsMeasure s₀ μ ∧ ∀ s t, μ t < μ s → Further G s t := by
  cases h with
  | connectFour Z hrows _ hcells hnarrow hp =>
      refine ⟨_, ConnectFour.isMeasure hrows hcells (by omega) hp, ?_⟩
      intro s t hlt
      apply Further.connectFour
      omega
  | oska hS hinit => exact ⟨_, Oska.isMeasure hS hinit, fun _ _ => .oska⟩

-- ================================================================= walks

variable {G : Game} {τ : Type} [SearchTree τ (ArcData G) (NodeData G)]

/-- No walk along arcs leads back to where it starts. -/
def Acyclic (t : τ) : Prop :=
  ∀ n, ¬ Relation.TransGen (fun i j => i < nodeNum t ∧ j ∈ targets t i) n n

/-- Where arcs bring a measure down there are no cycles. -/
theorem acyclic_of_measure {t : τ} {ν : Nat → Nat}
    (hν : ∀ i, i < nodeNum t → ∀ j ∈ targets t i, ν j < ν i) : Acyclic t := by
  have hfall : ∀ {i j},
      Relation.TransGen (fun i j => i < nodeNum t ∧ j ∈ targets t i) i j → ν j < ν i := by
    intro i j h
    induction h with
    | single harc => exact hν _ harc.1 _ harc.2
    | tail _ harc ih => exact (hν _ harc.1 _ harc.2).trans ih
  exact fun n hcycle => (hfall hcycle).false

/-- The links are those of a walk along arcs, from `r` to `n`. -/
inductive Descends (t : τ) (r : Nat) : List Link → Nat → Prop
  | start : Descends t r [] r
  | child {links : List Link} {n a k : Nat} :
      Descends t r links n → (a, k) ∈ outArcs t n →
        Descends t r (links ++ [⟨some a, some k⟩]) k

/-- Such a walk meets no node twice. -/
theorem Descends.nodup {t : τ} {ν : Nat → Nat}
    (hν : ∀ i, i < nodeNum t → ∀ j ∈ targets t i, j < nodeNum t ∧ ν j < ν i) {r n : Nat}
    (hr : r < nodeNum t) {links : List Link} (h : Descends t r links n) :
    n < nodeNum t ∧ (some r :: links.map Link.target).Nodup
      ∧ ∀ k, some k ∈ some r :: links.map Link.target → ν n ≤ ν k := by
  induction h with
  | start =>
      refine ⟨hr, List.nodup_singleton _, fun k hk => ?_⟩
      obtain rfl := Option.some.inj (List.mem_singleton.mp hk)
      exact le_rfl
  | @child links n a k _ harc ih =>
      obtain ⟨hn, hnodup, hleast⟩ := ih
      obtain ⟨hk, hless⟩ := hν n hn k (List.mem_map.mpr ⟨_, harc, rfl⟩)
      rw [List.map_append, ← List.cons_append]
      refine ⟨hk, List.nodup_append'.mpr ⟨hnodup, List.nodup_singleton _, ?_⟩, ?_⟩
      · apply List.disjoint_singleton.mpr
        intro hmem
        have hle := hleast k hmem
        omega
      · intro i hi
        rcases List.mem_append.mp hi with hi | hi
        · exact hless.le.trans (hleast i hi)
        · obtain rfl := Option.some.inj (List.mem_singleton.mp hi)
          exact le_rfl

/-- The arc to the child chosen goes on the path. -/
theorem selectChild_path (t : τ) (d : Descent G) :
    (Mcts.selectChild G t d).path
      = d.path ++ [⟨some (Mcts.selectChildUCT G t d.node d.rng).1.1,
          some (Mcts.selectChildUCT G t d.node d.rng).1.2⟩] := rfl

/-- The loop of the selection is such a walk. -/
theorem descend_walk {m : Mcts τ} {s : G.State} {fuel : Nat} {ω : Rng} {d : Descent G}
    (hrun : m.descend G fuel s ω = some d) :
    (∃ links, d.path = m.path ++ links ∧ Descends m.tree (rootNode m.tree) links d.node)
      ∧ ¬ GoesOn m.tree d.node := by
  obtain ⟨hwalk, hdone⟩ := Loops.whileLoop_inv
    (I := fun d : Descent G => ∃ links, d.path = m.path ++ links
      ∧ Descends m.tree (rootNode m.tree) links d.node)
    (fun d d' hwalk hmore hstep => by
      obtain ⟨links, hpath, hwalk⟩ := hwalk
      obtain rfl := Option.some.inj hstep
      have hgo := (goesOn_iff d.node).mp hmore
      have hmem := selectChildUCT_mem (G := G) m.tree d.node d.rng hgo.2
      refine ⟨_, ?_, hwalk.child hmem⟩
      rw [selectChild_path, hpath, List.append_assoc]
      rfl)
    ⟨[], (List.append_nil _).symm, .start⟩ hrun
  rw [← Bool.not_eq_true, goesOn_iff] at hdone
  exact ⟨hwalk, hdone⟩

-- ============================================================ the theorem

variable {s₀ s : G.State} {m : Mcts τ} {pos : Nat → G.State}

/-- The selection from `s` comes to an end, for all outcomes of its random
choices; the links it puts on the path are a walk along arcs that meets no
node twice, up to one with untried moves or without a move. -/
def Selects (m : Mcts τ) (pos : Nat → G.State) (s : G.State) : Prop :=
  ∃ bound, ∀ fuel, bound ≤ fuel → ∀ ω, ∃ d links, m.descend G fuel s ω = some d
    ∧ d.path = m.path ++ links ∧ Descends m.tree (rootNode m.tree) links d.node
    ∧ (some (rootNode m.tree) :: links.map Link.target).Nodup
    ∧ (m.hasUntriedMoves G d.node = true
      ∨ G.ended (pos d.node) ≠ none ∧ G.legal (pos d.node) = [])

/-- Arcs lead to positions that are further on. -/
theorem TreeInv.arcs_fall {μ : G.State → Nat} (hμ : IsMeasure s₀ μ)
    (h : TreeInv s₀ m.tree m.transpositionTable pos) {i : Nat} (hi : i < nodeNum m.tree) {j : Nat}
    (hj : j ∈ targets m.tree i) : j < nodeNum m.tree ∧ μ (pos j) < μ (pos i) := by
  obtain ⟨a, ha, rfl⟩ := List.mem_map.mp hj
  have he := mem_edges_of_outArcs ha
  exact ⟨h.target_lt hi he, h.measure_lt hμ hi he⟩

/-- The selection in a tree with the invariant. -/
theorem TreeInv.selects (hG : G.Lawful s₀) {μ : G.State → Nat} (hμ : IsMeasure s₀ μ)
    (h : TreeInv s₀ m.tree m.transpositionTable pos) (hs : G.Played s₀ s)
    (hroot : G.position (pos (rootNode m.tree)) = G.position s) : Selects m pos s := by
  obtain ⟨bound, htotal⟩ := descend_total hG hμ h hs hroot
  refine ⟨bound, fun fuel hfuel ω => ?_⟩
  obtain ⟨d, hd⟩ := htotal fuel hfuel ω
  obtain ⟨⟨links, hpath, hwalk⟩, hstop⟩ := descend_walk hd
  obtain ⟨hn, hnodup, -⟩ := hwalk.nodup (ν := fun n => μ (pos n))
    (fun i hi j hj => h.arcs_fall hμ hi hj) h.root_lt
  refine ⟨d, links, hd, hpath, hwalk, hnodup, ?_⟩
  cases hmoves : m.hasUntriedMoves G d.node with
  | true => exact Or.inl rfl
  | false =>
      right
      have hnone : (node m.tree d.node : NodeData G).moves = none :=
        Option.not_isSome_iff_eq_none.mp (by rw [Bool.not_eq_true]; exact hmoves)
      have hleaf : isInternal m.tree d.node = false :=
        Bool.not_eq_true _ ▸ fun hin => hstop ⟨hnone, hin⟩
      have hlegal := h.legal_eq_nil hn hleaf hnone
      exact ⟨fun hopen => (hG.ended_iff (h.played hn)).mp hopen hlegal, hlegal⟩

variable [LawfulSearchTree τ]

end MctsConnectFour
