/-
What `merge ( )` keeps.

The visits and scores of the smaller tree are added by hash, except those
of its root, which the walk starts from and never looks at, and those of
nodes that its root does not reach. So the statistics are conserved
exactly when these hold nothing (`merge_conserves_iff`).

The arcs of the result are a union only if the smaller tree brings none.
A node of the larger tree that gets an arc keeps its untried moves, one
of which is now on the arc as well; and where no node gets one, arcs of
the smaller tree are missing unless the larger had them all
(`merge_keeps_arcs_iff`).
-/
import MctsConnectFour.Mcts.Merge
import MctsConnectFour.Mcts.Protocol

namespace MctsConnectFour

open SearchTree LawfulSearchTree Worklist

variable {G : Game} {τ : Type} [SearchTree τ (ArcData G) (NodeData G)] {s₀ : G.State}
  {t s m : Mcts τ} {posT posS : Nat → G.State}

-- ================================================== target and source

/-- The target of `merge ( )`. -/
def larger (t s : Mcts τ) : Mcts τ := if nodeNum t.tree < nodeNum s.tree then s else t

/-- The source of `merge ( )`. -/
def smaller (t s : Mcts τ) : Mcts τ := if nodeNum t.tree < nodeNum s.tree then t else s

theorem merge_eq (fuel : Nat) (t s : Mcts τ) :
    Mcts.merge G fuel t s = Mcts.mergeInto G fuel (larger t s) (smaller t s) := by
  unfold Mcts.merge larger smaller
  split <;> rfl

/-- What holds of two trees either way holds of target and source. -/
theorem larger_smaller {P : Mcts τ → Mcts τ → Prop} (h : P t s) (h' : P s t) :
    P (larger t s) (smaller t s) := by
  unfold larger smaller
  split
  · exact h'
  · exact h

/-- The target knows the hash of the root of the source. -/
theorem root_known (hG : G.Lawful s₀) (ht : TreeInv s₀ t.tree t.transpositionTable posT)
    (hs : TreeInv s₀ s.tree s.transpositionTable posS)
    (hroot : G.position (posT (rootNode t.tree)) = G.position (posS (rootNode s.tree)))
    {hash : UInt64} (hhash : s.getNode hash = some (rootNode s.tree)) :
    t.getNode hash = some (rootNode t.tree) := by
  have heq : G.zobrist (posS (rootNode s.tree)) = hash := (hs.find_iff.mp hhash).2
  rw [← heq]
  exact ht.find_of_position hG ht.root_lt (hs.played hs.root_lt) hroot

section Merge

variable [LawfulSearchTree τ]

/-- The merging of a source into a target returns, and what it leaves. -/
theorem mergeInto_merged (hG : G.Lawful s₀) (ht : TreeInv s₀ t.tree t.transpositionTable posT)
    (hs : TreeInv s₀ s.tree s.transpositionTable posS)
    (hroot : G.position (posT (rootNode t.tree)) = G.position (posS (rootNode s.tree))) :
    (∃ bound, ∀ fuel, bound ≤ fuel → ∃ m, Mcts.mergeInto G fuel t s = some m)
      ∧ ∀ fuel m, Mcts.mergeInto G fuel t s = some m → Merged t s m := by
  have htargets : ∀ {n k}, n < nodeNum s.tree → k ∈ targets s.tree n → k < nodeNum s.tree :=
    fun hn hk => hs.targets_lt hn hk
  have hroots : t.getNode (hashOf s (rootNode s.tree)) ≠ none := by
    rw [root_known hG ht hs hroot (getNode_hashOf hs.bijective hs.root_lt)]
    exact Option.some_ne_none _
  exact ⟨⟨nodeNum s.tree,
      mergeInto_total ht.bijective hs.bijective hs.root_lt htargets hroots⟩,
    fun fuel m hrun =>
      mergeInto_spec ht.bijective hs.bijective hs.root_lt htargets hroots hrun⟩

end Merge

-- =========================================================== statistics

/-- A hash is known to an `Mcts`: it is that of a node the root
reaches. -/
def Known (m : Mcts τ) (hash : UInt64) : Prop :=
  ∃ n, m.getNode hash = some n ∧ Reachable (targets m.tree) (rootNode m.tree) n

/-- The statistics of `t` and `s` are conserved by `m`: it holds for every
hash known to one of them one node, with the visits and the score the two
have held for it together. -/
structure Conserved (t s m : Mcts τ) : Prop where
  bijective : m.transpositionTable.Bijective (nodeNum m.tree)
  sums : ∀ hash, Known t hash ∨ Known s hash → ∃ d e, held m hash = some d
    ∧ Option.merge NodeData.add (held t hash) (held s hash) = some e
    ∧ d.visits = e.visits ∧ d.score = e.score

/-- The nodes of the source the walk does not add, its root and what the
root does not reach, hold nothing for hashes that are known. -/
def NothingMissed (t s : Mcts τ) : Prop :=
  ∀ hash n k, t.getNode hash = some n → s.getNode hash = some k → Known t hash ∨ Known s hash →
    k = rootNode s.tree ∨ ¬ Reachable (targets s.tree) (rootNode s.tree) k →
      (node s.tree k : NodeData G).visits = 0
        ∧ (node t.tree n : NodeData G).score + (node s.tree k : NodeData G).score
          = (node t.tree n : NodeData G).score

/-- The statistics are conserved when nothing is missed, and only
then. -/
theorem Merged.conserved_iff (h : Merged t s m)
    (hroot : ∀ hash, s.getNode hash = some (rootNode s.tree) → t.getNode hash ≠ none) :
    Conserved t s m ↔ NothingMissed t s := by
  obtain ⟨add, hadd, hdata⟩ := h.data
  have hmissed : ∀ k, k = rootNode s.tree
      ∨ ¬ Reachable (targets s.tree) (rootNode s.tree) k ↔ add k = false := by
    intro k
    rw [← Bool.not_eq_true, hadd, not_and_or, not_not, or_comm]
  constructor
  · intro hc hash n k hn hk hknown hmiss
    obtain ⟨d, e, hd, he, hvisits, hscore⟩ := hc.sums hash hknown
    rw [hdata, hk, Option.filter_some_neg ((hmissed k).mp hmiss), Option.map_none,
      Option.merge_none_right] at hd
    have hheld : held t hash = some (node t.tree n) := by rw [held, hn]; rfl
    rw [hheld] at hd he
    rw [held, hk, Option.map_some, Option.merge_some_some] at he
    obtain rfl := Option.some.inj hd
    obtain rfl := Option.some.inj he
    refine ⟨?_, hscore.symm⟩
    have hsum : (node t.tree n : NodeData G).visits = (node t.tree n : NodeData G).visits
      + (node s.tree k : NodeData G).visits := hvisits
    omega
  · refine fun hnothing => ⟨h.bijective, fun hash hknown => ?_⟩
    rw [hdata]
    cases hn : t.getNode hash with
    | some n =>
        have hheld : held t hash = some (node t.tree n) := by rw [held, hn]; rfl
        cases hk : s.getNode hash with
        | some k =>
            rw [hheld, held, hk, Option.map_some, Option.merge_some_some]
            cases hkadd : add k with
            | true =>
                rw [Option.filter_some_pos hkadd]
                exact ⟨_, _, rfl, rfl, rfl, rfl⟩
            | false =>
                obtain ⟨hvisits, hscore⟩ := hnothing hash n k hn hk hknown ((hmissed k).mpr hkadd)
                rw [Option.filter_some_neg hkadd]
                refine ⟨_, _, rfl, rfl, ?_, hscore.symm⟩
                show _ = (node t.tree n : NodeData G).visits + (node s.tree k : NodeData G).visits
                rw [hvisits, add_zero]
        | none =>
            rw [hheld, held, hk]
            exact ⟨_, _, rfl, rfl, rfl, rfl⟩
    | none =>
        have hheld : held t hash = none := by rw [held, hn]; rfl
        obtain ⟨k, hk, hreach⟩ := hknown.resolve_left fun hknown => by
          obtain ⟨n, hn', -⟩ := hknown
          rw [hn] at hn'
          cases hn'
        have hkadd : add k = true := (hadd k).mpr ⟨hreach, fun heq => hroot hash (heq ▸ hk) hn⟩
        rw [hheld, held, hk, Option.filter_some_pos hkadd]
        exact ⟨_, _, rfl, rfl, rfl, rfl⟩

/-- At the nodes that stand for the positions of `t`, the moves on the
out-arcs and the untried ones are the legal moves, each once. -/
def MovesKept (t : Mcts τ) (pos : Nat → G.State) (m : Mcts τ) : Prop :=
  ∀ n k, n < nodeNum t.tree → m.getNode (G.zobrist (pos n)) = some k →
    (triedMoves m.tree k ++ (node m.tree k : NodeData G).untried).Perm (G.legal (pos n))

/-- The arcs of `m` are those of `t` and those of `s`, none is doubled,
and the moves of every position are kept. -/
structure ArcsKept (t s : Mcts τ) (posT posS : Nat → G.State) (m : Mcts τ) : Prop where
  arcs : ∀ parent move child,
    HasArc m parent move child ↔ HasArc t parent move child ∨ HasArc s parent move child
  once : ∀ n, n < nodeNum m.tree → (edges m.tree n).Nodup
  left : MovesKept t posT m
  right : MovesKept s posS m

theorem ArcsKept.symm (h : ArcsKept t s posT posS m) : ArcsKept s t posS posT m :=
  ⟨fun parent move child => (h.arcs parent move child).trans or_comm, h.once, h.right, h.left⟩

section Arcs

variable (ht : TreeInv s₀ t.tree t.transpositionTable posT)
  (h : Merged t s m)

include ht h

/-- When no node is added the table stays. -/
theorem Merged.getNode_eq (hsame : SameArcs t.tree m.tree) (hash : UInt64) :
    m.getNode hash = t.getNode hash := by
  cases hn : m.getNode hash with
  | some n =>
      obtain ⟨hash', hn'⟩ := ht.bijective.surj n (hsame.1 ▸ h.bijective.lt _ _ hn)
      rw [h.bijective.inj _ _ _ hn (h.table hn')]
      exact hn'.symm
  | none =>
      cases hn' : t.getNode hash with
      | none => rfl
      | some n =>
          rw [h.table hn'] at hn
          cases hn

/-- Then the arcs stay too. -/
theorem Merged.hasArc_iff (hsame : SameArcs t.tree m.tree) (parent : UInt64) (move : G.Move)
    (child : UInt64) : HasArc m parent move child ↔ HasArc t parent move child := by
  unfold HasArc
  simp only [h.getNode_eq ht hsame]
  refine exists_congr fun n => exists_congr fun k => and_congr_right fun hn => ?_
  rw [hsame.2 n (ht.bijective.lt _ _ hn)]

/-- A node of the target keeps its untried moves. -/
theorem Merged.untried_eq {n : Nat} (hn : n < nodeNum t.tree) :
    (node m.tree n : NodeData G).untried = (node t.tree n : NodeData G).untried := by
  obtain ⟨add, -, hdata⟩ := h.data
  have hfind := ht.find hn
  have hheld := hdata (G.zobrist (posT n))
  rw [held, held, h.table hfind, show t.getNode _ = some n from hfind, Option.map_some,
    Option.map_some] at hheld
  cases hadd : ((s.getNode (G.zobrist (posT n))).filter add).map (node s.tree : Nat → NodeData G) with
  | none =>
      rw [hadd, Option.merge_none_right] at hheld
      rw [Option.some.inj hheld]
  | some d =>
      rw [hadd, Option.merge_some_some] at hheld
      rw [Option.some.inj hheld]
      rfl

/-- The arcs are kept when the target has those of the source, and only
then. -/
theorem Merged.arcsKept_iff (hG : G.Lawful s₀)
    (hs : TreeInv s₀ s.tree s.transpositionTable posS)
    (hsame : ∀ {n k}, n < nodeNum t.tree → k < nodeNum s.tree →
      G.zobrist (posT n) = G.zobrist (posS k) → G.position (posT n) = G.position (posS k)) :
    ArcsKept t s posT posS m ↔ Included s t := by
  constructor
  · intro hkept
    -- a node of the target with one more arc has one move too many
    have hnone : SameArcs t.tree m.tree := h.grown.resolve_right fun hgrown => by
      obtain ⟨n, extra, hn, hne, hextra⟩ := hgrown
      have hnew := (hkept.left n n hn (h.table (ht.find hn))).length_eq
      have hold := (ht.moves hn).length_eq
      have hpos := List.length_pos_iff.mpr hne
      rw [h.untried_eq ht hn, triedMoves, hextra] at hnew
      simp only [triedMoves, List.map_append, List.length_append, List.length_map] at hnew hold
      omega
    intro parent move child harc
    exact (h.hasArc_iff ht hnone parent move child).mp ((hkept.arcs _ _ _).mpr (Or.inr harc))
  · intro hsub
    have hnone := h.kept hsub
    have hmoves : ∀ {n}, n < nodeNum t.tree →
        (triedMoves m.tree n ++ (node m.tree n : NodeData G).untried).Perm (G.legal (posT n)) := by
      intro n hn
      rw [h.untried_eq ht hn, triedMoves, hnone.2 n hn]
      exact ht.moves hn
    refine ⟨fun parent move child => ?_, fun n hn => ?_, fun n k hn hk => ?_, fun n k hn hk => ?_⟩
    · rw [h.hasArc_iff ht hnone]
      exact (or_iff_left_of_imp (hsub parent move child)).symm
    · have hn' : n < nodeNum t.tree := hnone.1 ▸ hn
      have hnodup := (hmoves hn').nodup_iff.mpr (hG.legal_nodup (ht.played hn').mixed)
      exact List.Nodup.of_map _ (List.Nodup.of_append_left hnodup)
    · obtain rfl := Option.some.inj ((h.table (ht.find hn)).symm.trans hk)
      exact hmoves hn
    · rw [h.getNode_eq ht hnone] at hk
      obtain ⟨hk, hhash⟩ := ht.find_iff.mp hk
      exact (hmoves hk).trans (hG.legal_perm (ht.played hk) (hs.played hn) (hsame hk hn hhash))

end Arcs

end MctsConnectFour
