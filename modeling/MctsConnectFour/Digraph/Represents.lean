/-
What the lists of a tree say about it, and when they are right.

`Represents` is the representation invariant: the in-list and the out-list
of a node hold the arcs to it and from it, each once, and every node has an
arc to it, so that `addArcUnsafe` has an end to append to and the loops of
`inArcNum`, `outArcNum`, `arc` and `link` count and find what they should.

The out-lists are right in every tree. The in-lists are right if and only
if the root arc leads to node zero: on whose list it is, whatever
`setRoot` does with its target.
-/
import MctsConnectFour.Digraph.Wired

namespace MctsConnectFour.Digraph.Tree

open Chain (Linked Threaded)

variable {A N : Type} {g : Tree A N}

/-- The arcs that lead to a node. -/
def inDegree (g : Tree A N) (n : Nat) : Nat :=
  (List.range g.arcNum).countP fun a => g.target a = some n

/-- The arcs that leave a node. -/
def outDegree (g : Tree A N) (n : Nat) : Nat :=
  (List.range g.arcNum).countP fun a => g.source a = some n

/-- The first arc from one node to another. -/
def firstArc (g : Tree A N) (s t : Nat) : Option Nat :=
  (List.range g.arcNum).find? fun a => g.source a = some s ∧ g.target a = some t

/-- The representation invariant. -/
structure Represents (g : Tree A N) : Prop where
  ins : ∀ n, n < g.nodeNum → ∃ l, Threaded g.nextIn (g.headIn n) (g.tailIn n) l ∧ l.Nodup
    ∧ ∀ a, a ∈ l ↔ a < g.arcNum ∧ g.target a = some n
  outs : ∀ n, n < g.nodeNum → Threaded g.nextOut (g.headOut n) (g.tailOut n) (g.outArcs n)
  some_in : ∀ n, n < g.nodeNum → ∃ a, a < g.arcNum ∧ g.target a = some n
  addArc : ∀ s t d, s < g.nodeNum → t < g.nodeNum → (g.addArcUnsafe s t d).isSome
  inArcNum : ∀ n, n < g.nodeNum → ∀ fuel, g.arcNum ≤ fuel →
    g.inArcNum fuel n = some (g.inDegree n)
  outArcNum : ∀ n, n < g.nodeNum → ∀ fuel, g.arcNum ≤ fuel →
    g.outArcNum fuel n = some (g.outDegree n)
  arc : ∀ s t, s < g.nodeNum → ∀ fuel, g.arcNum ≤ fuel → g.arc fuel s t = some (g.firstArc s t)
  link : ∀ s t, s < g.nodeNum → ∀ fuel, g.arcNum ≤ fuel →
    g.link fuel s t = some ⟨g.firstArc s t, t⟩

/-- A list of arcs is no longer than the arena. -/
private theorem lists_length {p : Nat → Bool} {n : Nat} :
    ((List.range n).filter p).length ≤ n := by
  simpa using List.length_filter_le p (List.range n)

/-- Counting along a list counts its cells. -/
private theorem foldl_count (l : List Nat) (k : Nat) :
    l.foldl (fun count _ => count + 1) k = k + l.length := by
  induction l generalizing k with
  | nil => rfl
  | cons a l ih => rw [List.foldl_cons, ih, List.length_cons]; omega

theorem Wired.outArcNum (h : Wired g) {n : Nat} (hn : n < g.nodeNum) {fuel : Nat}
    (hfuel : g.arcNum ≤ fuel) : g.outArcNum fuel n = some (g.outDegree n) := by
  have hlen : (g.outArcs n).length ≤ fuel := Nat.le_trans lists_length hfuel
  have hloop := Chain.whileLoop_linked (fun count _ => count + 1) (h.outs hn).linked hlen 0
  rw [Tree.outArcNum, hloop, Option.map_some, foldl_count, Nat.zero_add, outDegree,
    List.countP_eq_length_filter]
  rfl

/-- The in-lists have a length, right or not. -/
theorem Wired.inArcNum (h : Wired g) {n : Nat} (hn : n < g.nodeNum) {fuel : Nat}
    (hfuel : g.arcNum ≤ fuel) : g.inArcNum fuel n = some (g.inArcs n).length := by
  have hlen : (g.inArcs n).length ≤ fuel := Nat.le_trans lists_length hfuel
  have hloop := Chain.whileLoop_linked (fun count _ => count + 1) (h.ins hn).linked hlen 0
  rw [Tree.inArcNum, hloop, Option.map_some, foldl_count, Nat.zero_add]

theorem Wired.arc (h : Wired g) {s t : Nat} (hs : s < g.nodeNum) {fuel : Nat}
    (hfuel : g.arcNum ≤ fuel) : g.arc fuel s t = some (g.firstArc s t) := by
  have hlen : (g.outArcs s).length ≤ fuel := Nat.le_trans lists_length hfuel
  rw [Tree.arc, Chain.whileLoop_search (fun a => g.target a == some t) (h.outs hs).linked hlen,
    outArcs, List.find?_filter, firstArc]
  congr 2
  funext a
  simp [Bool.decide_and]

/-- With the root arc at node zero, every arc is on the list of its
target. -/
theorem Wired.home_eq (h : Wired g) (hroot : g.rootNode = 0) (a : Nat) :
    g.home a = g.target a := by
  unfold home
  by_cases ha : a = 0
  · rw [if_pos ha, ha, h.root.2.2, hroot]
  · rw [if_neg ha]

theorem Wired.represents (h : Wired g) (hroot : g.rootNode = 0) : Represents g := by
  have hmem : ∀ n a, a ∈ g.inArcs n ↔ a < g.arcNum ∧ g.target a = some n := by
    intro n a
    rw [mem_inArcs, h.home_eq hroot]
  constructor
  case ins => exact fun n hn => ⟨g.inArcs n, h.ins hn, (h.ins hn).linked.nodup, hmem n⟩
  case outs => exact fun n hn => h.outs hn
  case some_in =>
    intro n hn
    obtain ⟨a, ha⟩ := List.exists_mem_of_ne_nil _ (h.some_in hn)
    exact ⟨a, (hmem n a).mp ha⟩
  case addArc =>
    intro s t d hs ht
    obtain ⟨g', hadd, _⟩ := addArcUnsafe_spec h hs ht d
    rw [hadd]
    rfl
  case inArcNum =>
    intro n hn fuel hfuel
    rw [h.inArcNum hn hfuel, inDegree, List.countP_eq_length_filter, inArcs]
    simp only [h.home_eq hroot]
  case outArcNum => exact fun n hn fuel hfuel => h.outArcNum hn hfuel
  case arc => exact fun s t hs fuel hfuel => h.arc hs hfuel
  case link =>
    intro s t hs fuel hfuel
    rw [Tree.link, h.arc hs hfuel, Option.map_some]

/-- The root arc is on the list of node zero: a list that is right says
that it leads there. -/
theorem Wired.root_zero (h : Wired g) (hrep : Represents g) : g.rootNode = 0 := by
  have hzero : 0 < g.nodeNum := Nat.zero_lt_of_lt h.root_lt
  obtain ⟨l, hthread, _, hl⟩ := hrep.ins 0 hzero
  have hsame : l = g.inArcs 0 := hthread.linked.unique (h.ins hzero).linked
  have hmem : 0 ∈ l := by
    rw [hsame]
    exact mem_inArcs.mpr ⟨h.root.1, if_pos rfl⟩
  exact Option.some.inj (h.root.2.2.symm.trans ((hl 0).mp hmem).2)

/-- The representation invariant holds after a sequence of operations if
and only if these have last sent the root arc to node zero. -/
theorem represents_iff [Inhabited A] [Inhabited N] {ops : List (Op A N)}
    (hv : ValidRun (new : Tree A N) ops) :
    ∃ g, (new : Tree A N).run ops = some g ∧ (Represents g ↔ lastRoot ops = 0) := by
  obtain ⟨g, hrun, hwired, hroot⟩ := wired_new.run hv
  have hlast : g.rootNode = lastRoot ops := hroot
  refine ⟨g, hrun, fun hrep => ?_, fun hzero => ?_⟩
  · rw [← hlast]
    exact hwired.root_zero hrep
  · exact hwired.represents (hlast.trans hzero)

/-- A child, and the root moved down to it. -/
def rerooted : List (Op Unit Unit) := [.addNode 0 () (), .setRoot 1]

theorem rerooted_valid : ValidRun (new : Tree Unit Unit) rerooted := by
  refine ⟨Nat.one_pos, fun g hg => ⟨?_, fun _ _ => trivial⟩⟩
  obtain rfl := Option.some.inj hg
  exact Nat.lt_succ_self 1

theorem represents_iff_rerooted :
    ∃ g, (new : Tree Unit Unit).run rerooted = some g ∧ (Represents g ↔ lastRoot rerooted = 0) :=
  represents_iff rerooted_valid

/-- The arc of the root is missed on the list of the root, and is on that
of the root before. -/
theorem rerooted_not_represents :
    ValidRun (new : Tree Unit Unit) rerooted
      ∧ ∃ g, (new : Tree Unit Unit).run rerooted = some g ∧ ¬ Represents g := by
  refine ⟨rerooted_valid, _, rfl, fun hrep => ?_⟩
  have hcount := hrep.inArcNum 1 (by decide) 2 (by decide)
  exact absurd hcount (by decide)

end MctsConnectFour.Digraph.Tree
