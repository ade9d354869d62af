/-
The first three phases of an iteration, one lemma for each: what it does
and that it returns.

The selection reads the tree only, and every node above the one it stops
at has no untried move (`Above`). The expansion leaves a node to go back
from, which is new or at the end of a game (`Expanded`). The rollout ends
where the game does.
-/
import MctsConnectFour.Uct.Expansion

namespace MctsConnectFour.Uct

open Loops StableSort
open RootedTree (excess)

variable {G : GameState} {I : G.State → Prop} {rank : G.State → Nat}
variable {s₀ s : G.State} {t t' : Nodes G.Move} {st : Nat → G.State} {i ℓ : Nat} {m : G.Move}

-- =========================================================== selection

/-- The keys are all computed when no count is zero. -/
theorem mapM_keyOf {Move : Type} {t : Nodes Move} {n : Nat} (hn : 1 ≤ n) : ∀ {l : List Nat},
    (∀ c ∈ l, c < t.length ∧ 1 ≤ visitsOf t c) →
      ∃ keyed, l.mapM (keyOf t n) = some keyed ∧ keyed.map Prod.fst = l := by
  intro l
  induction l with
  | nil => exact fun _ => ⟨[], rfl, rfl⟩
  | cons c l ih =>
      intro hl
      obtain ⟨⟨hlt, hvisits⟩, hl⟩ := List.forall_mem_cons.mp hl
      obtain ⟨keyed, hkeyed, hmap⟩ := ih hl
      obtain ⟨node, hnode⟩ := exists_node hlt
      rw [visitsOf, view_eq hnode] at hvisits
      have hkey : ∃ score, keyOf t n c = some (c, score) := by
        have hzero : ¬ (node.visits = 0 ∨ n = 0) := by omega
        rw [keyOf, hnode, Option.bind_some, ucb1, if_neg hzero]
        exact ⟨_, rfl⟩
      obtain ⟨score, hkey⟩ := hkey
      refine ⟨(c, score) :: keyed, ?_, by rw [List.map_cons, hmap]⟩
      rw [List.mapM_cons, hkey, hkeyed]
      rfl

/-- `UCTSelectChild ( )` returns a child when the node and its children
have been visited. -/
theorem uctSelectChild_spec {Move : Type} {t : Nodes Move} {i : Nat} (hi : 1 ≤ visitsOf t i)
    (hne : childrenOf t i ≠ []) (hlt : i < t.length)
    (hchildren : ∀ c ∈ childrenOf t i, c < t.length ∧ 1 ≤ visitsOf t c) :
    ∃ c, uctSelectChild t i = some c ∧ c ∈ childrenOf t i := by
  obtain ⟨self, hself⟩ := exists_node hlt
  rw [visitsOf, view_eq hself] at hi
  rw [childrenOf, view_eq hself] at hne hchildren ⊢
  obtain ⟨keyed, hkeyed, hmap⟩ := mapM_keyOf hi hchildren
  have hnil : keyed ≠ [] := by
    intro hnil
    rw [hnil] at hmap
    exact hne hmap.symm
  obtain ⟨x, hx⟩ := exists_sortedLast (r := (· ≤ ·)) (f := Prod.snd) hnil
  refine ⟨x.1, by
    rw [uctSelectChild, hself, Option.bind_some, hkeyed, Option.bind_some, hx]; rfl, ?_⟩
  rw [← hmap]
  exact List.mem_map_of_mem (mem_of_sortedLast hx)

/-- A node all of whose ancestors have no untried moves. -/
inductive Above (t : Nodes G.Move) : Nat → Prop
  | root : Above t 0
  | child {p c : Nat} : Above t p → untriedOf t p = [] → parentOf t c = some p → Above t c

/-- What is above the parent of such a node. -/
theorem TreeInv.above_parent (h : TreeInv I s₀ t st) (hi : Above t i) {p : Nat}
    (hp : parentOf t i = some p) : Above t p ∧ untriedOf t p = [] := by
  cases hi with
  | root =>
      rw [(h.parent_none h.pos).mpr rfl] at hp
      cases hp
  | child hq huntried hq' =>
      obtain rfl := Option.some.inj (hq'.symm.trans hp)
      exact ⟨hq, huntried⟩

theorem fullyExpanded_iff (hi : i < t.length) :
    fullyExpanded G t (i, s) = true ↔ untriedOf t i = [] ∧ childrenOf t i ≠ [] := by
  obtain ⟨n, hn⟩ := exists_node hi
  rw [fullyExpanded, hn, untriedOf, childrenOf, view_eq hn, view_eq hn]
  simp [List.isEmpty_iff]

/-- No node is selected from, or selected, that has not been visited. -/
def Visited (t : Nodes G.Move) : Prop :=
  ∀ i, i < t.length → i ≠ 0 ∨ childrenOf t i ≠ [] → 1 ≤ visitsOf t i

/-- Where the selection is. -/
structure Selecting (t : Nodes G.Move) (st : Nat → G.State) (x : Nat × G.State) : Prop where
  lt : x.1 < t.length
  state : x.2 = st x.1
  above : Above t x.1

theorem selectStep_spec (h : TreeInv I s₀ t st) (hvisited : Visited t) {x : Nat × G.State}
    (hx : Selecting t st x) (hfull : fullyExpanded G t x = true) :
    ∃ x', selectStep G t x = some x' ∧ Selecting t st x' ∧ x.1 < x'.1 := by
  obtain ⟨i, s⟩ := x
  obtain ⟨huntried, hne⟩ := (fullyExpanded_iff hx.lt).mp hfull
  have hkid : ∀ {c}, c ∈ childrenOf t i → parentOf t c = some i := h.linked.mem_iff.mp
  obtain ⟨c, hselect, hc⟩ := uctSelectChild_spec (hvisited i hx.lt (Or.inr hne)) hne hx.lt (by
    intro c hc
    have hlt := lt_of_parentOf (hkid hc)
    exact ⟨hlt, hvisited c hlt (Or.inl (Nat.ne_zero_of_lt (h.linked.lt (hkid hc))))⟩)
  obtain ⟨m, hm, hmove⟩ := h.leads (hkid hc)
  have hstate : s = st i := hx.state
  refine ⟨(c, st c), ?_, ⟨lt_of_parentOf (hkid hc), rfl, .child hx.above huntried (hkid hc)⟩,
    h.linked.lt (hkid hc)⟩
  rw [selectStep, hselect, Option.bind_some, bind_move, hm, Option.bind_some, hstate, hmove]
  rfl

/-- The selection comes to a node with an untried move or without
children. -/
theorem select_spec (h : TreeInv I s₀ t st) (hvisited : Visited t) {fuel : Nat}
    (hfuel : t.length ≤ fuel) :
    ∃ i, select G fuel t (0, s₀) = some (i, st i) ∧ i < t.length ∧ Above t i
      ∧ (untriedOf t i = [] → childrenOf t i = []) := by
  have hstart : Selecting t st (0, s₀) := ⟨h.pos, h.root.symm, .root⟩
  obtain ⟨x, hx, hselecting, hdone⟩ := whileLoop_spec (fun x => t.length - x.1)
    (by
      intro x hx hfull
      obtain ⟨x', hstep, hx', hlt⟩ := selectStep_spec h hvisited hx hfull
      have := hx'.lt
      exact ⟨x', hstep, hx', by omega⟩)
    hstart (show t.length - 0 ≤ fuel by omega)
  obtain ⟨i, s⟩ := x
  obtain rfl : s = st i := hselecting.state
  refine ⟨i, hx, hselecting.lt, hselecting.above, fun huntried => ?_⟩
  by_contra hne
  rw [(fullyExpanded_iff hselecting.lt).mpr ⟨huntried, hne⟩] at hdone
  cases hdone

-- =========================================================== expansion

/-- The tree and the node the expansion leaves, when the selection has
stopped at node `i`. -/
structure Expanded (I : G.State → Prop) (s₀ : G.State) (t : Nodes G.Move) (st : Nat → G.State)
    (t' : Nodes G.Move) (st' : Nat → G.State) (ℓ : Nat) : Prop where
  tree : TreeInv I s₀ t' st'
  lt : ℓ < t'.length
  old : ∀ {j}, j < t.length → j < t'.length ∧ st' j = st j
  visits : visitsOf t' = visitsOf t
  wins : winsOf t' = winsOf t
  excess : ∀ {a b : Nat → Rat}, b t.length = 0 → ∀ n,
    excess (childrenOf t') a b n = excess (childrenOf t) a b n
  above : ∀ {p}, parentOf t' ℓ = some p → Above t' p
  /-- a new node, or one at the end of a game -/
  fresh_or_over : ℓ = t.length ∧ t'.length = t.length + 1
    ∨ ℓ < t.length ∧ t'.length = t.length ∧ G.getMoves (st ℓ) = []
  /-- where something is untried, it was so before -/
  untried : ∀ {p c}, parentOf t' c = some p → untriedOf t' p ≠ [] →
    c = ℓ ∧ ℓ = t.length ∨ c ≠ ℓ ∧ parentOf t c = some p ∧ untriedOf t p ≠ []

/-- The nodes above one have no untried moves, so none of them grows. -/
theorem TreeInv.above_grow {s' : G.State} (h : TreeInv I s₀ t st) (hgrown : Grown t i m s' t')
    (hi : untriedOf t i ≠ []) {j : Nat} (hj : Above t j) : Above t' j := by
  induction hj with
  | root => exact .root
  | @child p c _ huntried hp ih =>
      have hne : p ≠ i := fun hpi => hi (hpi ▸ huntried)
      refine .child ih ?_ ((hgrown.parent_old (lt_of_parentOf hp)).trans hp)
      rw [hgrown.untried, Function.update_of_ne (h.parent_lt hp).ne, Function.update_of_ne hne,
        huntried]

/-- A node without untried moves and children is at the end of a game. -/
theorem TreeInv.getMoves_eq_nil (h : TreeInv I s₀ t st) (hi : i < t.length)
    (huntried : untriedOf t i = []) (hchildren : childrenOf t i = []) :
    G.getMoves (st i) = [] := by
  have hperm := h.moves hi
  rw [huntried, hchildren] at hperm
  exact hperm.nil_eq.symm

theorem TreeInv.expanded_grow (hG : Lawful G I rank) (h : TreeInv I s₀ t st) (hi : i < t.length)
    (habove : Above t i) (hm : m ∈ untriedOf t i) {s' : G.State}
    (hmove : G.doMove (st i) m = some s') (hgrown : Grown t i m s' t') :
    Expanded I s₀ t st t' (Function.update st t.length s') t.length := by
  have hne : untriedOf t i ≠ [] := List.ne_nil_of_mem hm
  constructor
  case tree => exact h.grow hgrown hG hi hm hmove
  case lt => exact hgrown.length ▸ Nat.lt_succ_self _
  case old => exact fun hj => ⟨hgrown.length ▸ hj.trans (Nat.lt_succ_self _),
    Function.update_of_ne hj.ne _ _⟩
  case visits => exact hgrown.visits
  case wins => exact hgrown.wins
  case excess =>
    intro a b hb n
    rw [hgrown.children]
    exact RootedTree.excess_addChild hb n
  case above =>
    intro p hp
    rcases hgrown.parent_cases hp with ⟨hlt, -⟩ | ⟨-, rfl⟩
    · exact absurd hlt (lt_irrefl _)
    · exact h.above_grow hgrown hne habove
  case fresh_or_over => exact Or.inl ⟨rfl, hgrown.length⟩
  case untried =>
    intro p c hc hp
    rcases hgrown.parent_cases hc with ⟨hlt, hc⟩ | ⟨rfl, -⟩
    · refine Or.inr ⟨hlt.ne, hc, fun hnil => hp ?_⟩
      rw [hgrown.untried, Function.update_of_ne (h.parent_lt hc).ne]
      by_cases hpi : p = i
      · exact absurd (hpi ▸ hnil) hne
      · rw [Function.update_of_ne hpi, hnil]
    · exact Or.inl ⟨rfl, rfl⟩

/-- The expansion adds a node for an untried move, and none at the end of
a game. -/
theorem expand_spec (hG : Lawful G I rank) (h : TreeInv I s₀ t st) (hi : i < t.length)
    (habove : Above t i) (hover : untriedOf t i = [] → childrenOf t i = []) (ω : Rng) :
    ∃ t' st' ℓ ω', expand G t (i, st i) ω = some (t', (ℓ, st' ℓ), ω')
      ∧ Expanded I s₀ t st t' st' ℓ := by
  obtain ⟨n, hn⟩ := exists_node hi
  have huntried : untriedOf t i = n.untriedMoves := view_eq hn
  by_cases hnil : n.untriedMoves = []
  · rw [huntried] at hover
    have hend := h.getMoves_eq_nil hi (huntried.trans hnil) (hover hnil)
    refine ⟨t, st, i, ω, by rw [expand, hn, Option.bind_some, if_pos hnil], ?_⟩
    exact {
      tree := h
      lt := hi
      old := fun hj => ⟨hj, rfl⟩
      visits := rfl
      wins := rfl
      excess := fun _ _ => rfl
      above := fun hp => (h.above_parent habove hp).1
      fresh_or_over := Or.inr ⟨hi, rfl, hend⟩
      untried := fun hc hp =>
        Or.inr ⟨fun hi => hp (h.above_parent habove (hi ▸ hc)).2, hc, hp⟩ }
  · obtain ⟨⟨m, ω'⟩, hchoice⟩ := exists_choice hnil ω
    have hm : m ∈ untriedOf t i := huntried ▸ mem_of_choice hchoice
    obtain ⟨s', hmove, -⟩ := hG.doMove (h.inv hi)
      ((h.moves hi).subset (List.mem_append_left _ hm))
    obtain ⟨t', hadd, hgrown⟩ := addChild_spec (s := s') hi hm
    refine ⟨t', Function.update st t.length s', t.length, ω', ?_,
      h.expanded_grow hG hi habove hm hmove hgrown⟩
    rw [expand, hn, Option.bind_some, if_neg hnil, hchoice, Option.bind_some, hmove,
      Option.bind_some, hadd, Function.update_self]
    rfl

-- ============================================================= rollout

/-- The rollout ends in a finished game. -/
theorem rollout_spec (hG : Lawful G I rank) (hs : I s) (ω : Rng) {fuel : Nat}
    (hfuel : rank s ≤ fuel) :
    ∃ s' ω', rollout G fuel s ω = some (s', ω') ∧ I s' ∧ G.getMoves s' = [] := by
  have hstep : ∀ x : G.State × Rng, I x.1 → (!(G.getMoves x.1).isEmpty) = true →
      ∃ x', rolloutStep G x = some x' ∧ I x'.1 ∧ rank x'.1 < rank x.1 := by
    intro x hx hmoves
    have hne : G.getMoves x.1 ≠ [] := by
      intro hnil
      rw [hnil] at hmoves
      cases hmoves
    obtain ⟨d, hchoice⟩ := exists_choice hne x.2
    obtain ⟨s', hmove, hs', -, hlt⟩ := hG.doMove hx (mem_of_choice hchoice)
    exact ⟨(s', d.2), by rw [rolloutStep, hchoice, Option.bind_some, hmove]; rfl, hs', hlt⟩
  obtain ⟨x, hx, hinv, hdone⟩ := whileLoop_spec (I := fun x : G.State × Rng => I x.1)
    (fun x => rank x.1) hstep (show I (s, ω).1 from hs) hfuel
  refine ⟨x.1, x.2, hx, hinv, ?_⟩
  simpa using hdone

end MctsConnectFour.Uct
