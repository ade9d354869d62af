/-
The loop over the iterations. `SearchInv` is what holds of the tree after
`count` of them; `iteration_spec` is one iteration, `iterations_spec` the
run, and `search_spec` the run from the tree with the root alone.

`initial` counts the visit in which a node was made. A node that is not
at the end of a game has been visited then, and each time its parent was
and it or one of its descendants was reached; what it has been credited
with since has gone through its children.
-/
import Mathlib.Algebra.Order.BigOperators.Group.List
import MctsConnectFour.Uct.Backpropagation

namespace MctsConnectFour.Uct

open RootedTree (excess)

variable {G : GameState} {I : G.State → Prop} {rank : G.State → Nat}
variable {s₀ s : G.State} {t t' : Nodes G.Move} {st st' : Nat → G.State} {count fuel : Nat}

/-- The tree after `count` iterations. -/
structure SearchInv (I : G.State → Prop) (s₀ : G.State) (count : Nat) (t : Nodes G.Move)
    (st : Nat → G.State) : Prop where
  tree : TreeInv I s₀ t st
  length : t.length ≤ count + 1
  root : visitsOf t 0 = count
  visited : ∀ {i}, i ≠ 0 → i < t.length → 1 ≤ visitsOf t i
  bounds : ∀ i, 0 ≤ winsOf t i ∧ 0 ≤ lossesOf t i
  visits : ∀ {i}, i < t.length → G.getMoves (st i) ≠ [] →
    excess (childrenOf t) (visitsQ t) (visitsQ t) i = if i = 0 then 0 else 1
  wins : ∀ {i}, i < t.length → G.getMoves (st i) ≠ [] →
    0 ≤ excess (childrenOf t) (winsOf t) (lossesOf t) i
      ∧ excess (childrenOf t) (winsOf t) (lossesOf t) i ≤ if i = 0 then 0 else 1
  once : ∀ {p c}, parentOf t c = some p → untriedOf t p ≠ [] → visitsOf t c = 1

theorem searchInv_new (hs : I s₀) :
    SearchInv I s₀ 0 [Node.new none none s₀] (fun _ => s₀) := by
  have hzero : ∀ {i}, i < [(Node.new none none s₀ : Node G.Move)].length → i = 0 :=
    fun hi => Nat.lt_one_iff.mp hi
  have hvisits : ∀ i, visitsOf [(Node.new none none s₀ : Node G.Move)] i = 0 := by
    intro i
    cases i <;> rfl
  have hwins : ∀ i, winsOf [(Node.new none none s₀ : Node G.Move)] i = 0 := by
    intro i
    cases i <;> rfl
  have hchildren : childrenOf [(Node.new none none s₀ : Node G.Move)] 0 = [] := rfl
  constructor
  case tree => exact treeInv_new hs
  case length => exact le_rfl
  case root => rfl
  case visited => exact fun hi hlt => absurd (hzero hlt) hi
  case bounds =>
    intro i
    simp [lossesOf, hvisits, hwins]
  case visits =>
    intro i hi _
    rw [hzero hi, excess, hchildren]
    simp [visitsQ, hvisits]
  case wins =>
    intro i hi _
    rw [hzero hi, excess, hchildren]
    simp [hwins]
  case once =>
    intro p c hc
    have hroot : c = 0 := hzero (lt_of_parentOf hc)
    rw [hroot] at hc
    cases hc

/-- What the children of a node have been visited is at most what it has
been. -/
theorem SearchInv.visits_child (h : SearchInv I s₀ count t st) {p c : Nat}
    (hc : parentOf t c = some p) : visitsOf t c ≤ visitsOf t p := by
  obtain ⟨m, -, hm, -⟩ := h.tree.move_mem hc
  have hexcess := h.visits (h.tree.parent_lt hc) (List.ne_nil_of_mem hm)
  have hnonneg : ∀ x ∈ (childrenOf t p).map (visitsQ t), (0 : Rat) ≤ x := by
    intro x hx
    obtain ⟨d, -, rfl⟩ := List.mem_map.mp hx
    exact Nat.cast_nonneg _
  have hle : visitsQ t c ≤ ((childrenOf t p).map (visitsQ t)).sum :=
    List.single_le_sum hnonneg _
      (List.mem_map_of_mem (h.tree.linked.mem_iff.mpr hc))
  have hsum : ((childrenOf t p).map (visitsQ t)).sum ≤ visitsQ t p := by
    have hpos : (0 : Rat) ≤ if p = 0 then 0 else 1 := by split <;> norm_num
    rw [← hexcess, excess] at hpos
    linarith
  have hcast : (visitsOf t c : Rat) ≤ visitsOf t p := hle.trans hsum
  exact_mod_cast hcast

theorem SearchInv.toVisited (h : SearchInv I s₀ count t st) : Visited t := by
  intro i hi hor
  by_cases hzero : i = 0
  · subst hzero
    obtain ⟨c, hc⟩ := List.exists_mem_of_ne_nil _ (hor.resolve_left (fun h => h rfl))
    have hparent := h.tree.linked.mem_iff.mp hc
    exact (h.visited (Nat.ne_zero_of_lt (h.tree.linked.lt hparent)) (lt_of_parentOf hparent)).trans
      (h.visits_child hparent)
  · exact h.visited hzero hi

/-- An iteration, put together from its phases: the expansion leaves what
it starts from, and the walk credits the node the expansion leaves. -/
theorem SearchInv.credited (h : SearchInv I s₀ count t st) {t₁ : Nodes G.Move} {ℓ : Nat} {r : Rat}
    (he : Expanded I s₀ t st t₁ st' ℓ) (hr : 0 ≤ r ∧ r ≤ 1) (hc : Credited t₁ ℓ r t' none) :
    SearchInv I s₀ (count + 1) t' st' := by
  have hℓ : visitsOf t' ℓ = visitsOf t ℓ + 1 := by
    rw [← he.visits]
    exact (hc.first.resolve_left (fun hcur => by cases hcur.1)).2
  have hvisitsQ : visitsQ t₁ = visitsQ t := by
    funext i
    rw [visitsQ, visitsQ, he.visits]
  have hlosses : lossesOf t₁ = lossesOf t := by
    funext i
    rw [lossesOf, lossesOf, he.visits, he.wins]
  -- a node of the new tree is an old one or the one that has been added
  have hcases : ∀ {i}, i < t'.length → i < t.length ∨ i = ℓ ∧ ℓ = t.length := by
    intro i hi
    rw [hc.shape.length] at hi
    rcases he.fresh_or_over with ⟨heq, hlen⟩ | ⟨-, hlen, -⟩ <;> omega
  -- before the walk the new node has nothing
  have hfresh : ∀ {a b : Nat → Rat}, ℓ = t.length → a t.length = 0 →
      excess (childrenOf t) a b ℓ = 0 := by
    intro a b heq ha
    rw [heq, excess, ha, childrenOf, view_none le_rfl]
    simp
  -- an old node that the walk starts from is at the end of a game
  have hover : ∀ {i}, i < t.length → G.getMoves (st' i) ≠ [] → ℓ ≠ i := by
    intro i hi hmoves heq
    subst heq
    rcases he.fresh_or_over with ⟨hnew, -⟩ | ⟨-, -, hend⟩
    · exact hi.ne hnew
    · rw [(he.old hi).2] at hmoves
      exact hmoves hend
  have hzero : visitsQ t t.length = 0 ∧ winsOf t t.length = 0 ∧ lossesOf t t.length = 0 := by
    have hv : visitsOf t t.length = 0 := view_none le_rfl
    have hw : winsOf t t.length = 0 := view_none le_rfl
    simp [visitsQ, lossesOf, hv, hw]
  have hvisits := fun i => hc.visits.done i
  have hwins := fun i => hc.wins.done i
  rw [hvisitsQ] at hvisits
  rw [he.wins, hlosses] at hwins
  constructor
  case tree => exact he.tree.congr hc.shape
  case length =>
    have hlen := h.length
    rw [hc.shape.length]
    rcases he.fresh_or_over with ⟨-, hlen'⟩ | ⟨-, hlen', -⟩ <;> omega
  case root => rw [hc.root, he.visits, h.root, if_pos rfl]
  case visited =>
    intro i hi hlt
    rcases hcases hlt with hold | ⟨rfl, -⟩
    · have hgrows := hc.grows i
      rw [he.visits] at hgrows
      exact (h.visited hi hold).trans hgrows
    · rw [hℓ]
      exact Nat.succ_pos _
  case bounds => exact hc.bounds
  case visits =>
    intro i hi hmoves
    rw [hc.shape.children, hvisits i, he.excess hzero.1]
    rcases hcases hi with hold | ⟨rfl, hnew⟩
    · rw [if_neg (hover hold hmoves), add_zero]
      rw [(he.old hold).2] at hmoves
      exact h.visits hold hmoves
    · rw [hfresh hnew hzero.1, if_pos rfl, zero_add, if_neg (by have := h.tree.pos; omega)]
  case wins =>
    intro i hi hmoves
    rw [hc.shape.children, hwins i, he.excess hzero.2.2]
    rcases hcases hi with hold | ⟨rfl, hnew⟩
    · rw [if_neg (hover hold hmoves), add_zero]
      rw [(he.old hold).2] at hmoves
      exact h.wins hold hmoves
    · rw [hfresh hnew hzero.2.1, if_pos rfl, zero_add, if_neg (by have := h.tree.pos; omega)]
      exact credit_bounds hr t₁ i
  case once =>
    intro p c hp huntried
    rw [hc.shape.parent] at hp
    rw [hc.shape.untried] at huntried
    rcases he.untried hp huntried with ⟨rfl, hnew⟩ | ⟨hne, hp', huntried'⟩
    · rw [hℓ, hnew, visitsOf, view_none le_rfl]
    · rcases hc.untried c with hsame | heq | hnone
      · rw [hsame, he.visits]
        exact h.once hp' huntried'
      · exact absurd heq hne
      · exact absurd (hnone p hp) huntried

/-- Every iteration returns. -/
theorem iteration_spec (hG : Lawful G I rank) (hs₀ : I s₀)
    (hrank : ∀ s, Played G s₀ s → rank s ≤ fuel) (h : SearchInv I s₀ count t st) (hfuel : t.length + 1 ≤ fuel) (ω : Rng) :
    ∃ t' ω' st', iteration G fuel s₀ t ω = some (t', ω') ∧ SearchInv I s₀ (count + 1) t' st' := by
  obtain ⟨i, hselect, hi, habove, hover⟩ :=
    select_spec h.tree h.toVisited (show t.length ≤ fuel by omega)
  obtain ⟨t₁, st', ℓ, ω₁, hexpand, he⟩ := expand_spec hG h.tree hi habove hover ω
  have hst := he.tree.inv he.lt
  obtain ⟨s', ω₂, hrollout, hs', hend⟩ := rollout_spec hG hst ω₁
    (hrank _ (he.tree.played he.lt))
  have hlen : t₁.length ≤ fuel := by
    rcases he.fresh_or_over with ⟨-, hlen⟩ | ⟨-, hlen, -⟩ <;> omega
  have hbounds : ∀ j, 0 ≤ winsOf t₁ j ∧ 0 ≤ lossesOf t₁ j := by
    intro j
    rw [lossesOf, he.visits, he.wins]
    exact h.bounds j
  obtain ⟨t', r, hback, hr₀, hr₁, hc⟩ := backpropagate_spec hG he.tree he.lt hbounds
    (fun p hp => he.above hp) hs' hend hlen
  refine ⟨t', ω₂, st', ?_, h.credited he ⟨hr₀, hr₁⟩ hc⟩
  rw [iteration, hG.clone hs₀, hselect, Option.bind_some, hexpand, Option.bind_some, hrollout,
    Option.bind_some, hback]
  rfl

/-- The states of games from `s₀` are no further from their end. -/
theorem Lawful.rank_le (hG : Lawful G I rank) (hs₀ : I s₀) (h : Played G s₀ s) :
    rank s ≤ rank s₀ := by
  induction h with
  | start => exact le_rfl
  | @move s s' m hbefore hm hmove ih =>
      have hlt := (hG.of_doMove (hG.played hs₀ hbefore) hm hmove).2.2
      omega

theorem iterations_spec (hG : Lawful G I rank) (hs₀ : I s₀) (hrank : rank s₀ ≤ fuel) :
    ∀ (k : Nat) {count : Nat} {t : Nodes G.Move} {st : Nat → G.State} (ω : Rng),
      SearchInv I s₀ count t st → count + k + 1 ≤ fuel →
        ∃ t' ω' st', iterations G fuel s₀ k (t, ω) = some (t', ω')
          ∧ SearchInv I s₀ (count + k) t' st' := by
  intro k
  induction k with
  | zero => exact fun {count t st} ω h _ => ⟨t, ω, st, rfl, h⟩
  | succ k ih =>
      intro count t st ω h hfuel
      have hlen := h.length
      obtain ⟨t₁, ω₁, st₁, hiteration, h₁⟩ := iteration_spec hG hs₀
        (fun s hs => (hG.rank_le hs₀ hs).trans hrank) h (by omega) ω
      obtain ⟨t', ω', st', hrest, h'⟩ := ih ω₁ h₁ (by omega)
      refine ⟨t', ω', st', ?_, by rwa [Nat.add_assoc, Nat.add_comm 1 k] at h'⟩
      rw [iterations, hiteration, Option.bind_some, hrest]

/-- The search returns, with a tree that has the invariant. -/
theorem search_spec (hG : Lawful G I rank) (hs₀ : I s₀) {itermax : Nat} (ω : Rng)
    (hfuel : itermax + 1 ≤ fuel) (hrank : rank s₀ ≤ fuel) :
    ∃ t ω' st, search G fuel s₀ itermax ω = some (t, ω') ∧ SearchInv I s₀ itermax t st := by
  obtain ⟨t, ω', st, hrun, h⟩ := iterations_spec hG hs₀ hrank itermax ω (searchInv_new hs₀)
    (by omega)
  exact ⟨t, ω', st, hrun, by rwa [Nat.zero_add] at h⟩

end MctsConnectFour.Uct
