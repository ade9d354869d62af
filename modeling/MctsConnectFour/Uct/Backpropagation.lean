/-
The last phase of an iteration: the walk from a node to the root.

`Credited` is what the walk has done when it comes to `cursor`. Its
accounts are those of Lib/RootedTree: every node on the way takes in a
visit and hands it on; and it takes in a result and hands on what the
result leaves of a visit, which is the result from the point of view of
its parent.
-/
import Mathlib.Tactic.NormNum
import Mathlib.Tactic.Ring
import MctsConnectFour.Uct.Search

namespace MctsConnectFour.Uct

open Loops
open RootedTree (Carried)

variable {G : GameState} {I : G.State → Prop} {rank : G.State → Nat}
variable {s₀ s : G.State} {t₁ t t' : Nodes G.Move} {st : Nat → G.State} {ℓ c : Nat} {r : Rat}

-- ============================================================ accounts

/-- The visits of a node, and what they leave beside its wins. -/
def visitsQ (t : Nodes G.Move) (i : Nat) : Rat := visitsOf t i
def lossesOf (t : Nodes G.Move) (i : Nat) : Rat := visitsOf t i - winsOf t i

theorem visitsQ_update {i : Nat} (h : i < t.length) (r : Rat) :
    visitsQ (update t i r) = Function.update (visitsQ t) i (visitsQ t i + 1) := by
  funext j
  by_cases hj : j = i
  · subst hj
    simp [visitsQ, visitsOf_update h]
  · simp [visitsQ, visitsOf_update h, hj]

theorem lossesOf_update {i : Nat} (h : i < t.length) (r : Rat) :
    lossesOf (update t i r) = Function.update (lossesOf t) i (lossesOf t i + (1 - r)) := by
  funext j
  by_cases hj : j = i
  · subst hj
    simp only [lossesOf, visitsOf_update h, winsOf_update h, Function.update_self]
    push_cast
    ring
  · simp [lossesOf, visitsOf_update h, winsOf_update h, hj]

/-- The result of the rollout for node `i`, when it is `r` for player 1. -/
def credit (t : Nodes G.Move) (r : Rat) (i : Nat) : Rat := if playerOf t i = 1 then r else 1 - r

theorem credit_bounds (hr : 0 ≤ r ∧ r ≤ 1) (t : Nodes G.Move) (i : Nat) :
    0 ≤ credit t r i ∧ credit t r i ≤ 1 := by
  obtain ⟨hr₀, hr₁⟩ := hr
  unfold credit
  by_cases hplayer : playerOf t i = 1
  · rw [if_pos hplayer]
    exact ⟨hr₀, hr₁⟩
  · rw [if_neg hplayer]
    constructor <;> linarith

/-- What a child leaves is the result of its parent. -/
theorem TreeInv.credit_parent (hG : Lawful G I rank) (h : TreeInv I s₀ t st) (r : Rat) {p : Nat}
    (hc : parentOf t c = some p) : 1 - credit t r c = credit t r p := by
  have hplayer := h.player_child hG hc
  have hp := hG.player (h.inv (h.parent_lt hc))
  rw [← h.player (h.parent_lt hc)] at hp
  unfold credit
  rcases hp with hp | hp
  · rw [hplayer, hp]
    norm_num
  · rw [hplayer, hp]
    norm_num

-- ============================================================ the walk

/-- The walk from `ℓ` in the tree `t₁` has come to `cursor`. -/
structure Credited (t₁ : Nodes G.Move) (ℓ : Nat) (r : Rat) (t : Nodes G.Move)
    (cursor : Option Nat) : Prop where
  shape : SameShape t₁ t
  lt : ∀ {c}, cursor = some c → c < t₁.length
  visits : Carried (childrenOf t₁) (visitsQ t₁) (visitsQ t₁) ℓ (fun _ => 1) (visitsQ t)
    (visitsQ t) cursor
  wins : Carried (childrenOf t₁) (winsOf t₁) (lossesOf t₁) ℓ (credit t₁ r) (winsOf t)
    (lossesOf t) cursor
  root : visitsOf t 0 = visitsOf t₁ 0 + if cursor = none then 1 else 0
  grows : ∀ j, visitsOf t₁ j ≤ visitsOf t j
  bounds : ∀ j, 0 ≤ winsOf t j ∧ 0 ≤ lossesOf t j
  first : cursor = some ℓ ∧ visitsOf t ℓ = visitsOf t₁ ℓ
    ∨ (∀ c, cursor = some c → c < ℓ) ∧ visitsOf t ℓ = visitsOf t₁ ℓ + 1
  /-- only the start and nodes below fully expanded ones are visited -/
  untried : ∀ c, visitsOf t c = visitsOf t₁ c ∨ c = ℓ
    ∨ ∀ p, parentOf t₁ c = some p → untriedOf t₁ p = []
  above : ∀ {c}, cursor = some c → c = ℓ ∨ Above t₁ c

theorem Credited.start (hℓ : ℓ < t₁.length)
    (hbounds : ∀ j, 0 ≤ winsOf t₁ j ∧ 0 ≤ lossesOf t₁ j) (r : Rat) :
    Credited t₁ ℓ r t₁ (some ℓ) where
  shape := .refl t₁
  lt hc := Option.some.inj hc ▸ hℓ
  visits := .start _ _ _ _
  wins := .start _ _ _ _
  root := by simp
  grows _ := le_rfl
  bounds := hbounds
  first := Or.inl ⟨rfl, rfl⟩
  untried _ := Or.inl rfl
  above hc := Or.inl (Option.some.inj hc).symm

/-- One turn of the walk. -/
theorem Credited.step (hG : Lawful G I rank) (h₁ : TreeInv I s₀ t₁ st) (hr : 0 ≤ r ∧ r ≤ 1)
    (habove : ∀ p, parentOf t₁ ℓ = some p → Above t₁ p) (h : Credited t₁ ℓ r t (some c)) :
    Credited t₁ ℓ r (update t c (credit t₁ r c)) (parentOf t₁ c) := by
  have hc₁ : c < t₁.length := h.lt rfl
  have hc : c < t.length := h.shape.length ▸ hc₁
  have hup := visitsOf_update hc (credit t₁ r c)
  have hbounds := credit_bounds hr t₁ c
  have hlow : c ≤ ℓ := by
    rcases h.first with ⟨hcl, -⟩ | ⟨hlt, -⟩
    · exact (Option.some.inj hcl).le
    · exact (hlt c rfl).le
  constructor
  case shape => exact h.shape.trans (sameShape_update hc _)
  case lt => exact fun hp => h₁.parent_lt hp
  case visits =>
    rw [visitsQ_update hc]
    exact h.visits.step h₁.linked fun _ _ => rfl
  case wins =>
    rw [winsOf_update hc, lossesOf_update hc]
    exact h.wins.step h₁.linked fun p hp => h₁.credit_parent hG r hp
  case root =>
    have hroot := h.root
    rw [if_neg (by simp), Nat.add_zero] at hroot
    rw [hup]
    by_cases hzero : c = 0
    · subst hzero
      rw [if_pos ((h₁.parent_none hc₁).mpr rfl), Function.update_self, hroot]
    · rw [if_neg (fun hnone => hzero ((h₁.parent_none hc₁).mp hnone)),
        Function.update_of_ne (Ne.symm hzero), hroot, Nat.add_zero]
  case grows =>
    intro j
    rw [hup]
    by_cases hj : j = c
    · subst hj
      rw [Function.update_self]
      exact (h.grows j).trans (Nat.le_succ _)
    · rw [Function.update_of_ne hj]
      exact h.grows j
  case bounds =>
    intro j
    rw [winsOf_update hc, lossesOf_update hc]
    obtain ⟨hwins, hlosses⟩ := h.bounds j
    by_cases hj : j = c
    · subst hj
      rw [Function.update_self, Function.update_self]
      constructor <;> linarith [hbounds.1, hbounds.2]
    · rw [Function.update_of_ne hj, Function.update_of_ne hj]
      exact ⟨hwins, hlosses⟩
  case first =>
    refine Or.inr ⟨fun p hp => (h₁.linked.lt hp).trans_le hlow, ?_⟩
    rw [hup]
    rcases h.first with ⟨hcl, heq⟩ | ⟨hlt, heq⟩
    · obtain rfl := Option.some.inj hcl
      rw [Function.update_self, heq]
    · rw [Function.update_of_ne (hlt c rfl).ne', heq]
  case untried =>
    intro j
    rw [hup]
    by_cases hj : j = c
    · subst hj
      rcases h.above rfl with hstart | habove'
      · exact Or.inr (Or.inl hstart)
      · exact Or.inr (Or.inr fun p hp => (h₁.above_parent habove' hp).2)
    · rw [Function.update_of_ne hj]
      exact h.untried j
  case above =>
    intro p hp
    rcases h.above rfl with rfl | habove'
    · exact Or.inr (habove p hp)
    · exact Or.inr (h₁.above_parent habove' hp).1

/-- The backpropagation comes to the root. -/
theorem backpropagate_spec (hG : Lawful G I rank) (h₁ : TreeInv I s₀ t₁ st) (hℓ : ℓ < t₁.length)
    (hbounds : ∀ j, 0 ≤ winsOf t₁ j ∧ 0 ≤ lossesOf t₁ j)
    (habove : ∀ p, parentOf t₁ ℓ = some p → Above t₁ p) (hs : I s) (hend : G.getMoves s = [])
    {fuel : Nat} (hfuel : t₁.length ≤ fuel) :
    ∃ t r, backpropagate G fuel s t₁ ℓ = some t ∧ 0 ≤ r ∧ r ≤ 1 ∧ Credited t₁ ℓ r t none := by
  obtain ⟨r, hr₀, hr₁, hfirst, hsecond⟩ := hG.getResult hs hend
  -- the result for a node is its credit
  have hresult : ∀ {c}, c < t₁.length → G.getResult s (playerOf t₁ c) = some (credit t₁ r c) := by
    intro c hc
    have hplayer := hG.player (h₁.inv hc)
    rw [← h₁.player hc] at hplayer
    unfold credit
    rcases hplayer with hp | hp
    · rw [hp, if_pos rfl, hfirst]
    · rw [hp, if_neg (by decide), hsecond]
  have hstep : ∀ x : Nodes G.Move × Option Nat, Credited t₁ ℓ r x.1 x.2 → x.2.isSome = true →
      ∃ x', backpropagateStep G s x = some x' ∧ Credited t₁ ℓ r x'.1 x'.2
        ∧ x'.2.elim 0 (· + 1) < x.2.elim 0 (· + 1) := by
    intro x hx hsome
    obtain ⟨t, cursor⟩ := x
    obtain ⟨c, rfl⟩ := Option.isSome_iff_exists.mp hsome
    have hc : c < t.length := hx.shape.length ▸ hx.lt rfl
    obtain ⟨n, hn⟩ := exists_node hc
    have hplayer : n.playerJustMoved = playerOf t₁ c := by
      rw [← hx.shape.player, playerOf, view_eq hn]
    have hparent : n.parentNode = parentOf t₁ c := by
      rw [← hx.shape.parent, parentOf, view_eq hn]
    refine ⟨(update t c (credit t₁ r c), parentOf t₁ c), ?_, hx.step hG h₁ ⟨hr₀, hr₁⟩ habove, ?_⟩
    · rw [backpropagateStep, Option.bind_some, hn, Option.bind_some, hplayer, hresult (hx.lt rfl),
        hparent]
      rfl
    · show (parentOf t₁ c).elim 0 (· + 1) < c + 1
      cases hp : parentOf t₁ c with
      | none => exact Nat.succ_pos c
      | some p => exact Nat.succ_lt_succ (h₁.linked.lt hp)
  have hstart : Credited t₁ ℓ r (t₁, some ℓ).1 (t₁, some ℓ).2 := .start hℓ hbounds r
  obtain ⟨x, hx, hcredited, hdone⟩ := whileLoop_spec
    (I := fun x : Nodes G.Move × Option Nat => Credited t₁ ℓ r x.1 x.2)
    (fun x => x.2.elim 0 (· + 1)) hstep hstart (show ℓ + 1 ≤ fuel by omega)
  obtain ⟨t, cursor⟩ := x
  obtain rfl : cursor = none := Option.not_isSome_iff_eq_none.mp (Bool.eq_false_iff.mp hdone)
  exact ⟨t, r, by rw [backpropagate, hx]; rfl, hr₀, hr₁, hcredited⟩

end MctsConnectFour.Uct
