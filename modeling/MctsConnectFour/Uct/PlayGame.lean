/-
`UCTPlayGame ( )`: two searches play a game against each other.

The source plays NimState ( 5 ), with OthelloState ( 4 ) and OXOState ( )
to be uncommented, and lets both players make 1000 iterations; the state
and the two counts are arguments here.
-/
import MctsConnectFour.Uct.Results

namespace MctsConnectFour.Uct

open Loops

variable (G : GameState)

/-- A turn of the loop: the player to move searches and moves. -/
def playTurn (fuel itermax₁ itermax₂ : Nat) (x : G.State × Rng) : Option (G.State × Rng) :=
  (uct G fuel x.1 (if G.playerJustMoved x.1 = 1 then itermax₁ else itermax₂) x.2).bind fun d =>
    (G.doMove x.1 d.1).map fun s => (s, d.2)

/-- What is printed at the end: the player who wins, or `none` for
"Nobody wins!". -/
def announced (s : G.State) : Option (Option Int) :=
  (G.getResult s (G.playerJustMoved s)).map fun r =>
    if r = 1 then some (G.playerJustMoved s)
    else if r = 0 then some (3 - G.playerJustMoved s)
    else none

/-- `UCTPlayGame ( )` from a state. -/
def uctPlayGame (fuel itermax₁ itermax₂ : Nat) (state : G.State) (ω : Rng) :
    Option (G.State × Option Int) :=
  (whileLoop (fun x => !(G.getMoves x.1).isEmpty) (playTurn G fuel itermax₁ itermax₂) fuel
    (state, ω)).bind fun x => (announced G x.1).map fun w => (x.1, w)

variable {G} {I : G.State → Prop} {rank : G.State → Nat} {s₀ s : G.State}

/-- At the end of a game what is printed agrees with the results for both
players. -/
theorem announced_spec (hG : Lawful G I rank) (hs : I s) (hend : G.getMoves s = []) :
    ∃ w, announced G s = some w
      ∧ (∀ p, w = some p ↔ (p = 1 ∨ p = 2) ∧ G.getResult s p = some 1)
      ∧ (w = none ↔ ∀ p, p = 1 ∨ p = 2 → G.getResult s p ≠ some 0) := by
  obtain ⟨r, -, -, hfirst, hsecond⟩ := hG.getResult hs hend
  have hplayer := hG.player hs
  generalize hq : G.playerJustMoved s = q at hplayer
  -- what is left is arithmetic: the two results add up to one
  have hresults : ∃ x, G.getResult s q = some x ∧ G.getResult s (3 - q) = some (1 - x) := by
    rcases hplayer with rfl | rfl
    · exact ⟨r, hfirst, hsecond⟩
    · exact ⟨1 - r, hsecond, by rw [show (3 : Int) - 2 = 1 from rfl, hfirst, sub_sub_cancel]⟩
  obtain ⟨x, hx, hother⟩ := hresults
  have hsides : ∀ p : Int, p = 1 ∨ p = 2 ↔ p = q ∨ p = 3 - q := by
    intro p
    rcases hplayer with rfl | rfl <;> omega
  have hne : q ≠ 3 - q := by omega
  simp only [announced, hq, hx, Option.map_some, hsides, Option.some_inj, exists_eq_left']
  by_cases hone : x = 1
  · subst hone
    rw [if_pos rfl]
    constructor
    · intro p
      constructor
      · intro hp
        obtain rfl := Option.some.inj hp
        exact ⟨Or.inl rfl, hx⟩
      · intro hp
        rcases hp with ⟨rfl | rfl, hp⟩
        · rfl
        · rw [hother] at hp
          norm_num at hp
    · refine iff_of_false (by simp) fun hnone => hnone (3 - q) (Or.inr rfl) ?_
      rw [hother, sub_self]
  · rw [if_neg hone]
    by_cases hzero : x = 0
    · subst hzero
      rw [if_pos rfl]
      constructor
      · intro p
        constructor
        · intro hp
          obtain rfl := Option.some.inj hp
          exact ⟨Or.inr rfl, by rw [hother, sub_zero]⟩
        · intro hp
          rcases hp with ⟨rfl | rfl, hp⟩
          · rw [hx] at hp
            norm_num at hp
          · rfl
      · exact iff_of_false (by simp) fun hnone => hnone q (Or.inl rfl) hx
    · rw [if_neg hzero]
      constructor
      · intro p
        refine iff_of_false (by simp) ?_
        intro hp
        rcases hp with ⟨rfl | rfl, hp⟩
        · rw [hx] at hp
          exact hone (Option.some.inj hp)
        · rw [hother] at hp
          exact hzero (by linarith [Option.some.inj hp])
      · refine iff_of_true rfl fun p hp => ?_
        rcases hp with rfl | rfl
        · rw [hx]
          exact fun h => hzero (Option.some.inj h)
        · rw [hother]
          exact fun h => hone (by linarith [Option.some.inj h])

/-- Two searches that make at least one iteration each play a game to its
end, and the winner announced is the one both players' results name. -/
theorem uctPlayGame_spec (hG : Lawful G I rank) (hs₀ : I s₀) {itermax₁ itermax₂ : Nat}
    (h₁ : 1 ≤ itermax₁) (h₂ : 1 ≤ itermax₂) (ω : Rng) {fuel : Nat}
    (hfuel : max itermax₁ itermax₂ + 1 ≤ fuel) (hrank : rank s₀ ≤ fuel) :
    ∃ s w, uctPlayGame G fuel itermax₁ itermax₂ s₀ ω = some (s, w)
      ∧ Played G s₀ s ∧ G.getMoves s = []
      ∧ (∀ p, w = some p ↔ (p = 1 ∨ p = 2) ∧ G.getResult s p = some 1)
      ∧ (w = none ↔ ∀ p, p = 1 ∨ p = 2 → G.getResult s p ≠ some 0) := by
  have hstep : ∀ x : G.State × Rng, Played G s₀ x.1 → (!(G.getMoves x.1).isEmpty) = true →
      ∃ x', playTurn G fuel itermax₁ itermax₂ x = some x' ∧ Played G s₀ x'.1
        ∧ rank x'.1 < rank x.1 := by
    intro x hx hmoves
    have hopen : G.getMoves x.1 ≠ [] := by
      intro hnil
      rw [hnil] at hmoves
      cases hmoves
    have hI := hG.played hs₀ hx
    generalize hcount : (if G.playerJustMoved x.1 = 1 then itermax₁ else itermax₂) = count
    have hbounds : 1 ≤ count ∧ count + 1 ≤ fuel := by
      rw [← hcount]
      split <;> omega
    obtain ⟨m, ω', huct, hm⟩ := uct_returns hG hI x.2 hbounds.2
      ((hG.rank_le hs₀ hx).trans hrank) hbounds.1 hopen
    obtain ⟨s', hmove, -, -, hlt⟩ := hG.doMove hI hm
    refine ⟨(s', ω'), ?_, hx.move hm hmove, hlt⟩
    rw [playTurn, hcount, huct, Option.bind_some, hmove]
    rfl
  obtain ⟨x, hx, hplayed, hdone⟩ := whileLoop_spec
    (I := fun x : G.State × Rng => Played G s₀ x.1) (fun x => rank x.1) hstep
    (show Played G s₀ (s₀, ω).1 from .start) hrank
  have hend : G.getMoves x.1 = [] := by simpa using hdone
  obtain ⟨w, hw, hwins⟩ := announced_spec hG (hG.played hs₀ hplayed) hend
  exact ⟨x.1, w, by rw [uctPlayGame, hx, Option.bind_some, hw]; rfl, hplayed, hend, hwins⟩

/-- The game of the source, with a thousand iterations for each. -/
theorem uctPlayGame_spec_nim :
    ∃ s w, uctPlayGame Nim.nim 1001 1000 1000 Nim.five (fun k => k) = some (s, w)
      ∧ Played Nim.nim Nim.five s ∧ Nim.nim.getMoves s = []
      ∧ (∀ p, w = some p ↔ (p = 1 ∨ p = 2) ∧ Nim.nim.getResult s p = some 1)
      ∧ (w = none ↔ ∀ p, p = 1 ∨ p = 2 → Nim.nim.getResult s p ≠ some 0) :=
  uctPlayGame_spec Nim.nim_lawful Nim.valid_five (by decide) (by decide) _ (by decide)
    (by decide)

end MctsConnectFour.Uct
