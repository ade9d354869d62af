/-
`NimState`: chips of which the players take one, two or three in turn.

The docstring says who wins: "any initial state of the form 4n+k for
k = 1,2,3 is a win for player 1 (by choosing k) chips", and any of the
form 4n for player 2. The multiples of four are the lost positions of
Lib/NormalPlay, and the player who takes `chips % 4` wins.
-/
import Mathlib.Algebra.Order.Ring.Rat
import MctsConnectFour.Lib.NormalPlay
import MctsConnectFour.Uct.Laws

namespace MctsConnectFour.Uct.Nim

open NormalPlay (IsKernel Play)

-- =============================================================== class

/-- `NimState`. -/
structure NimState where
  playerJustMoved : Int
  chips : Int
deriving DecidableEq, Repr

namespace NimState

/-- `NimState ( ch )`. -/
def new (ch : Int) : NimState := ⟨2, ch⟩

/-- `Clone ( )`. -/
def clone (s : NimState) : NimState := { new s.chips with playerJustMoved := s.playerJustMoved }

/-- `DoMove ( move )`. -/
def doMove (s : NimState) (move : Int) : Option NimState :=
  if move ≥ 1 ∧ move ≤ 3 then
    some {
      chips := s.chips - move
      playerJustMoved := 3 - s.playerJustMoved }
  else none

/-- `GetMoves ( )`: `range ( 1, min ( [ 4, chips + 1 ] ) )`. -/
def getMoves (s : NimState) : List Int :=
  (List.range (min 4 (s.chips + 1) - 1).toNat).map fun (k : Nat) => 1 + (k : Int)

/-- `GetResult ( playerjm )`. -/
def getResult (s : NimState) (playerjm : Int) : Option Rat :=
  if s.chips = 0 then some (if s.playerJustMoved = playerjm then 1 else 0) else none

variable {s s' : NimState} {m p : Int}

theorem mem_getMoves : m ∈ s.getMoves ↔ 1 ≤ m ∧ m ≤ 3 ∧ m ≤ s.chips := by
  rw [getMoves, List.mem_map]
  constructor
  · intro hm
    obtain ⟨k, hk, rfl⟩ := hm
    rw [List.mem_range] at hk
    omega
  · intro hm
    exact ⟨(m - 1).toNat, by rw [List.mem_range]; omega, by omega⟩

theorem getMoves_eq_nil : s.getMoves = [] ↔ s.chips ≤ 0 := by
  rw [getMoves, List.map_eq_nil_iff, List.range_eq_nil]
  omega

/-- A listed move can be made. -/
theorem doMove_spec (hm : m ∈ s.getMoves) :
    s.doMove m = some ⟨3 - s.playerJustMoved, s.chips - m⟩ := by
  obtain ⟨h₁, h₃, -⟩ := mem_getMoves.mp hm
  rw [doMove, if_pos ⟨h₁, h₃⟩]

/-- The states of games: chips on the table and two players. -/
structure Valid (s : NimState) : Prop where
  chips : 0 ≤ s.chips
  player : s.playerJustMoved = 1 ∨ s.playerJustMoved = 2

theorem Valid.doMove (h : s.Valid) (hm : m ∈ s.getMoves) :
    (NimState.mk (3 - s.playerJustMoved) (s.chips - m)).Valid where
  chips := by
    have hle := (mem_getMoves.mp hm).2.2
    show 0 ≤ s.chips - m
    omega
  player := by
    have hplayer := h.player
    show 3 - s.playerJustMoved = 1 ∨ 3 - s.playerJustMoved = 2
    omega

theorem rank_lt (hm : m ∈ s.getMoves) : (s.chips - m).toNat < s.chips.toNat := by
  have hm := mem_getMoves.mp hm
  omega

end NimState

/-- The class as the search uses it. -/
def nim : GameState where
  State := NimState
  Move := Int
  playerJustMoved := NimState.playerJustMoved
  clone := NimState.clone
  doMove := NimState.doMove
  getMoves := NimState.getMoves
  getResult := NimState.getResult

open NimState

/-- `NimState` keeps the contract of `GameState`, and no `assert` of it
fails in a game from a valid state. -/
theorem nim_lawful : Lawful nim NimState.Valid fun s => s.chips.toNat where
  clone _ := rfl
  player h := h.player
  getMoves_nodup _ := by
    apply List.Nodup.map _ List.nodup_range
    intro a b hab
    have hab : 1 + (a : Int) = 1 + (b : Int) := hab
    omega
  doMove {s m} h hm := by
    refine ⟨_, doMove_spec hm, h.doMove hm, rfl, ?_⟩
    exact rank_lt hm
  getResult {s} h hend := by
    have hzero : s.chips = 0 := le_antisymm (getMoves_eq_nil.mp hend) h.chips
    show ∃ r, _ ∧ _ ∧ s.getResult 1 = _ ∧ s.getResult 2 = _
    simp only [NimState.getResult, if_pos hzero]
    rcases h.player with hp | hp
    · exact ⟨1, by norm_num, by norm_num, by simp [hp], by simp [hp]⟩
    · exact ⟨0, by norm_num, by norm_num, by simp [hp], by simp [hp]⟩

-- ============================================================= solved

/-- The moves of a game. -/
def Moves (s s' : NimState) : Prop := ∃ m ∈ s.getMoves, s.doMove m = some s'

/-- Taking `chips % 4`. -/
def TakesRest (s s' : NimState) : Prop := s.doMove (s.chips % 4) = some s'

/-- No chips, or a multiple of four. -/
def Lost (s : NimState) : Prop := s.chips ≤ 0 ∨ s.chips % 4 = 0

theorem rest_mem {s : NimState} (hlost : ¬ Lost s) : s.chips % 4 ∈ s.getMoves := by
  unfold Lost at hlost
  exact mem_getMoves.mpr (by omega)

theorem TakesRest.lost {s s' : NimState} (h : TakesRest s s') : Lost s' := by
  unfold TakesRest NimState.doMove at h
  split at h
  · obtain rfl := Option.some.inj h
    exact Or.inr (show (s.chips - s.chips % 4) % 4 = 0 by omega)
  · cases h

/-- The multiples of four are the lost positions. -/
theorem isKernel : IsKernel Moves Lost where
  leaves {s s'} hlost hmove hlost' := by
    obtain ⟨m, hm, hmove⟩ := hmove
    rw [doMove_spec hm] at hmove
    obtain rfl := Option.some.inj hmove
    have hm := mem_getMoves.mp hm
    have hlost' : s.chips - m ≤ 0 ∨ (s.chips - m) % 4 = 0 := hlost'
    unfold Lost at hlost
    omega
  enters {s} hlost := by
    have hm := rest_mem hlost
    have hmove := doMove_spec hm
    exact ⟨_, ⟨_, hm, hmove⟩, TakesRest.lost hmove⟩

/-- The state the example game starts from. -/
def five : nim.State := NimState.new 5

theorem valid_five : NimState.Valid five := ⟨by decide, Or.inr rfl⟩

theorem NimState.Valid.lost_iff {s : NimState} (h : s.Valid) : Lost s ↔ s.chips % 4 = 0 := by
  have hchips := h.chips
  unfold Lost
  omega

/-- The turns of a play are those of the players: it is our turn when the
opponent has just moved. -/
theorem play_turn {s₀ : NimState} (h₀ : s₀.Valid) {q : Int} (hq : q = 1 ∨ q = 2)
    {x : Bool × NimState}
    (h : Play Moves TakesRest (decide (s₀.playerJustMoved ≠ q), s₀) x) :
    x.2.Valid ∧ (x.1 = true ↔ x.2.playerJustMoved ≠ q) := by
  -- a move hands the turn over
  have hmoved : ∀ {s s' : NimState} {m : Int}, s.Valid → m ∈ s.getMoves → s.doMove m = some s' →
      s'.Valid ∧ (s'.playerJustMoved = q ↔ s.playerJustMoved ≠ q) := by
    intro s s' m hs hm hmove
    rw [doMove_spec hm] at hmove
    obtain rfl := Option.some.inj hmove
    refine ⟨hs.doMove hm, ?_⟩
    have hplayer := hs.player
    show 3 - s.playerJustMoved = q ↔ _
    omega
  induction h with
  | start => exact ⟨h₀, decide_eq_true_iff⟩
  | @ours s s' _ hreply ih =>
      obtain ⟨hs, hturn⟩ := ih
      have hchips : 0 ≤ s.chips := hs.chips
      have hm : s.chips % 4 ∈ s.getMoves := by
        unfold TakesRest NimState.doMove at hreply
        split at hreply
        · exact mem_getMoves.mpr (by omega)
        · cases hreply
      obtain ⟨hs', hplayer⟩ := hmoved hs hm hreply
      exact ⟨hs', iff_of_false (by simp) (not_not.mpr (hplayer.mpr (hturn.mp rfl)))⟩
  | @theirs s s' _ hmove ih =>
      obtain ⟨hs, hturn⟩ := ih
      obtain ⟨m, hm, hmove⟩ := hmove
      obtain ⟨hs', hplayer⟩ := hmoved hs hm hmove
      refine ⟨hs', iff_of_true rfl ?_⟩
      intro hq'
      have htrue := hturn.mpr (hplayer.mp hq')
      cases htrue

/-- A player for whom the chips are a multiple of four when he has moved,
and no multiple when he is to move, and who takes `chips % 4` each time,
can always do so, and has won when no chip is left, whatever the other
player takes. That is player 2 for a new state with a multiple of four,
and player 1 for any other. -/
theorem nim_solved {s₀ : NimState} (h₀ : s₀.Valid) {q : Int} (hq : q = 1 ∨ q = 2)
    (hwins : s₀.chips % 4 = 0 ↔ s₀.playerJustMoved = q) {b : Bool} {s : NimState}
    (hplay : Play Moves TakesRest (decide (s₀.playerJustMoved ≠ q), s₀) (b, s)) :
    (s.playerJustMoved ≠ q → s.chips % 4 ∈ s.getMoves)
      ∧ (s.getMoves = [] → s.getResult q = some 1 ∧ s.getResult (3 - q) = some 0) := by
  have hstart : Lost s₀ ↔ decide (s₀.playerJustMoved ≠ q) = false := by
    rw [h₀.lost_iff, hwins]
    simp
  have hlost := hplay.lost_iff isKernel (fun _ => TakesRest.lost) hstart
  obtain ⟨hs, hturn⟩ := play_turn h₀ hq hplay
  constructor
  · intro hours
    apply rest_mem
    intro hs'
    have hfalse := hlost.mp hs'
    rw [hturn.mpr hours] at hfalse
    cases hfalse
  · intro hend
    have hzero : s.chips = 0 := le_antisymm (getMoves_eq_nil.mp hend) hs.chips
    have hb : b = false := hlost.mp (Or.inl hzero.le)
    have hplayer : s.playerJustMoved = q := by
      by_contra hne
      have htrue := hturn.mpr hne
      rw [hb] at htrue
      cases htrue
    have hother : s.playerJustMoved ≠ 3 - q := by omega
    simp only [NimState.getResult, if_pos hzero, if_pos hplayer, if_neg hother]
    exact ⟨trivial, trivial⟩

/-- Five chips: player 1 takes one. -/
theorem nim_solved_five :
    ((NimState.mk 1 4).playerJustMoved ≠ 1 → (4 : Int) % 4 ∈ (NimState.mk 1 4).getMoves)
      ∧ ((NimState.mk 1 4).getMoves = [] →
        (NimState.mk 1 4).getResult 1 = some 1 ∧ (NimState.mk 1 4).getResult (3 - 1) = some 0) :=
  nim_solved valid_five (Or.inl rfl) (by decide)
    (.ours .start (show TakesRest (.new 5) ⟨1, 4⟩ from rfl))

end MctsConnectFour.Uct.Nim
