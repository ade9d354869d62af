/-
`OXOState`: noughts and crosses on the squares 0 to 8.

`GetMoves ( )` does not ask whether somebody has three in a row, so a game
goes on until the board is full, and both players can have a line by then.
`GetResult ( )` goes by the first line in its list. Called before the end
it would take three empty squares for a line; the search does not.
-/
import Mathlib.Algebra.Order.Ring.Rat
import MctsConnectFour.Lib.Tally
import MctsConnectFour.Uct.Laws

namespace MctsConnectFour.Uct.Oxo

open Tallies

-- =============================================================== class

/-- `OXOState`. -/
structure OXOState where
  playerJustMoved : Int
  board : Vector Int 9
deriving DecidableEq

namespace OXOState

/-- `OXOState ( )`. -/
def new : OXOState where
  playerJustMoved := 2
  board := .replicate 9 0

/-- `Clone ( )`. -/
def clone (s : OXOState) : OXOState :=
  { new with
    playerJustMoved := s.playerJustMoved
    board := s.board }

/-- `board [ i ]`. -/
def square (s : OXOState) (i : Nat) : Int := s.board[i]?.getD 0

/-- `DoMove ( move )`. -/
def doMove (s : OXOState) (move : Int) : Option OXOState :=
  if move ≥ 0 ∧ move ≤ 8 ∧ s.square move.toNat = 0 then
    some {
      playerJustMoved := 3 - s.playerJustMoved
      board := s.board.setIfInBounds move.toNat (3 - s.playerJustMoved) }
  else none

/-- `GetMoves ( )`. -/
def getMoves (s : OXOState) : List Int :=
  ((List.range 9).filter fun i => s.square i = 0).map fun (i : Nat) => (i : Int)

/-- The lines, in the order of `GetResult ( )`. -/
def lines : List (Nat × Nat × Nat) :=
  [(0, 1, 2), (3, 4, 5), (6, 7, 8), (0, 3, 6), (1, 4, 7), (2, 5, 8), (0, 4, 8), (2, 4, 6)]

/-- What `GetResult ( playerjm )` returns for a line, if it does. -/
def lineResult (s : OXOState) (playerjm : Int) (l : Nat × Nat × Nat) : Option Rat :=
  if s.square l.1 = s.square l.2.1 ∧ s.square l.2.1 = s.square l.2.2 then
    some (if s.square l.1 = playerjm then 1 else 0)
  else none

/-- `GetResult ( playerjm )`. -/
def getResult (s : OXOState) (playerjm : Int) : Option Rat :=
  match lines.findSome? (s.lineResult playerjm) with
  | some r => some r
  | none => if s.getMoves = [] then some (1 / 2) else none

/-- The squares with a value. -/
def count (s : OXOState) (v : Int) : Nat := tally s.square (List.range 9) v

/-- The states of games: the players alternate, player 1 begins, and no
square is anybody else's. -/
structure Valid (s : OXOState) : Prop where
  squares : ∀ i, i < 9 → s.square i = 0 ∨ s.square i = 1 ∨ s.square i = 2
  turns : s.playerJustMoved = 2 ∧ s.count 1 = s.count 2
    ∨ s.playerJustMoved = 1 ∧ s.count 1 = s.count 2 + 1

variable {s : OXOState} {m p : Int}

theorem Valid.player (h : s.Valid) : s.playerJustMoved = 1 ∨ s.playerJustMoved = 2 := by
  rcases h.turns with ⟨hp, -⟩ | ⟨hp, -⟩
  · exact Or.inr hp
  · exact Or.inl hp

theorem Valid.total (h : s.Valid) : s.count 0 + s.count 1 + s.count 2 = 9 :=
  tally_three (fun i hi => h.squares i (List.mem_range.mp hi)) (by decide) (by decide) (by decide)

theorem valid_new : new.Valid where
  squares := by decide
  turns := by decide

theorem mem_getMoves : m ∈ s.getMoves ↔ 0 ≤ m ∧ m ≤ 8 ∧ s.square m.toNat = 0 := by
  rw [getMoves, List.mem_map]
  constructor
  · intro hm
    obtain ⟨i, hi, rfl⟩ := hm
    obtain ⟨hi, hsquare⟩ := List.mem_filter.mp hi
    rw [List.mem_range] at hi
    exact ⟨by omega, by omega, of_decide_eq_true hsquare⟩
  · intro hm
    obtain ⟨hlow, hhigh, hsquare⟩ := hm
    exact ⟨m.toNat, List.mem_filter.mpr ⟨List.mem_range.mpr (by omega), decide_eq_true hsquare⟩,
      Int.toNat_of_nonneg hlow⟩

theorem length_getMoves (s : OXOState) : s.getMoves.length = s.count 0 := by
  rw [getMoves, List.length_map, count, tally, List.countP_eq_length_filter]

theorem getMoves_nodup (s : OXOState) : s.getMoves.Nodup := by
  apply List.Nodup.map _ (List.nodup_range.filter _)
  intro i j hij
  exact Int.ofNat.inj hij

-- =============================================================== moves

/-- The state after a listed move. -/
def moved (s : OXOState) (m : Int) : OXOState where
  playerJustMoved := 3 - s.playerJustMoved
  board := s.board.setIfInBounds m.toNat (3 - s.playerJustMoved)

theorem doMove_spec (hm : m ∈ s.getMoves) : s.doMove m = some (s.moved m) := by
  rw [doMove, if_pos (mem_getMoves.mp hm)]
  rfl

theorem square_moved (hm : m ∈ s.getMoves) :
    (s.moved m).square = Function.update s.square m.toNat (3 - s.playerJustMoved) := by
  have hlt : m.toNat < 9 := by
    have hm := mem_getMoves.mp hm
    omega
  funext i
  unfold square moved
  rw [Vector.getElem?_setIfInBounds]
  by_cases hi : m.toNat = i
  · subst hi
    simp [hlt]
  · simp [hi, Ne.symm hi]

/-- The mover takes a square that was empty. -/
theorem count_moved (hm : m ∈ s.getMoves) (v : Int) :
    (s.moved m).count v + (if 0 = v then 1 else 0)
      = s.count v + if 3 - s.playerJustMoved = v then 1 else 0 := by
  obtain ⟨hlow, hhigh, hsquare⟩ := mem_getMoves.mp hm
  have hmem : m.toNat ∈ List.range 9 := List.mem_range.mpr (by omega)
  have htally := tally_update (f := s.square) List.nodup_range hmem v (3 - s.playerJustMoved)
  rw [hsquare] at htally
  rw [count, square_moved hm]
  exact htally

theorem count_moved_zero (h : s.Valid) (hm : m ∈ s.getMoves) :
    (s.moved m).count 0 + 1 = s.count 0 := by
  have hcount := count_moved hm 0
  have hplayer := h.player
  rw [if_pos rfl, if_neg (by omega)] at hcount
  omega

theorem Valid.moved (h : s.Valid) (hm : m ∈ s.getMoves) : (s.moved m).Valid where
  squares i hi := by
    rw [square_moved hm]
    by_cases him : i = m.toNat
    · subst him
      rw [Function.update_self]
      rcases h.player with hp | hp <;> simp [hp]
    · rw [Function.update_of_ne him]
      exact h.squares i hi
  turns := by
    have h₁ := count_moved hm 1
    have h₂ := count_moved hm 2
    show 3 - s.playerJustMoved = 2 ∧ _ ∨ 3 - s.playerJustMoved = 1 ∧ _
    rcases h.turns with ⟨hp, hcount⟩ | ⟨hp, hcount⟩
    · simp only [hp] at h₁ h₂
      norm_num at h₁ h₂
      omega
    · simp only [hp] at h₁ h₂
      norm_num at h₁ h₂
      omega

-- ============================================================= results

/-- The first line whose squares are alike. -/
def FirstLine (s : OXOState) (v : Int) : Prop :=
  ∃ pre l post, lines = pre ++ l :: post ∧ s.square l.1 = v ∧ s.square l.2.1 = v
    ∧ s.square l.2.2 = v ∧ ∀ l' ∈ pre, ¬ (s.square l'.1 = s.square l'.2.1
      ∧ s.square l'.2.1 = s.square l'.2.2)

/-- No line has squares that are alike. -/
def NoLine (s : OXOState) : Prop :=
  ∀ l ∈ lines, ¬ (s.square l.1 = s.square l.2.1 ∧ s.square l.2.1 = s.square l.2.2)

theorem lineResult_eq_none {l : Nat × Nat × Nat} :
    s.lineResult p l = none
      ↔ ¬ (s.square l.1 = s.square l.2.1 ∧ s.square l.2.1 = s.square l.2.2) := by
  unfold lineResult
  split <;> simp_all

theorem firstLine_or_noLine (s : OXOState) : (∃ v, s.FirstLine v) ∨ s.NoLine := by
  cases hfind : lines.findSome? (s.lineResult 0) with
  | none =>
      exact Or.inr fun l hl => lineResult_eq_none.mp (List.findSome?_eq_none_iff.mp hfind l hl)
  | some r =>
      obtain ⟨pre, l, post, hlines, hl, hpre⟩ := List.findSome?_eq_some_iff.mp hfind
      have halike : s.square l.1 = s.square l.2.1 ∧ s.square l.2.1 = s.square l.2.2 := by
        by_contra hne
        rw [lineResult_eq_none.mpr hne] at hl
        cases hl
      exact Or.inl ⟨s.square l.1, pre, l, post, hlines, rfl, halike.1.symm,
        (halike.1.trans halike.2).symm, fun l' hl' => lineResult_eq_none.mp (hpre l' hl')⟩

theorem FirstLine.getResult {v : Int} (h : s.FirstLine v) (p : Int) :
    s.getResult p = some (if v = p then 1 else 0) := by
  obtain ⟨pre, l, post, hlines, h₀, h₁, h₂, hpre⟩ := h
  have hfind : lines.findSome? (s.lineResult p) = some (if v = p then 1 else 0) :=
    List.findSome?_eq_some_iff.mpr ⟨pre, l, post, hlines,
      by rw [lineResult, h₀, h₁, h₂, if_pos ⟨rfl, rfl⟩],
      fun l' hl' => lineResult_eq_none.mpr (hpre l' hl')⟩
  rw [OXOState.getResult, hfind]

theorem NoLine.getResult (h : s.NoLine) (p : Int) :
    s.getResult p = if s.getMoves = [] then some (1 / 2) else none := by
  have hfind : lines.findSome? (s.lineResult p) = none :=
    List.findSome?_eq_none_iff.mpr fun l hl => lineResult_eq_none.mpr (h l hl)
  rw [OXOState.getResult, hfind]

/-- In a finished game the squares of a line are somebody's. -/
theorem FirstLine.player (h : s.Valid) (hend : s.getMoves = []) {v : Int} (hv : s.FirstLine v) :
    v = 1 ∨ v = 2 := by
  obtain ⟨pre, l, post, hlines, hl, -⟩ := hv
  have hlt : ∀ l ∈ lines, l.1 < 9 := by decide
  have hmem := hlt l (hlines ▸ List.mem_append_right _ (List.mem_cons_self ..))
  have hzero : s.count 0 = 0 := by rw [← length_getMoves, hend]; rfl
  have hne := tally_eq_zero.mp hzero l.1 (List.mem_range.mpr hmem)
  rw [hl] at hne
  have hsquare := h.squares l.1 hmem
  rw [hl] at hsquare
  exact hsquare.resolve_left hne

end OXOState

open OXOState

/-- The class as the search uses it. -/
def oxo : GameState where
  State := OXOState
  Move := Int
  playerJustMoved := OXOState.playerJustMoved
  clone := OXOState.clone
  doMove := OXOState.doMove
  getMoves := OXOState.getMoves
  getResult := OXOState.getResult

/-- `OXOState` keeps the contract of `GameState`, and no `assert` of it
fails in a game from a valid state. -/
theorem oxo_lawful : Lawful oxo OXOState.Valid fun s => s.count 0 where
  clone _ := rfl
  player h := h.player
  getMoves_nodup {s} _ := s.getMoves_nodup
  doMove {s m} h hm := by
    have hm : m ∈ s.getMoves := hm
    refine ⟨_, doMove_spec hm, h.moved hm, rfl, ?_⟩
    show (s.moved m).count 0 < s.count 0
    have hcount := count_moved_zero h hm
    omega
  getResult {s} h hend := by
    show ∃ r, _ ∧ _ ∧ s.getResult 1 = _ ∧ s.getResult 2 = _
    rcases s.firstLine_or_noLine with ⟨v, hv⟩ | hnone
    · rw [hv.getResult, hv.getResult]
      rcases hv.player h hend with rfl | rfl
      · exact ⟨1, by norm_num, by norm_num, by norm_num, by norm_num⟩
      · exact ⟨0, by norm_num, by norm_num, by norm_num, by norm_num⟩
    · rw [hnone.getResult, hnone.getResult, if_pos (show s.getMoves = [] from hend)]
      exact ⟨1 / 2, by norm_num, by norm_num, rfl, by norm_num⟩

/-- A game takes nine moves, whoever has three in a row in the meantime.
At its end player 1 has five squares and player 2 four, and the result is
a win for the player whose line comes first in the list, a loss for the
other, and a draw when there is no line. -/
theorem oxo_finished {s : oxo.State} {ms : List oxo.Move} (h : Leads oxo OXOState.new ms s) :
    (oxo.getMoves s = [] ↔ ms.length = 9)
      ∧ (oxo.getMoves s = [] → OXOState.count s 1 = 5 ∧ OXOState.count s 2 = 4
        ∧ ∀ p, p = 1 ∨ p = 2 →
          (oxo.getResult s p = some 1 ↔ OXOState.FirstLine s p)
            ∧ (oxo.getResult s p = some 0 ↔ OXOState.FirstLine s (3 - p))
            ∧ (oxo.getResult s p = some (1 / 2) ↔ OXOState.NoLine s)) := by
  have hs : OXOState.Valid s := oxo_lawful.played valid_new h.played
  have hrank : OXOState.count s 0 + ms.length = 9 := h.rank_add oxo_lawful (by
    intro s s' m hs hm hmove
    obtain rfl := Option.some.inj ((doMove_spec hm).symm.trans hmove)
    exact count_moved_zero hs hm) valid_new
  have hlen : (oxo.getMoves s).length = OXOState.count s 0 := OXOState.length_getMoves s
  constructor
  · rw [← List.length_eq_zero_iff, hlen]
    omega
  · intro hend
    have hzero : OXOState.count s 0 = 0 := by rw [← hlen, hend]; rfl
    have htotal := hs.total
    have hturns := hs.turns
    refine ⟨by omega, by omega, fun p hp => ?_⟩
    show (OXOState.getResult s p = _ ↔ _) ∧ (OXOState.getResult s p = _ ↔ _)
      ∧ (OXOState.getResult s p = _ ↔ _)
    rcases OXOState.firstLine_or_noLine s with ⟨v, hv⟩ | hnone
    · have hplayer := hv.player hs hend
      have hunique : ∀ {u}, OXOState.FirstLine s u ↔ v = u := by
        intro u
        constructor
        · intro hu
          have heq := (hv.getResult u).symm.trans (hu.getResult u)
          by_contra hne
          rw [if_neg hne, if_pos rfl] at heq
          norm_num at heq
        · intro hu
          exact hu ▸ hv
      have hnone : ¬ OXOState.NoLine s := by
        intro hnone
        have heq := (hv.getResult p).symm.trans (hnone.getResult p)
        rw [if_pos (show OXOState.getMoves s = [] from hend)] at heq
        split at heq <;> norm_num at heq
      rw [hv.getResult, hunique, hunique]
      by_cases hvp : v = p
      · rw [if_pos hvp]
        refine ⟨iff_of_true rfl hvp, iff_of_false (by norm_num) (by omega),
          iff_of_false (by norm_num) hnone⟩
      · rw [if_neg hvp]
        refine ⟨iff_of_false (by norm_num) hvp, iff_of_true rfl (by omega),
          iff_of_false (by norm_num) hnone⟩
    · have hno : ∀ {u}, ¬ OXOState.FirstLine s u := by
        intro u hu
        obtain ⟨pre, l, post, hlines, h₀, h₁, h₂, -⟩ := hu
        exact hnone l (hlines ▸ List.mem_append_right _ (List.mem_cons_self ..))
          ⟨h₀.trans h₁.symm, h₁.trans h₂.symm⟩
      rw [hnone.getResult, if_pos (show OXOState.getMoves s = [] from hend)]
      exact ⟨iff_of_false (by norm_num) hno, iff_of_false (by norm_num) hno,
        iff_of_true rfl hnone⟩

/-- Player 1 has the upper row and player 2 the middle one. -/
def bothRows : OXOState where
  playerJustMoved := 1
  board := #v[1, 1, 1, 2, 2, 2, 1, 2, 1]

/-- Player 2 is the first with three in a row, and loses. -/
theorem oxo_finished_bothRows :
    let s : oxo.State := bothRows
    let ms : List Int := [0, 3, 1, 4, 6, 5, 8, 7, 2]
    (oxo.getMoves s = [] ↔ ms.length = 9)
      ∧ (oxo.getMoves s = [] → OXOState.count s 1 = 5 ∧ OXOState.count s 2 = 4
        ∧ ∀ p, p = 1 ∨ p = 2 →
          (oxo.getResult s p = some 1 ↔ OXOState.FirstLine s p)
            ∧ (oxo.getResult s p = some 0 ↔ OXOState.FirstLine s (3 - p))
            ∧ (oxo.getResult s p = some (1 / 2) ↔ OXOState.NoLine s)) := by
  intro s ms
  have hleads : Leads oxo OXOState.new ms s := leads_of_replay rfl
  exact oxo_finished hleads

end MctsConnectFour.Uct.Oxo
