/-
What `DoMove ( )` does to the board, and the games of Othello.

A move puts one counter on an empty square and turns those it has
sandwiched, at least one; every other square stays. So the mover gains one
counter more than the opponent loses, and the number of counters on the
board counts the moves.
-/
import Mathlib.Algebra.Order.Ring.Rat
import Mathlib.Tactic.NormNum
import MctsConnectFour.Uct.Laws
import MctsConnectFour.Uct.Othello.Sandwich

namespace MctsConnectFour.Uct.Othello

open Tallies

theorem getCell_putCell {n : Nat} {b : Vector (Vector Int n) n} {c : Square}
    (hx : c.1.toNat < n) (hy : c.2.toNat < n) (v : Int) (c' : Square) :
    getCell (putCell b c v) c'
      = if c.1.toNat = c'.1.toNat ∧ c.2.toNat = c'.2.toNat then v else getCell b c' := by
  unfold getCell putCell
  rw [Vector.getElem?_eq_getElem hx]
  simp only [Vector.getElem?_setIfInBounds, hx, if_true]
  by_cases hrow : c.1.toNat = c'.1.toNat
  · rw [if_pos hrow, Option.bind_some, Vector.getElem?_setIfInBounds]
    by_cases hcol : c.2.toNat = c'.2.toNat
    · rw [if_pos hcol, if_pos hy, if_pos ⟨hrow, hcol⟩]
      rfl
    · rw [if_neg hcol, if_neg (fun h => hcol h.2), ← hrow, Vector.getElem?_eq_getElem hx]
      rfl
  · rw [if_neg hrow, if_neg (fun h => hrow h.1)]

namespace OthelloState

variable {s : OthelloState} {c m : Square} {v : Int}

-- =============================================================== cells

@[simp] theorem size_setCell (s : OthelloState) (c : Square) (v : Int) :
    (s.setCell c v).size = s.size := rfl

theorem cell_setCell_eq (s : OthelloState) (c : Square) (v : Int) (c' : Square) :
    (s.setCell c v).cell c' = if s.isOnBoard c' then getCell (putCell s.board c v) c' else 0 := rfl

/-- A square that is set holds the value, and no other has changed. -/
theorem cell_setCell (hc : s.isOnBoard c = true) (v : Int) :
    (s.setCell c v).cell = Function.update s.cell c v := by
  have hon := isOnBoard_iff.mp hc
  funext c'
  rw [cell_setCell_eq, getCell_putCell (by omega) (by omega)]
  by_cases heq : c' = c
  · subst heq
    rw [if_pos hc, if_pos ⟨rfl, rfl⟩, Function.update_self]
  · rw [Function.update_of_ne heq, cell]
    by_cases hc' : s.isOnBoard c' = true
    · have hon' := isOnBoard_iff.mp hc'
      have hne : ¬ (c.1.toNat = c'.1.toNat ∧ c.2.toNat = c'.2.toNat) := by
        intro hboth
        exact heq (Prod.ext (by omega) (by omega))
      rw [if_neg hne]
    · rw [if_neg hc', if_neg hc']

theorem squares_congr {s' : OthelloState} (h : s'.size = s.size) : s'.squares = s.squares := by
  rw [squares, h, ← squares]

/-- A square that is set changes one count for another. -/
theorem count_setCell (hc : s.isOnBoard c = true) (v w : Int) :
    (s.setCell c w).count v + (if s.cell c = v then 1 else 0)
      = s.count v + if w = v then 1 else 0 := by
  rw [count, count, cell_setCell hc, squares_congr (s.size_setCell c w)]
  exact tally_update s.squares_nodup (mem_squares.mpr hc) v w

/-- Squares set one after the other. -/
theorem cell_foldl_setCell (v : Int) : ∀ (l : List Square) (s : OthelloState),
    (∀ c ∈ l, s.isOnBoard c = true) →
      (l.foldl (fun s c => s.setCell c v) s).cell
          = l.foldl (fun f c => Function.update f c v) s.cell
        ∧ (l.foldl (fun s c => s.setCell c v) s).playerJustMoved = s.playerJustMoved
        ∧ (l.foldl (fun s c => s.setCell c v) s).size = s.size := by
  intro l
  induction l with
  | nil => exact fun s _ => ⟨rfl, rfl, rfl⟩
  | cons c l ih =>
      intro s hl
      obtain ⟨hc, hl⟩ := List.forall_mem_cons.mp hl
      obtain ⟨hcell, hplayer, hsize⟩ := ih (s.setCell c v) hl
      rw [List.foldl_cons, List.foldl_cons, hcell, hplayer, hsize, cell_setCell hc]
      exact ⟨rfl, rfl, rfl⟩

/-- Updates with one value. -/
theorem foldl_update_apply (f : Square → Int) (v : Int) (c : Square) : ∀ l : List Square,
    l.foldl (fun f c => Function.update f c v) f c = if c ∈ l then v else f c := by
  intro l
  induction l generalizing f with
  | nil => simp
  | cons a l ih =>
      rw [List.foldl_cons, ih]
      by_cases hl : c ∈ l
      · simp [hl]
      · by_cases ha : c = a
        · subst ha
          simp [hl]
        · simp [hl, ha]

-- =============================================================== moves

/-- The states of games: two players, and no square is anybody else's. -/
structure Valid (s : OthelloState) : Prop where
  player : s.playerJustMoved = 1 ∨ s.playerJustMoved = 2
  cells : ∀ c, s.isOnBoard c = true → s.cell c = 0 ∨ s.cell c = 1 ∨ s.cell c = 2

theorem isEnemy_of_captured {c' : Square} (h : s.Captured c c') : s.isEnemy c' = true := by
  obtain ⟨d, -, n, hn, k, hk, hkn, rfl⟩ := h
  exact hn.enemies k hk hkn

theorem cell_of_isEnemy (h : s.isEnemy c = true) : s.cell c = s.playerJustMoved :=
  eq_of_beq (Bool.and_eq_true_iff.mp h).2

/-- What a listed move leads to. -/
structure Moved (s : OthelloState) (m : Square) (s' : OthelloState) : Prop where
  player : s'.playerJustMoved = 3 - s.playerJustMoved
  size : s'.size = s.size
  cell : ∀ c, s'.cell c = if c = m ∨ c ∈ s.getAllSandwichedCounters m
    then 3 - s.playerJustMoved else s.cell c
  count : ∀ v, s'.count v + (if 0 = v then 1 else 0)
      + (if s.playerJustMoved = v then (s.getAllSandwichedCounters m).length else 0)
    = s.count v
      + if 3 - s.playerJustMoved = v then 1 + (s.getAllSandwichedCounters m).length else 0

theorem doMove_moved (hon : s.isOnBoard m = true) (hempty : s.cell m = 0)
    (hplayer : s.playerJustMoved ≠ 0) : ∃ s', s.doMove m = some s' ∧ s.Moved m s' := by
  have hmem : ∀ c ∈ s.getAllSandwichedCounters m, s.isEnemy c = true :=
    fun c hc => isEnemy_of_captured ((mem_getAllSandwichedCounters hon).mp hc)
  have hne : ∀ c ∈ s.getAllSandwichedCounters m, c ≠ m := by
    intro c hc heq
    subst heq
    exact hplayer ((cell_of_isEnemy (hmem c hc)).symm.trans hempty)
  -- the square of the move, then the others
  obtain ⟨placed, hplaced⟩ : ∃ placed : OthelloState, placed
      = { s with playerJustMoved := 3 - s.playerJustMoved }.setCell m (3 - s.playerJustMoved) :=
    ⟨_, rfl⟩
  have hsize : placed.size = s.size := by rw [hplaced]; rfl
  have hboard : placed.isOnBoard = s.isOnBoard := by rw [hplaced]; rfl
  have hcell : placed.cell = Function.update s.cell m (3 - s.playerJustMoved) := by
    rw [hplaced]
    exact cell_setCell (s := { s with playerJustMoved := 3 - s.playerJustMoved }) hon _
  obtain ⟨hcell', hplayer', hsize'⟩ := cell_foldl_setCell (3 - s.playerJustMoved)
    (s.getAllSandwichedCounters m) placed (by
      intro c hc
      rw [hboard]
      exact isOnBoard_of_isEnemy (hmem c hc))
  have hdo : s.doMove m = some ((s.getAllSandwichedCounters m).foldl
      (fun s' c => s'.setCell c (3 - s.playerJustMoved)) placed) := by
    rw [doMove, hon, hempty, hplaced]
    rfl
  refine ⟨_, hdo, ?_⟩
  constructor
  case player => rw [hplayer', hplaced]; rfl
  case size => rw [hsize', hsize]
  case cell =>
    intro c
    rw [hcell', hcell, foldl_update_apply]
    by_cases hc : c ∈ s.getAllSandwichedCounters m
    · rw [if_pos hc, if_pos (Or.inr hc)]
    · rw [if_neg hc]
      by_cases hcm : c = m
      · subst hcm
        rw [Function.update_self, if_pos (Or.inl rfl)]
      · rw [Function.update_of_ne hcm, if_neg (fun h => h.elim hcm hc)]
  case count =>
    intro v
    have hone := tally_update (f := s.cell) s.squares_nodup (mem_squares.mpr hon) v
      (3 - s.playerJustMoved)
    have hrest := tally_foldl_update (f := placed.cell) (u := s.playerJustMoved) s.squares_nodup v
      (3 - s.playerJustMoved) (getAllSandwichedCounters_nodup hon) (by
        intro c hc
        refine ⟨mem_squares.mpr (isOnBoard_of_isEnemy (hmem c hc)), ?_⟩
        rw [hcell, Function.update_of_ne (hne c hc)]
        exact cell_of_isEnemy (hmem c hc))
    rw [hempty] at hone
    rw [hcell] at hrest
    rw [count, count, hcell', squares_congr (hsize'.trans hsize), hcell]
    split_ifs at hone hrest ⊢ <;> omega

theorem Valid.player_ne_zero (h : s.Valid) : s.playerJustMoved ≠ 0 := by
  rcases h.player with hp | hp <;> simp [hp]

theorem getMoves_on (hm : m ∈ s.getMoves) : s.isOnBoard m = true ∧ s.cell m = 0 := by
  rw [getMoves, List.mem_filter, mem_squares, Bool.and_eq_true, beq_iff_eq] at hm
  exact ⟨hm.1, hm.2.1⟩

/-- A listed move takes a counter. -/
theorem length_pos_of_getMoves (hm : m ∈ s.getMoves) :
    1 ≤ (s.getAllSandwichedCounters m).length := by
  rw [getMoves, List.mem_filter, Bool.and_eq_true, existsSandwichedCounter_iff] at hm
  exact List.length_pos_iff.mpr hm.2.2

theorem Valid.doMove (h : s.Valid) (hm : m ∈ s.getMoves) :
    ∃ s', s.doMove m = some s' ∧ s.Moved m s' := by
  obtain ⟨hon, hempty⟩ := getMoves_on hm
  exact doMove_moved hon hempty h.player_ne_zero

theorem Valid.moved (h : s.Valid) {s' : OthelloState} (hmoved : s.Moved m s') : s'.Valid where
  player := by
    have hp := h.player
    rw [hmoved.player]
    omega
  cells := by
    intro c hc
    have hc : s.isOnBoard c = true := by
      rw [isOnBoard_iff] at hc ⊢
      rwa [hmoved.size] at hc
    have hp := h.player
    rw [hmoved.cell]
    split
    · omega
    · exact h.cells c hc

theorem Moved.count_zero {s' : OthelloState} (h : s.Valid) (hmoved : s.Moved m s') :
    s'.count 0 + 1 = s.count 0 := by
  have hcount := hmoved.count 0
  have hp := h.player
  rw [if_pos rfl, if_neg (by omega), if_neg (by omega)] at hcount
  omega

-- =============================================================== games

theorem Valid.total (h : s.Valid) :
    s.count 0 + s.count 1 + s.count 2 = s.size * s.size := by
  have hlen : s.squares.length = s.size * s.size := by
    simp [squares, List.length_flatMap, List.map_const']
  rw [← hlen]
  exact tally_three (fun c hc => h.cells c (mem_squares.mp hc)) (by decide) (by decide) (by decide)

theorem Valid.setCell (h : s.Valid) (hc : s.isOnBoard c = true) (hv : v = 1 ∨ v = 2) :
    (s.setCell c v).Valid where
  player := h.player
  cells := by
    intro c' hc'
    rw [cell_setCell hc, Function.update_apply]
    split
    · exact Or.inr hv
    · exact h.cells c' hc'

/-- The board before the first counters. -/
def emptyBoard (sz : Nat) : OthelloState where
  playerJustMoved := 2
  size := sz
  board := .replicate sz (.replicate sz 0)

theorem cell_emptyBoard (sz : Nat) (c : Square) : (emptyBoard sz).cell c = 0 := by
  unfold cell
  split
  · next hc =>
    have hon := isOnBoard_iff.mp hc
    have hx : c.1.toNat < sz := by
      have hlt : c.1 < (sz : Int) := hon.2.1
      omega
    have hy : c.2.toNat < sz := by
      have hlt : c.2 < (sz : Int) := hon.2.2.2
      omega
    show ((Vector.replicate sz (Vector.replicate sz (0 : Int)))[c.1.toNat]?.bind
      fun row => row[c.2.toNat]?).getD 0 = 0
    rw [Vector.getElem?_eq_getElem hx, Vector.getElem_replicate, Option.bind_some,
      Vector.getElem?_eq_getElem hy, Vector.getElem_replicate, Option.getD_some]
  · rfl

theorem emptyBoard_valid (sz : Nat) : (emptyBoard sz).Valid where
  player := Or.inr rfl
  cells := fun c _ => Or.inl (cell_emptyBoard sz c)

theorem count_emptyBoard (sz : Nat) {v : Int} (hv : v ≠ 0) : (emptyBoard sz).count v = 0 := by
  rw [count, tally_eq_zero]
  intro c _
  rw [cell_emptyBoard]
  exact hv.symm

/-- The first counters are two of each player. -/
theorem start_spec {sz : Nat} (heven : sz % 2 = 0) (hpos : sz ≠ 0) :
    (start sz).Valid ∧ (start sz).count 1 = 2 ∧ (start sz).count 2 = 2 := by
  have hon : ∀ {s : OthelloState} {c : Square}, s.size = sz →
      (c.1 = sz / 2 ∨ c.1 = sz / 2 - 1) → (c.2 = sz / 2 ∨ c.2 = sz / 2 - 1) →
        s.isOnBoard c = true := by
    intro s c hs hx hy
    rw [isOnBoard_iff, hs]
    omega
  -- the four squares, each of them empty when it is set
  obtain ⟨h, hh⟩ : ∃ h : Int, h = sz / 2 := ⟨_, rfl⟩
  have h₁ : (emptyBoard sz).isOnBoard (h, h) = true :=
    hon rfl (Or.inl hh) (Or.inl hh)
  have h₂ : ((emptyBoard sz).setCell (h, h) 1).isOnBoard (h - 1, h - 1) = true :=
    hon rfl (Or.inr (by rw [hh])) (Or.inr (by rw [hh]))
  have h₃ : (((emptyBoard sz).setCell (h, h) 1).setCell (h - 1, h - 1) 1).isOnBoard (h, h - 1)
      = true := hon rfl (Or.inl hh) (Or.inr (by rw [hh]))
  have h₄ : ((((emptyBoard sz).setCell (h, h) 1).setCell (h - 1, h - 1) 1).setCell
      (h, h - 1) 2).isOnBoard (h - 1, h) = true := hon rfl (Or.inr (by rw [hh])) (Or.inl hh)
  have hstart : start sz = ((((emptyBoard sz).setCell (h, h) 1).setCell (h - 1, h - 1) 1).setCell
      (h, h - 1) 2).setCell (h - 1, h) 2 := by
    rw [hh]
    rfl
  have hcount : ∀ v, v ≠ 0 → (start sz).count v
      = (((if 1 = v then 1 else 0) + if 1 = v then 1 else 0) + if 2 = v then 1 else 0)
        + if 2 = v then 1 else 0 := by
    intro v hv
    have c₁ := count_setCell h₁ v 1
    have c₂ := count_setCell h₂ v 1
    have c₃ := count_setCell h₃ v 2
    have c₄ := count_setCell h₄ v 2
    simp only [cell_setCell h₁, cell_setCell h₂, cell_setCell h₃, cell_emptyBoard,
      Function.update_apply, Prod.mk.injEq, count_emptyBoard sz hv] at c₁ c₂ c₃ c₄
    rw [hstart]
    have hne : h ≠ h - 1 := by omega
    simp only [hne, hne.symm, false_and, and_false, if_false, hv.symm] at c₁ c₂ c₃ c₄
    omega
  refine ⟨?_, ?_, ?_⟩
  · rw [hstart]
    exact ((((emptyBoard_valid sz).setCell h₁ (Or.inl rfl)).setCell h₂ (Or.inl rfl)).setCell h₃
      (Or.inr rfl)).setCell h₄ (Or.inr rfl)
  · rw [hcount 1 (by decide)]
    rfl
  · rw [hcount 2 (by decide)]
    rfl

end OthelloState

open OthelloState

/-- `OthelloState` keeps the contract of `GameState`, and no `assert` of
it fails in a game from a valid state. -/
theorem othello_lawful : Lawful othello OthelloState.Valid fun s => s.count 0 where
  clone {s} _ := by
    show (⟨s.playerJustMoved, s.size, Vector.ofFn fun i => s.board[i]⟩ : OthelloState) = s
    congr 1
    ext i
    simp
  player h := h.player
  getMoves_nodup {s} _ := s.squares_nodup.filter _
  doMove {s m} h hm := by
    obtain ⟨s', hmove, hmoved⟩ := h.doMove hm
    refine ⟨s', hmove, h.moved hmoved, hmoved.player, ?_⟩
    have hcount := hmoved.count_zero h
    show s'.count 0 < s.count 0
    omega
  getResult {s} _ _ := by
    have hresult : ∀ p, othello.getResult s p = some (if s.count p > s.count (3 - p) then 1
        else if s.count (3 - p) > s.count p then 0 else 1 / 2) := fun _ => rfl
    refine ⟨_, ?_, ?_, hresult 1, ?_⟩
    · split_ifs <;> norm_num
    · split_ifs <;> norm_num
    · rw [hresult 2]
      have hother : s.count (3 - 2) = s.count 1 ∧ s.count (3 - 1) = s.count 2 := ⟨rfl, rfl⟩
      rw [hother.1, hother.2]
      rcases Nat.lt_trichotomy (s.count 1) (s.count 2) with hlt | heq | hgt
      · rw [if_pos hlt, if_neg (by omega), if_pos hlt]
        norm_num
      · rw [heq]
        norm_num
      · rw [if_neg (by omega), if_pos hgt, if_pos hgt]
        norm_num

/-- The board keeps its size. -/
theorem size_of_leads {s₀ s : othello.State} (hs₀ : OthelloState.Valid s₀)
    {ms : List othello.Move} (h : Leads othello s₀ ms s) :
    OthelloState.size s = OthelloState.size s₀ := by
  induction h with
  | nil => rfl
  | concat hbefore hm hmove ih =>
      have hs := othello_lawful.played hs₀ hbefore.played
      obtain ⟨s', hdo, hmoved⟩ := Valid.doMove hs hm
      obtain rfl := Option.some.inj (hmove.symm.trans hdo)
      exact hmoved.size.trans ih

/-- A listed move can be made. It puts a counter of the mover on the
square and turns the counters it sandwiches, of which there is one at
least; it leaves every other square; and so the mover gains one counter
more than the opponent loses. -/
theorem othello_doMove {s : OthelloState} (h : s.Valid) {m : Square} (hm : m ∈ s.getMoves) :
    ∃ s', s.doMove m = some s' ∧ s'.Valid ∧ s'.size = s.size
      ∧ s'.playerJustMoved = 3 - s.playerJustMoved
      ∧ (∀ c, c = m ∨ s.Captured m c → s'.cell c = 3 - s.playerJustMoved)
      ∧ (∀ c, ¬ (c = m ∨ s.Captured m c) → s'.cell c = s.cell c)
      ∧ ∃ k, 1 ≤ k
        ∧ s'.count (3 - s.playerJustMoved) = s.count (3 - s.playerJustMoved) + 1 + k
        ∧ s'.count s.playerJustMoved + k = s.count s.playerJustMoved
        ∧ s'.count 0 + 1 = s.count 0 := by
  obtain ⟨hon, -⟩ := getMoves_on hm
  obtain ⟨s', hmove, hmoved⟩ := h.doMove hm
  have hp := h.player
  have htaken : ∀ c, c ∈ s.getAllSandwichedCounters m ↔ s.Captured m c :=
    fun _ => mem_getAllSandwichedCounters hon
  refine ⟨s', hmove, h.moved hmoved, hmoved.size, hmoved.player, ?_, ?_,
    (s.getAllSandwichedCounters m).length, length_pos_of_getMoves hm, ?_, ?_,
    hmoved.count_zero h⟩
  · intro c hc
    rw [hmoved.cell, if_pos (hc.imp_right (htaken c).mpr)]
  · intro c hc
    rw [hmoved.cell, if_neg (fun h => hc (h.imp_right (htaken c).mp))]
  · have hcount := hmoved.count (3 - s.playerJustMoved)
    rw [if_neg (by omega), if_neg (by omega), if_pos rfl] at hcount
    omega
  · have hcount := hmoved.count s.playerJustMoved
    rw [if_neg (by omega), if_pos rfl, if_neg (by omega)] at hcount
    omega

/-- The first move of a game on the smallest board with one. -/
theorem othello_doMove_start :
    ∃ s', (start 4).doMove (0, 2) = some s' ∧ s'.Valid ∧ s'.size = (start 4).size
      ∧ s'.playerJustMoved = 3 - (start 4).playerJustMoved
      ∧ (∀ c, c = (0, 2) ∨ (start 4).Captured (0, 2) c →
        s'.cell c = 3 - (start 4).playerJustMoved)
      ∧ (∀ c, ¬ (c = (0, 2) ∨ (start 4).Captured (0, 2) c) → s'.cell c = (start 4).cell c)
      ∧ ∃ k, 1 ≤ k
        ∧ s'.count (3 - (start 4).playerJustMoved)
          = (start 4).count (3 - (start 4).playerJustMoved) + 1 + k
        ∧ s'.count (start 4).playerJustMoved + k = (start 4).count (start 4).playerJustMoved
        ∧ s'.count 0 + 1 = (start 4).count 0 :=
  othello_doMove (start_spec (by decide) (by decide)).1 (by decide)

/-- A game on `sz` rows never comes to an `assert`, and takes `sz * sz - 4`
moves at most: after `n` of them there are `n + 4` counters, and the player
to move goes by `n`. Where it stops the result compares the counters. -/
theorem othello_finished {sz : Nat} (heven : sz % 2 = 0) (hpos : sz ≠ 0) {s : othello.State}
    {ms : List othello.Move} (h : Leads othello (start sz) ms s) :
    (∀ m ∈ othello.getMoves s, ∃ s', othello.doMove s m = some s')
      ∧ OthelloState.count s 1 + OthelloState.count s 2 = ms.length + 4
      ∧ ms.length + 4 ≤ sz * sz
      ∧ othello.playerJustMoved s = (if ms.length % 2 = 0 then 2 else 1)
      ∧ ∀ p, p = 1 ∨ p = 2 →
        (othello.getResult s p = some 1
            ↔ OthelloState.count s (3 - p) < OthelloState.count s p)
          ∧ (othello.getResult s p = some 0
            ↔ OthelloState.count s p < OthelloState.count s (3 - p))
          ∧ (othello.getResult s p = some (1 / 2)
            ↔ 2 * OthelloState.count s p = ms.length + 4) := by
  obtain ⟨hstart, hone, htwo⟩ := start_spec heven hpos
  have hs : OthelloState.Valid s := othello_lawful.played hstart h.played
  have hsize : OthelloState.size s = sz := size_of_leads hstart h
  have hplayer : othello.playerJustMoved s = (if ms.length % 2 = 0 then 2 else 1) :=
    h.turn othello_lawful hstart
  have hrank : OthelloState.count s 0 + ms.length = (start sz).count 0 :=
    h.rank_add othello_lawful (by
      intro s s' m hs hm hmove
      obtain ⟨s'', hdo, hmoved⟩ := Valid.doMove hs hm
      obtain rfl := Option.some.inj (hmove.symm.trans hdo)
      exact hmoved.count_zero hs) hstart
  have htotal := hs.total
  have hfirst : (start sz).count 0 + (start sz).count 1 + (start sz).count 2 = sz * sz :=
    hstart.total
  rw [hsize] at htotal
  refine ⟨?_, by omega, by omega, hplayer, ?_⟩
  · intro m hm
    obtain ⟨s', hmove, -⟩ := hs.doMove hm
    exact ⟨s', hmove⟩
  · intro p hp
    have hresult : othello.getResult s p
        = some (if OthelloState.count s p > OthelloState.count s (3 - p) then 1
          else if OthelloState.count s (3 - p) > OthelloState.count s p then 0 else 1 / 2) := rfl
    have hboth : OthelloState.count s p + OthelloState.count s (3 - p) = ms.length + 4 := by
      rcases hp with rfl | rfl
      · show OthelloState.count s 1 + OthelloState.count s 2 = ms.length + 4
        omega
      · show OthelloState.count s 2 + OthelloState.count s 1 = ms.length + 4
        omega
    rw [hresult]
    rcases Nat.lt_trichotomy (OthelloState.count s p) (OthelloState.count s (3 - p))
      with hlt | heq | hgt
    · rw [if_neg (by omega), if_pos hlt]
      exact ⟨iff_of_false (by norm_num) (by omega), iff_of_true rfl hlt,
        iff_of_false (by norm_num) (by omega)⟩
    · rw [if_neg (by omega), if_neg (by omega)]
      exact ⟨iff_of_false (by norm_num) (by omega), iff_of_false (by norm_num) (by omega),
        iff_of_true rfl (by omega)⟩
    · rw [if_pos hgt]
      exact ⟨iff_of_true rfl hgt, iff_of_false (by norm_num) (by omega),
        iff_of_false (by norm_num) (by omega)⟩

/-- After the moves of a game in the upper left corner. -/
def cornerGame : List Square := [(0, 2), (0, 1)]

theorem othello_finished_corner :
    ∃ s : othello.State, Leads othello (start 4) cornerGame s
      ∧ (∀ m ∈ othello.getMoves s, ∃ s', othello.doMove s m = some s')
      ∧ OthelloState.count s 1 + OthelloState.count s 2 = cornerGame.length + 4
      ∧ cornerGame.length + 4 ≤ 4 * 4
      ∧ othello.playerJustMoved s = (if cornerGame.length % 2 = 0 then 2 else 1)
      ∧ ∀ p, p = 1 ∨ p = 2 →
        (othello.getResult s p = some 1
            ↔ OthelloState.count s (3 - p) < OthelloState.count s p)
          ∧ (othello.getResult s p = some 0
            ↔ OthelloState.count s p < OthelloState.count s (3 - p))
          ∧ (othello.getResult s p = some (1 / 2)
            ↔ 2 * OthelloState.count s p = cornerGame.length + 4) := by
  have hsome : (replay othello (start 4) cornerGame).isSome = true := by decide
  obtain ⟨s, hs⟩ := Option.isSome_iff_exists.mp hsome
  have hleads : Leads othello (start 4) cornerGame s := leads_of_replay hs
  exact ⟨s, hleads, othello_finished (by decide) (by decide) hleads⟩

end MctsConnectFour.Uct.Othello
