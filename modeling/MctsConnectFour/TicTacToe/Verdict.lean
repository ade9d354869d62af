/-
The verdict of tic-tac-toe (old/tictactoe.hpp) over whole games.

`winner ( )` counts the stones on each of the four lines through the
last one, and a line is won when the count is three, neither less nor
more. What wins is therefore a run of exactly three (`HasThree`); a stone
that joins two runs to one of four wins nothing on that line. On the
three by three board of the default arguments there is no longer run
(`hasThree_iff_of_small`).

The scans are those of Connect Four, so `scanLine_spec` measures them; a
check has no room test here, and the four are one lemma with the guards
of the direction (`lineLength_iff`). As there, a move can only change the
runs of the mover, and only those through its own cell, so looking at
these is enough to know the whole board (`hasThree_mover`,
`hasThree_other`).

The games are those of moves on vacant cells; `moves ( )` lists other
ones, which `playsFree_iff` is about.
-/
import MctsConnectFour.TicTacToe
import MctsConnectFour.ConnectFour.Verdict

namespace MctsConnectFour

namespace TicTacToe

open MaMatrix (InRange)
open ConnectFour (Board Holds IsDirection Ray Guards Full scanLine scanLine_spec ray_zero
  sizeT_lt_nat_iff)

variable {NumRows NumCols : Nat}

-- ================================================================ runs

/-- Three cells in a row hold `p`, from `( row, col )` on in steps of
`( dr, dc )`, and the cells before and after them do not. -/
def RunFrom (b : Board NumRows NumCols) (p : Player) (dr dc row col : Int) : Prop :=
  (∀ k : Nat, k < 3 → Holds b p (row + k * dr) (col + k * dc))
    ∧ ¬ Holds b p (row - dr) (col - dc) ∧ ¬ Holds b p (row + 3 * dr) (col + 3 * dc)

/-- Somewhere on the board there is a run of exactly three. -/
def HasThree (b : Board NumRows NumCols) (p : Player) : Prop :=
  ∃ dr dc row col, IsDirection dr dc ∧ RunFrom b p dr dc row col

/-- The runs to both sides of `( row, col )` make it three. -/
def ThreeThrough (b : Board NumRows NumCols) (p : Player) (dr dc row col : Int) : Prop :=
  ∃ back ahead : Nat, back + ahead = 2
    ∧ Ray b p (-dr) (-dc) row col back ∧ ¬ Ray b p (-dr) (-dc) row col (back + 1)
    ∧ Ray b p dr dc row col ahead ∧ ¬ Ray b p dr dc row col (ahead + 1)

variable {b : Board NumRows NumCols} {p : Player} {dr dc row col : Int}

/-- A ray is one longer when its next cell holds `p`. -/
theorem ray_succ_iff {n : Nat} :
    Ray b p dr dc row col (n + 1) ↔ Ray b p dr dc row col n
      ∧ Holds b p (row + ((n + 1 : Nat) : Int) * dr) (col + ((n + 1 : Nat) : Int) * dc) := by
  constructor
  · intro h
    exact ⟨h.mono (Nat.le_succ n), h (n + 1) (by omega) le_rfl⟩
  · intro h k h1 hk
    rcases Nat.lt_or_ge n k with hlt | hle
    · obtain rfl : k = n + 1 := by omega
      exact h.2
    · exact h.1 k h1 hle

/-- A run through a cell that holds `p` is a run. -/
theorem ThreeThrough.runFrom (hcell : Holds b p row col)
    (h : ThreeThrough b p dr dc row col) : ∃ row' col', RunFrom b p dr dc row' col' := by
  obtain ⟨back, ahead, hsum, hback, hend, hahead, hstop⟩ := h
  refine ⟨row - back * dr, col - back * dc, fun k hk => ?_, fun hat => ?_, fun hat => ?_⟩
  · rcases Nat.lt_trichotomy k back with hlt | rfl | hgt
    · have hat := hback (back - k) (by omega) (by omega)
      rw [Nat.cast_sub hlt.le] at hat
      rw [show row - back * dr + k * dr = row + ((back : Int) - k) * -dr by ring,
        show col - back * dc + k * dc = col + ((back : Int) - k) * -dc by ring]
      exact hat
    · simpa using hcell
    · have hat := hahead (k - back) (by omega) (by omega)
      rw [Nat.cast_sub hgt.le] at hat
      rw [show row - back * dr + k * dr = row + ((k : Int) - back) * dr by ring,
        show col - back * dc + k * dc = col + ((k : Int) - back) * dc by ring]
      exact hat
  · refine hend (ray_succ_iff.mpr ⟨hback, ?_⟩)
    push_cast
    rw [show row + ((back : Int) + 1) * -dr = row - back * dr - dr by ring,
      show col + ((back : Int) + 1) * -dc = col - back * dc - dc by ring]
    exact hat
  · refine hstop (ray_succ_iff.mpr ⟨hahead, ?_⟩)
    have hthree : (3 : Int) = back + ahead + 1 := by omega
    rw [hthree] at hat
    push_cast
    rw [show row + ((ahead : Int) + 1) * dr = row - back * dr + (back + ahead + 1) * dr by ring,
      show col + ((ahead : Int) + 1) * dc = col - back * dc + (back + ahead + 1) * dc by ring]
    exact hat

/-- A run that contains a cell is a run through it. -/
theorem RunFrom.threeThrough {k : Nat} (hk : k < 3) (h : RunFrom b p dr dc row col) :
    ThreeThrough b p dr dc (row + k * dr) (col + k * dc) := by
  obtain ⟨hcells, hbefore, hafter⟩ := h
  refine ⟨k, 2 - k, by omega, fun i hi hik => ?_, fun hray => hbefore ?_, fun i hi hik => ?_,
    fun hray => hafter ?_⟩
  · have hat := hcells (k - i) (by omega)
    rw [Nat.cast_sub hik] at hat
    rw [show row + k * dr + i * -dr = row + ((k : Int) - i) * dr by ring,
      show col + k * dc + i * -dc = col + ((k : Int) - i) * dc by ring]
    exact hat
  · have hat := (ray_succ_iff.mp hray).2
    push_cast at hat
    rw [show row + k * dr + ((k : Int) + 1) * -dr = row - dr by ring,
      show col + k * dc + ((k : Int) + 1) * -dc = col - dc by ring] at hat
    exact hat
  · have hat := hcells (k + i) (by omega)
    push_cast at hat
    rw [show row + k * dr + i * dr = row + ((k : Int) + i) * dr by ring,
      show col + k * dc + i * dc = col + ((k : Int) + i) * dc by ring]
    exact hat
  · have hat := (ray_succ_iff.mp hray).2
    have hthree : ((2 - k + 1 : Nat) : Int) = 3 - k := by omega
    rw [hthree, show row + k * dr + (3 - (k : Int)) * dr = row + 3 * dr by ring,
      show col + k * dc + (3 - (k : Int)) * dc = col + 3 * dc by ring] at hat
    exact hat

/-- With three rows and columns at most, three in a row is a run of
exactly three. -/
theorem hasThree_iff_of_small (hrows : NumRows ≤ 3) (hcols : NumCols ≤ 3) :
    HasThree b p ↔ ∃ dr dc row col, IsDirection dr dc
      ∧ ∀ k : Nat, k < 3 → Holds b p (row + k * dr) (col + k * dc) := by
  constructor
  · intro h
    obtain ⟨dr, dc, row, col, hdir, h⟩ := h
    exact ⟨dr, dc, row, col, hdir, h.1⟩
  · intro h'
    obtain ⟨dr, dc, row, col, hdir, h⟩ := h'
    have hfirst := (h 0 (by decide)).1
    have hlast := (h 2 (by decide)).1
    unfold InRange at hfirst hlast
    push_cast at hfirst hlast
    refine ⟨dr, dc, row, col, hdir, h, fun hout => ?_, fun hout => ?_⟩
    all_goals
      have hin := hout.1
      unfold InRange at hin
      rcases hdir with ⟨rfl, rfl⟩ | ⟨rfl, rfl⟩ | ⟨rfl, rfl⟩ | ⟨rfl, rfl⟩ <;> omega

-- ============================================================== checks

/-- A scan to each side, the second going on counting from the first,
comes to three exactly when there is a run of three. -/
theorem threeScans_iff {counter total : Int}
    (hback : ∀ n : Nat, 1 + n ≤ counter ↔ Ray b p (-dr) (-dc) row col n)
    (hahead : ∀ n : Nat, counter + n ≤ total ↔ Ray b p dr dc row col n) :
    total = 3 ↔ ThreeThrough b p dr dc row col := by
  have hone : 1 ≤ counter := by simpa using (hback 0).mpr ray_zero
  have hmore : counter ≤ total := by simpa using (hahead 0).mpr ray_zero
  constructor
  · intro htotal
    obtain ⟨back, hb⟩ := Int.eq_ofNat_of_zero_le (show 0 ≤ counter - 1 by omega)
    obtain ⟨ahead, ha⟩ := Int.eq_ofNat_of_zero_le (show 0 ≤ total - counter by omega)
    refine ⟨back, ahead, by omega, (hback back).mp (by omega), ?_,
      (hahead ahead).mp (by omega), ?_⟩
    · rw [← hback]
      push_cast
      omega
    · rw [← hahead]
      push_cast
      omega
  · intro h
    obtain ⟨back, ahead, hsum, h₁, h₂, h₃, h₄⟩ := h
    rw [← hback] at h₁ h₂
    rw [← hahead] at h₃ h₄
    push_cast at h₂ h₄
    omega

/-- A check, with the guards of its direction. -/
theorem lineLength_iff {back forth : Int → Int → Bool} (hdir : dr ≠ 0 ∨ dc ≠ 0)
    (hback : Guards NumRows NumCols back (-dr) (-dc) (row + -dr) (col + -dc))
    (hforth : Guards NumRows NumCols forth dr dc (row + dr) (col + dc)) :
    lineLength b p row col back forth dr dc = 3 ↔ ThreeThrough b p dr dc row col := by
  unfold lineLength
  refine threeScans_iff (fun n => ?_) fun n => scanLine_spec forth row col hdir hforth _ n
  have h := scanLine_spec (b := b) (p := p) back row col (by omega) hback 1 n
  rwa [← sub_eq_add_neg, ← sub_eq_add_neg] at h

section Checks

variable (hcell : InRange NumRows NumCols row col) (hrows : NumRows ≤ 128) (hcols : NumCols ≤ 128)

include hcell hrows hcols

theorem horizontal_iff :
    lineLength b p row col (fun _ col => col ≥ 0) (fun _ col => sizeT col < NumCols) 0 1 = 3
      ↔ ThreeThrough b p 0 1 row col := by
  obtain ⟨hr, hr', hc, hc'⟩ := hcell
  refine lineLength_iff (by decide) (fun k hk => ?_) fun k hk => ?_
  · simp only [InRange, decide_eq_true_eq]
    omega
  · rw [decide_eq_true_eq, sizeT_lt_nat_iff (by omega) (by omega)]
    unfold InRange
    omega

theorem vertical_iff :
    lineLength b p row col (fun row _ => row ≥ 0) (fun row _ => sizeT row < NumRows) 1 0 = 3
      ↔ ThreeThrough b p 1 0 row col := by
  obtain ⟨hr, hr', hc, hc'⟩ := hcell
  refine lineLength_iff (by decide) (fun k hk => ?_) fun k hk => ?_
  · simp only [InRange, decide_eq_true_eq]
    omega
  · rw [decide_eq_true_eq, sizeT_lt_nat_iff (by omega) (by omega)]
    unfold InRange
    omega

theorem diagonalNwSe_iff :
    lineLength b p row col (fun row col => row ≥ 0 && col ≥ 0)
        (fun row col => sizeT row < NumRows && sizeT col < NumCols) 1 1 = 3
      ↔ ThreeThrough b p 1 1 row col := by
  obtain ⟨hr, hr', hc, hc'⟩ := hcell
  refine lineLength_iff (by decide) (fun k hk => ?_) fun k hk => ?_
  · simp only [InRange, Bool.and_eq_true, decide_eq_true_eq]
    omega
  · rw [Bool.and_eq_true, decide_eq_true_eq, decide_eq_true_eq,
      sizeT_lt_nat_iff (by omega) (by omega), sizeT_lt_nat_iff (by omega) (by omega)]
    unfold InRange
    omega

theorem diagonalSwNe_iff :
    lineLength b p row col (fun row col => sizeT row < NumRows && col ≥ 0)
        (fun row col => row ≥ 0 && sizeT col < NumCols) (-1) 1 = 3
      ↔ ThreeThrough b p (-1) 1 row col := by
  obtain ⟨hr, hr', hc, hc'⟩ := hcell
  refine lineLength_iff (by decide) (fun k hk => ?_) fun k hk => ?_
  · rw [Bool.and_eq_true, decide_eq_true_eq, decide_eq_true_eq,
      sizeT_lt_nat_iff (by omega) (by omega)]
    unfold InRange
    omega
  · rw [Bool.and_eq_true, decide_eq_true_eq, decide_eq_true_eq,
      sizeT_lt_nat_iff (by omega) (by omega)]
    unfold InRange
    omega

end Checks

/-- The four checks look in every direction. -/
theorem setWinner_winner (s : State NumRows NumCols) (hrows : NumRows ≤ 128)
    (hcols : NumCols ≤ 128) (hcell : InRange NumRows NumCols s.move.loc.r s.move.loc.c)
    (hp : s.board.at' s.move.loc.r s.move.loc.c = p) :
    ((∃ dr dc, IsDirection dr dc
        ∧ ThreeThrough s.board p dr dc s.move.loc.r s.move.loc.c) → s.setWinner.winner = p)
      ∧ ((¬ ∃ dr dc, IsDirection dr dc
        ∧ ThreeThrough s.board p dr dc s.move.loc.r s.move.loc.c) →
          s.setWinner.winner = s.winner) := by
  unfold State.setWinner
  dsimp only
  rw [hp]
  have hh := horizontal_iff (b := s.board) (p := p) hcell hrows hcols
  have hv := vertical_iff (b := s.board) (p := p) hcell hrows hcols
  have hd := diagonalNwSe_iff (b := s.board) (p := p) hcell hrows hcols
  have hu := diagonalSwNe_iff (b := s.board) (p := p) hcell hrows hcols
  split_ifs with h₁ h₂ h₃ h₄
  · exact ⟨fun _ => rfl, fun h => absurd ⟨0, 1, Or.inl ⟨rfl, rfl⟩, hh.mp h₁⟩ h⟩
  · exact ⟨fun _ => rfl, fun h => absurd ⟨1, 0, Or.inr (Or.inl ⟨rfl, rfl⟩), hv.mp h₂⟩ h⟩
  · exact ⟨fun _ => rfl, fun h => absurd ⟨1, 1, Or.inr (Or.inr (Or.inl ⟨rfl, rfl⟩)), hd.mp h₃⟩ h⟩
  · exact ⟨fun _ => rfl,
      fun h => absurd ⟨-1, 1, Or.inr (Or.inr (Or.inr ⟨rfl, rfl⟩)), hu.mp h₄⟩ h⟩
  · refine ⟨fun h => ?_, fun _ => rfl⟩
    obtain ⟨dr, dc, hdir, h⟩ := h
    rcases hdir with ⟨rfl, rfl⟩ | ⟨rfl, rfl⟩ | ⟨rfl, rfl⟩ | ⟨rfl, rfl⟩
    · exact absurd (hh.mpr h) h₁
    · exact absurd (hv.mpr h) h₂
    · exact absurd (hd.mpr h) h₃
    · exact absurd (hu.mpr h) h₄

-- =============================================================== moves

section Move

variable {s : State NumRows NumCols} {m : Move}
  (hcell : InRange NumRows NumCols m.loc.r m.loc.c)

include hcell

/-- A cell after a move. -/
theorem makeMove_at {i j : Int} (hr : InRange NumRows NumCols i j) :
    (s.makeMove m).board.at' i j
      = if i = m.loc.r ∧ j = m.loc.c then s.playerJustMoved.opponent else s.board.at' i j :=
  MaMatrix.at'_setAt s.board _ hcell hr

/-- The stone is the mover's. -/
theorem holds_mover :
    Holds (s.makeMove m).board s.playerJustMoved.opponent m.loc.r m.loc.c := by
  refine ⟨hcell, ?_⟩
  rw [makeMove_at hcell hcell, if_pos ⟨rfl, rfl⟩]

/-- A cell other than the stone's holds what it held. -/
theorem holds_iff_of_ne {q : Player} {i j : Int} (hne : ¬ (i = m.loc.r ∧ j = m.loc.c)) :
    Holds (s.makeMove m).board q i j ↔ Holds s.board q i j := by
  unfold Holds
  refine and_congr_right fun hr => ?_
  rw [makeMove_at hcell hr, if_neg hne]

variable (hvacant : s.board.at' m.loc.r m.loc.c = .vacant)

include hvacant

/-- A player other than the mover holds the cells it held. -/
theorem holds_other_iff {q : Player} (hq : q.IsSide) (hne : q ≠ s.playerJustMoved.opponent)
    {i j : Int} : Holds (s.makeMove m).board q i j ↔ Holds s.board q i j := by
  by_cases hat : i = m.loc.r ∧ j = m.loc.c
  · obtain ⟨rfl, rfl⟩ := hat
    constructor
    · intro h
      exact absurd (h.2.symm.trans (holds_mover hcell).2) hne
    · intro h
      exact absurd (h.2.symm.trans hvacant) hq.ne_vacant
  · exact holds_iff_of_ne hcell hat

/-- So it has the runs it had. -/
theorem hasThree_other {q : Player} (hq : q.IsSide) (hne : q ≠ s.playerJustMoved.opponent) :
    HasThree (s.makeMove m).board q ↔ HasThree s.board q := by
  unfold HasThree RunFrom
  simp only [holds_other_iff hcell hvacant hq hne]

/-- On a board where the mover has no run of three, it has one after the
move exactly when there is one through the stone. -/
theorem hasThree_mover (hside : s.playerJustMoved.opponent.IsSide)
    (hnone : ¬ HasThree s.board s.playerJustMoved.opponent) :
    HasThree (s.makeMove m).board s.playerJustMoved.opponent
      ↔ ∃ dr dc, IsDirection dr dc
          ∧ ThreeThrough (s.makeMove m).board s.playerJustMoved.opponent dr dc
              m.loc.r m.loc.c := by
  constructor
  · intro h'
    obtain ⟨dr, dc, i, j, hdir, hrun⟩ := h'
    by_cases hthrough : ∃ k : Nat, k < 3 ∧ i + k * dr = m.loc.r ∧ j + k * dc = m.loc.c
    · obtain ⟨k, hk, hi, hj⟩ := hthrough
      have h := hrun.threeThrough hk
      rw [hi, hj] at h
      exact ⟨dr, dc, hdir, h⟩
    · -- the run was there before, and no longer: the cell was vacant
      obtain ⟨hcells, hbefore, hafter⟩ := hrun
      refine absurd ⟨dr, dc, i, j, hdir, fun k hk => ?_, fun h => hbefore ?_, fun h => hafter ?_⟩
        hnone
      · exact (holds_iff_of_ne hcell fun hat => hthrough ⟨k, hk, hat⟩).mp (hcells k hk)
      all_goals
        refine (holds_iff_of_ne hcell fun hat => ?_).mpr h
        rw [hat.1, hat.2] at h
        exact hside.ne_vacant (h.2.symm.trans hvacant)
  · intro h'
    obtain ⟨dr, dc, hdir, h⟩ := h'
    obtain ⟨i, j, hrun⟩ := h.runFrom (holds_mover hcell)
    exact ⟨dr, dc, i, j, hdir, hrun⟩

end Move

-- ============================================================== games

/-- `result ( )`. -/
def State.result (s : State NumRows NumCols) (p : Player) : Rat :=
  if s.winner = .vacant then 1 / 2 else if s.winner = p then 1 else 0

/-- `ended ( )`. -/
def State.ended (s : State NumRows NumCols) : Option Player :=
  if s.winner = .vacant ∧ s.noMoves < NumRows * NumCols then none else some s.winner

/-- The states of a game on vacant cells, played until it has ended. -/
inductive Played : State NumRows NumCols → Prop
  | new {p : Player} (hp : p.IsSide) : Played (new p)
  | moveWinner {s : State NumRows NumCols} {m : Move} (h : Played s) (hopen : s.ended = none)
      (hcell : InRange NumRows NumCols m.loc.r m.loc.c)
      (hvacant : s.board.at' m.loc.r m.loc.c = .vacant) : Played (s.moveWinner m)

/-- What a game carries: the counter counts the stones, and the verdict
is on the whole board. -/
structure Verdict (s : State NumRows NumCols) : Prop where
  side : s.playerJustMoved.IsSide
  counted : s.noMoves = s.board.count Player.occupied
  won : ∀ q : Player, q.IsSide → (s.winner = q ↔ HasThree s.board q)
  unwon : s.winner = .vacant ↔ ∀ q : Player, q.IsSide → ¬ HasThree s.board q

/-- The counter knows when the board is full. -/
theorem Verdict.full_iff {s : State NumRows NumCols} (h : Verdict s) :
    Full s.board ↔ s.noMoves = NumRows * NumCols := by
  rw [h.counted, MaMatrix.count_eq_size_iff]
  rfl

theorem verdict_new {p : Player} (hp : p.IsSide) : Verdict (new p : State NumRows NumCols) := by
  have hnone : ∀ q : Player, q.IsSide → ¬ HasThree (new p : State NumRows NumCols).board q := by
    intro q hq h'
    obtain ⟨dr, dc, i, j, -, h⟩ := h'
    obtain ⟨hr, hat⟩ := h.1 0 (by decide)
    exact hq.ne_vacant (hat.symm.trans (MaMatrix.at'_fill _ hr))
  refine ⟨hp, (MaMatrix.count_fill rfl).symm, fun q hq => ?_, iff_of_true rfl hnone⟩
  exact iff_of_false (fun h => hq.ne_vacant h.symm) (hnone q hq)

/-- A move on a vacant cell of a game that nobody has won. -/
theorem Verdict.moveWinner {s : State NumRows NumCols} {m : Move} (hrows : NumRows ≤ 128)
    (hcols : NumCols ≤ 128) (h : Verdict s) (hopen : s.winner = .vacant)
    (hcell : InRange NumRows NumCols m.loc.r m.loc.c)
    (hvacant : s.board.at' m.loc.r m.loc.c = .vacant) : Verdict (s.moveWinner m) := by
  have hside := h.side.opponent
  have hnone := h.unwon.mp hopen
  have hmover := hasThree_mover hcell hvacant hside (hnone _ hside)
  have hother : ¬ HasThree (s.makeMove m).board s.playerJustMoved := by
    rw [hasThree_other hcell hvacant h.side h.side.opponent_ne.symm]
    exact hnone _ h.side
  obtain ⟨hwins, hkeeps⟩ := setWinner_winner (s.makeMove m) hrows hcols hcell
    (holds_mover hcell).2
  rw [show (s.makeMove m).move = m from rfl, ← hmover] at hwins hkeeps
  obtain ⟨hboard, hnoMoves, hplayer⟩ := setWinner_fields (s.makeMove m)
  have hcounted : (s.makeMove m).noMoves = (s.makeMove m).board.count Player.occupied := by
    show s.noMoves + 1 = (s.board.setAt m.loc.r m.loc.c _).count Player.occupied
    rw [MaMatrix.count_setAt s.board hcell (by rw [hvacant]; rfl)
      ((Player.occupied_iff _).mpr hside), h.counted]
  have hopen' : (s.makeMove m).winner = .vacant := hopen
  unfold State.moveWinner
  refine ⟨by rw [hplayer]; exact hside, by rw [hnoMoves, hboard]; exact hcounted, ?_, ?_⟩
  all_goals
    rw [hboard]
    by_cases hthree : HasThree (s.makeMove m).board s.playerJustMoved.opponent
  · intro q hq
    rw [hwins hthree]
    rcases h.side.eq_or_eq_opponent hq with rfl | rfl
    · exact iff_of_false h.side.opponent_ne hother
    · exact iff_of_true rfl hthree
  · intro q hq
    rw [hkeeps hthree, hopen']
    refine iff_of_false (fun h => hq.ne_vacant h.symm) ?_
    rcases h.side.eq_or_eq_opponent hq with rfl | rfl
    · exact hother
    · exact hthree
  · rw [hwins hthree]
    exact iff_of_false hside.ne_vacant fun h => h _ hside hthree
  · rw [hkeeps hthree]
    refine iff_of_true hopen' fun q hq => ?_
    rcases h.side.eq_or_eq_opponent hq with rfl | rfl
    · exact hother
    · exact hthree

theorem winner_of_ended_none {s : State NumRows NumCols} (h : s.ended = none) :
    s.winner = .vacant ∧ s.noMoves < NumRows * NumCols := by
  unfold State.ended at h
  split at h
  · assumption
  · cases h

/-- The winner is vacant or one of the two players. -/
theorem Verdict.winner_cases {s : State NumRows NumCols} (h : Verdict s) {q : Player}
    (hq : q.IsSide) : s.winner = .vacant ∨ s.winner = q ∨ s.winner = q.opponent := by
  by_cases hw : s.winner = .vacant
  · exact Or.inl hw
  · have hthree : ∃ q', q'.IsSide ∧ HasThree s.board q' := by
      by_contra hnone
      exact hw (h.unwon.mpr fun q' hq' hthree => hnone ⟨q', hq', hthree⟩)
    obtain ⟨q', hq', hthree⟩ := hthree
    have hwon := (h.won q' hq').mpr hthree
    rcases hq.eq_or_eq_opponent hq' with rfl | rfl
    · exact Or.inr (Or.inl hwon)
    · exact Or.inr (Or.inr hwon)

/-- Every state of a game carries the verdict. -/
theorem Played.verdict (hrows : NumRows ≤ 128) (hcols : NumCols ≤ 128)
    {s : State NumRows NumCols} (h : Played s) : Verdict s := by
  induction h with
  | new hp => exact verdict_new hp
  | moveWinner _ hopen hcell hvacant ih =>
      exact ih.moveWinner hrows hcols (winner_of_ended_none hopen).1 hcell hvacant

/-- On whole games `m_winner` is a player exactly when that player has a
run of exactly three somewhere on the board; the game has ended with a
player exactly then, without one exactly when the board is full and has
no such run, and is open otherwise. The results of the two players add
up to one. -/
theorem verdict_three (hrows : NumRows ≤ 128) (hcols : NumCols ≤ 128)
    {s : State NumRows NumCols} (h : Played s) :
    (∀ q : Player, q.IsSide → (s.winner = q ↔ HasThree s.board q)
        ∧ (s.ended = some q ↔ HasThree s.board q) ∧ (s.result q = 1 ↔ HasThree s.board q)
        ∧ s.result q + s.result q.opponent = 1)
      ∧ (s.ended = some .vacant
          ↔ Full s.board ∧ ∀ q : Player, q.IsSide → ¬ HasThree s.board q)
      ∧ (s.ended = none ↔ ¬ Full s.board ∧ ∀ q : Player, q.IsSide → ¬ HasThree s.board q) := by
  have hv := h.verdict hrows hcols
  have hle : s.noMoves ≤ NumRows * NumCols := by
    rw [hv.counted]
    exact MaMatrix.count_le _ _
  have hfull : Full s.board ↔ ¬ s.noMoves < NumRows * NumCols := by
    rw [hv.full_iff]
    omega
  refine ⟨fun q hq => ⟨hv.won q hq, ?_, ?_, ?_⟩, ?_, ?_⟩
  · rw [← hv.won q hq]
    unfold State.ended
    split_ifs with hopen
    · exact iff_of_false (fun h => by cases h) fun h => hq.ne_vacant (h.symm.trans hopen.1)
    · exact ⟨fun h => Option.some.inj h, fun h => congrArg some h⟩
  · rw [← hv.won q hq]
    unfold State.result
    split_ifs with hopen hwon
    · exact iff_of_false (by norm_num) fun h => hq.ne_vacant (h.symm.trans hopen)
    · exact iff_of_true rfl hwon
    · exact iff_of_false (by norm_num) hwon
  · unfold State.result
    rcases hv.winner_cases hq with hw | hw | hw
    · rw [hw, if_pos rfl, if_pos rfl]
      norm_num
    · rw [hw, if_neg hq.ne_vacant, if_neg hq.ne_vacant, if_pos rfl, if_neg hq.opponent_ne.symm]
      norm_num
    · rw [hw, if_neg hq.opponent.ne_vacant, if_neg hq.opponent.ne_vacant,
        if_neg hq.opponent_ne, if_pos rfl]
      norm_num
  · rw [hfull, ← hv.unwon]
    unfold State.ended
    split_ifs with hopen
    · exact iff_of_false (fun h => by cases h) fun h => h.1 hopen.2
    · constructor
      · intro h
        have hw := Option.some.inj h
        exact ⟨fun hlt => hopen ⟨hw, hlt⟩, hw⟩
      · intro h
        exact congrArg some h.2
  · rw [hfull, not_not, ← hv.unwon]
    unfold State.ended
    split_ifs with hopen
    · exact iff_of_true rfl ⟨hopen.2, hopen.1⟩
    · exact iff_of_false (fun h => by cases h) fun h => hopen ⟨h.2, h.1⟩

/-- Three by three, the first player fills the top row. -/
theorem verdict_three_topRow :
    let at' (r c : Int) : Move := ⟨⟨c, r⟩⟩
    let s : State 3 3 := (((((new .agent).moveWinner (at' 0 0)).moveWinner (at' 1 0)).moveWinner
      (at' 0 1)).moveWinner (at' 1 1)).moveWinner (at' 0 2)
    s.ended = some .human
      ∧ (∀ q : Player, q.IsSide → (s.winner = q ↔ HasThree s.board q)
        ∧ (s.ended = some q ↔ HasThree s.board q) ∧ (s.result q = 1 ↔ HasThree s.board q)
        ∧ s.result q + s.result q.opponent = 1)
      ∧ (s.ended = some .vacant
          ↔ Full s.board ∧ ∀ q : Player, q.IsSide → ¬ HasThree s.board q)
      ∧ (s.ended = none
          ↔ ¬ Full s.board ∧ ∀ q : Player, q.IsSide → ¬ HasThree s.board q) := by
  intro at' s
  have h₀ : Played (new .agent : State 3 3) := .new (Or.inl rfl)
  have h₁ := h₀.moveWinner (m := at' 0 0) rfl (by decide) (by decide)
  have h₂ := h₁.moveWinner (m := at' 1 0) (by decide +kernel) (by decide) (by decide +kernel)
  have h₃ := h₂.moveWinner (m := at' 0 1) (by decide +kernel) (by decide) (by decide +kernel)
  have h₄ := h₃.moveWinner (m := at' 1 1) (by decide +kernel) (by decide) (by decide +kernel)
  have h₅ : Played s :=
    h₄.moveWinner (m := at' 0 2) (by decide +kernel) (by decide) (by decide +kernel)
  exact ⟨by decide +kernel, verdict_three (by decide) (by decide) h₅⟩

end TicTacToe

end MctsConnectFour
