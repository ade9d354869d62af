/-
The verdict of Connect Four over whole games.

`winner ( )` looks at the lines through the last stone and at the move
counter. On a game in which it has been called after every move, that
is enough to know the whole board: before a listed move the board has
no line and is not full, so every line there is afterwards belongs to
the mover and runs through the stone just dropped (`hasLine_mover`,
`hasLine_other`). `Verdict` is what the run carries, and `verdict_run`
the induction over it.
-/
import MctsConnectFour.ConnectFour.Lines

namespace MctsConnectFour.ConnectFour

open MaMatrix (InRange)

variable {NumRows NumCols : Nat} {Z : ZobristTables NumRows NumCols}

-- ======================================================== lines and drops

section Drop

variable {s : State NumRows NumCols} {m : Move} {row col : Int}

/-- A cell other than the dropped stone's holds what it held. -/
theorem Drops.holds_iff (hd : Drops s m row col) {q : Player} {i j : Int}
    (hne : ¬ (i = row ∧ j = col)) :
    Holds (s.makeMove m).1.board q i j ↔ Holds s.board q i j := by
  unfold Holds
  refine and_congr_right fun hr => ?_
  rw [hd.at' hr, if_neg hne]

/-- The dropped stone is the mover's. -/
theorem Drops.holds (hd : Drops s m row col) :
    Holds (s.makeMove m).1.board s.playerJustMoved.opponent row col := by
  refine ⟨hd.inRange, ?_⟩
  rw [hd.at' hd.inRange, if_pos ⟨rfl, rfl⟩]

/-- The cell above the dropped stone does not hold the mover's. -/
theorem Drops.not_holds_above (hd : Drops s m row col) (h : BoardInv s) :
    ¬ Holds (s.makeMove m).1.board s.playerJustMoved.opponent (row - 1) col := by
  rw [hd.holds_iff (by omega)]
  intro h'
  obtain ⟨hr, hat⟩ := h'
  rw [h.settled.vacant_above hd.inRange hd.vacant (row - 1) hr.1 (by omega)] at hat
  exact h.side.opponent.ne_vacant hat.symm

/-- A player other than the mover has the lines it had. -/
theorem hasLine_other (hd : Drops s m row col) {q : Player}
    (hq : q ≠ s.playerJustMoved.opponent) (hline : HasLine (s.makeMove m).1.board q) :
    HasLine s.board q := by
  obtain ⟨dr, dc, i, j, hdir, h⟩ := hline
  refine ⟨dr, dc, i, j, hdir, fun k hk => (hd.holds_iff ?_).mp (h k hk)⟩
  intro hat
  have hcell := (h k hk).2
  rw [hat.1, hat.2] at hcell
  exact hq (hcell.symm.trans hd.holds.2)

/-- On a board without a line of the mover, a line of the mover is one
through the dropped stone. -/
theorem hasLine_mover (hd : Drops s m row col)
    (hnone : ¬ HasLine s.board s.playerJustMoved.opponent) :
    HasLine (s.makeMove m).1.board s.playerJustMoved.opponent
      ↔ ∃ dr dc, IsDirection dr dc
          ∧ LineThrough (s.makeMove m).1.board s.playerJustMoved.opponent dr dc row col := by
  constructor
  · intro h'
    obtain ⟨dr, dc, i, j, hdir, h⟩ := h'
    by_cases hthrough : ∃ k : Nat, k < 4 ∧ i + k * dr = row ∧ j + k * dc = col
    · obtain ⟨k, hk, rfl, rfl⟩ := hthrough
      exact ⟨dr, dc, hdir, h.lineThrough hk⟩
    · refine absurd ⟨dr, dc, i, j, hdir, fun k hk => (hd.holds_iff ?_).mp (h k hk)⟩ hnone
      exact fun hat => hthrough ⟨k, hk, hat⟩
  · intro h'
    obtain ⟨dr, dc, hdir, h⟩ := h'
    obtain ⟨i, j, hline⟩ := h.lineFrom hd.holds
    exact ⟨dr, dc, i, j, hdir, hline⟩

/-- The four checks together look in every direction. -/
theorem checks_iff (hd : Drops s m row col) (h : BoardInv s) (hrows : NumRows ≤ 255)
    (hcols : NumCols ≤ 255) :
    (horizontal (s.makeMove m).1.board s.playerJustMoved.opponent ⟨row, col⟩
        || vertical (s.makeMove m).1.board s.playerJustMoved.opponent ⟨row, col⟩
        || diagonalNwSe (s.makeMove m).1.board s.playerJustMoved.opponent ⟨row, col⟩
        || diagonalSwNe (s.makeMove m).1.board s.playerJustMoved.opponent ⟨row, col⟩) = true
      ↔ ∃ dr dc, IsDirection dr dc
          ∧ LineThrough (s.makeMove m).1.board s.playerJustMoved.opponent dr dc row col := by
  simp only [Bool.or_eq_true, horizontal_iff hd.holds hrows hcols,
    vertical_iff hd.holds hrows hcols (hd.not_holds_above h),
    diagonalNwSe_iff hd.holds hrows hcols, diagonalSwNe_iff hd.holds hrows hcols]
  constructor
  · intro h'
    rcases h' with ((hline | hline) | hline) | hline
    · exact ⟨0, 1, Or.inl ⟨rfl, rfl⟩, hline⟩
    · exact ⟨1, 0, Or.inr (Or.inl ⟨rfl, rfl⟩), hline⟩
    · exact ⟨1, 1, Or.inr (Or.inr (Or.inl ⟨rfl, rfl⟩)), hline⟩
    · exact ⟨-1, 1, Or.inr (Or.inr (Or.inr ⟨rfl, rfl⟩)), hline⟩
  · intro h'
    obtain ⟨dr, dc, ⟨rfl, rfl⟩ | ⟨rfl, rfl⟩ | ⟨rfl, rfl⟩ | ⟨rfl, rfl⟩, hline⟩ := h'
    · exact Or.inl (Or.inl (Or.inl hline))
    · exact Or.inl (Or.inl (Or.inr hline))
    · exact Or.inl (Or.inr hline)
    · exact Or.inr hline

end Drop

-- ============================================================= verdict

/-- Every cell of the board holds a stone. -/
def Full (b : Board NumRows NumCols) : Prop :=
  ∀ i j, InRange NumRows NumCols i j → (b.at' i j).occupied = true

/-- The counter knows when the board is full. -/
theorem BoardInv.full_iff {s : State NumRows NumCols} (h : BoardInv s) :
    Full s.board ↔ NumRows * NumCols = s.noMoves := by
  rw [h.count, eq_comm, MaMatrix.count_eq_size_iff]
  rfl

/-- What the verdict says about the whole board. -/
structure Verdict (s : State NumRows NumCols) : Prop where
  won : ∀ q : Player, q.IsSide → (s.winner = q ↔ HasLine s.board q)
  drawn : s.winner = .vacant ↔ Full s.board ∧ ∀ q : Player, q.IsSide → ¬ HasLine s.board q
  unfinished :
    s.winner = .invalid ↔ ¬ Full s.board ∧ ∀ q : Player, q.IsSide → ¬ HasLine s.board q

/-- A new board has vacant cells and no lines. -/
theorem verdict_new (hrows : 1 ≤ NumRows) (hcols : 1 ≤ NumCols) (p : Player) :
    Verdict (new Z p) := by
  have hcell : ∀ i j, InRange NumRows NumCols i j → (new Z p).board.at' i j = .vacant :=
    fun i j hr => MaMatrix.at'_fill _ hr
  have hline : ∀ q : Player, q.IsSide → ¬ HasLine (new Z p).board q := by
    intro q hq h'
    obtain ⟨dr, dc, i, j, -, h⟩ := h'
    obtain ⟨hr, hat⟩ := h 0 (by decide)
    rw [hcell _ _ hr] at hat
    exact hq.ne_vacant hat.symm
  have hfull : ¬ Full (new Z p).board := by
    intro hf
    have hr : InRange NumRows NumCols 0 0 := ⟨by omega, by omega, by omega, by omega⟩
    have hocc := hf 0 0 hr
    rw [hcell 0 0 hr] at hocc
    cases hocc
  refine ⟨fun q hq => ?_, ?_, ?_⟩
  · exact iff_of_false (fun h => hq.ne_invalid h.symm) (hline q hq)
  · exact iff_of_false (by decide : Player.invalid ≠ .vacant) fun h => hfull h.1
  · exact iff_of_true rfl ⟨hfull, hline⟩

/-- What `winner ( )` sets. -/
theorem setWinner_winner (s : State NumRows NumCols) (c : Coordinates) :
    (s.setWinner c).winner =
      if horizontal s.board (s.board.at' c.row c.col) c
          || vertical s.board (s.board.at' c.row c.col) c
          || diagonalNwSe s.board (s.board.at' c.row c.col) c
          || diagonalSwNe s.board (s.board.at' c.row c.col) c then s.board.at' c.row c.col
      else if NumRows * NumCols = s.noMoves then .vacant else s.winner := by
  unfold State.setWinner
  simp only
  split_ifs <;> rfl

/-- A verdict reached by looking for a line of the mover first, then at
the counter, is a verdict on the whole board when nobody else has a
line. -/
private theorem verdict_of {s : State NumRows NumCols} {mover other : Player}
    (hm : mover.IsSide) (hne : mover ≠ other)
    (hsides : ∀ q : Player, q.IsSide → q = other ∨ q = mover)
    (hother : ¬ HasLine s.board other)
    (hline : HasLine s.board mover → s.winner = mover)
    (hfull : ¬ HasLine s.board mover → Full s.board → s.winner = .vacant)
    (hopen : ¬ HasLine s.board mover → ¬ Full s.board → s.winner = .invalid) : Verdict s := by
  by_cases hl : HasLine s.board mover
  · have hw := hline hl
    refine ⟨fun q hq => ?_, ?_, ?_⟩
    · rcases hsides q hq with rfl | rfl
      · exact iff_of_false (fun h => hne (hw.symm.trans h)) hother
      · exact iff_of_true hw hl
    · exact iff_of_false (fun h => hm.ne_vacant (hw.symm.trans h)) fun h => h.2 _ hm hl
    · exact iff_of_false (fun h => hm.ne_invalid (hw.symm.trans h)) fun h => h.2 _ hm hl
  · have hnone : ∀ q : Player, q.IsSide → ¬ HasLine s.board q := by
      intro q hq
      rcases hsides q hq with rfl | rfl
      · exact hother
      · exact hl
    by_cases hf : Full s.board
    · have hw := hfull hl hf
      refine ⟨fun q hq => ?_, iff_of_true hw ⟨hf, hnone⟩, ?_⟩
      · exact iff_of_false (fun h => hq.ne_vacant (h.symm.trans hw)) (hnone q hq)
      · exact iff_of_false (by rw [hw]; decide) fun h => h.1 hf
    · have hw := hopen hl hf
      refine ⟨fun q hq => ?_, ?_, iff_of_true hw ⟨hf, hnone⟩⟩
      · exact iff_of_false (fun h => hq.ne_invalid (h.symm.trans hw)) (hnone q hq)
      · exact iff_of_false (by rw [hw]; decide) fun h => hf h.1

/-- The verdict after a listed move, with `winner ( )` called on the
state `t` the move leaves. -/
theorem verdict_step (hrows : NumRows ≤ 255) (hcols : NumCols ≤ 255)
    (hcells : NumRows * NumCols ≤ 255) {s t : State NumRows NumCols} {m : Move} {row col : Int}
    (h : BoardInv s) (hv : Verdict s) (hopen : s.winner = .invalid) (hd : Drops s m row col)
    (hboard : t.board = (s.makeMove m).1.board) (hcount : t.noMoves = (s.makeMove m).1.noMoves)
    (hwinner : t.winner = s.winner) : Verdict (t.setWinner ⟨row, col⟩) := by
  have hnone := (hv.unfinished.mp hopen).2
  have hline := (hasLine_mover hd (hnone _ h.side.opponent)).trans
    (checks_iff hd h hrows hcols).symm
  have hother : ¬ HasLine (s.makeMove m).1.board s.playerJustMoved := fun hl =>
    hnone _ h.side (hasLine_other hd (fun he => h.side.opponent_ne he.symm) hl)
  have hfull := (h.makeMove hd hcells).full_iff
  have hw := setWinner_winner t ⟨row, col⟩
  rw [hboard, hd.holds.2, hcount, hwinner, hopen] at hw
  refine verdict_of h.side.opponent h.side.opponent_ne
    (fun q hq => h.side.eq_or_eq_opponent hq) ?_ ?_ ?_ ?_
  all_goals rw [setWinner_board, hboard]
  · exact hother
  · intro hl
    rw [hw, if_pos (hline.mp hl)]
  · intro hl hf
    rw [hw, if_neg fun hc => hl (hline.mpr hc), if_pos (hfull.mp hf)]
  · intro hl hf
    rw [hw, if_neg fun hc => hl (hline.mpr hc), if_neg fun he => hf (hfull.mpr he)]

/-- On a game in which `winner ( )` follows every move, the verdict is
that of the whole board. -/
theorem verdict_run (hrows : 1 ≤ NumRows) (hcols : 1 ≤ NumCols)
    (hcells : NumRows * NumCols ≤ 255) (hnarrow : NumCols ≤ 128) {p : Player} (hp : p.IsSide)
    {s : State NumRows NumCols} (hrun : (game Z).Run (· ≠ .moveHash) (new Z p) s) :
    BoardInv s ∧ Verdict s := by
  have hrows' : NumRows ≤ 255 := (Nat.le_mul_of_pos_right _ hcols).trans hcells
  have hcols' : NumCols ≤ 255 := (Nat.le_mul_of_pos_left _ hrows).trans hcells
  refine hrun.invariant (I := fun s => BoardInv s ∧ Verdict s)
    ⟨boardInv_new Z hp, verdict_new hrows hcols p⟩ ?_
  intro s op m h' hop hm
  obtain ⟨h, hv⟩ := h'
  obtain ⟨row, col, hd⟩ := drops_of_legal hrows hnarrow h.settled hm
  have hopen := ((mem_legal_iff Z s m).mp hm).2.1
  refine ⟨h.apply hrows hnarrow hcells op hm, ?_⟩
  cases op with
  | moveHash => exact absurd rfl hop
  | moveHashWinner =>
      have hstep := verdict_step hrows' hcols' hcells (t := (s.makeMove m).1.hash Z ⟨row, col⟩)
        h hv hopen hd rfl rfl rfl
      rwa [← hd.coordinates] at hstep
  | moveWinner =>
      have hstep := verdict_step hrows' hcols' hcells (t := (s.makeMove m).1)
        h hv hopen hd rfl rfl rfl
      rwa [← hd.coordinates] at hstep

/-- On whole games played by `move_winner ( )` and
`move_hash_winner ( )`, `m_winner` is a player exactly when that player
has a line somewhere on the board, `vacant` exactly when the board is
full without one, and `invalid` otherwise. -/
theorem winner_exact (hrows : 1 ≤ NumRows) (hcols : 1 ≤ NumCols)
    (hcells : NumRows * NumCols ≤ 255) (hnarrow : NumCols ≤ 127) {p : Player} (hp : p.IsSide)
    {s : State NumRows NumCols}
    (hrun : (game Z).Run (fun op => op = .moveWinner ∨ op = .moveHashWinner) (new Z p) s) :
    (∀ q : Player, q.IsSide → (s.winner = q ↔ HasLine s.board q))
      ∧ (s.winner = .vacant ↔ Full s.board ∧ ∀ q : Player, q.IsSide → ¬ HasLine s.board q)
      ∧ (s.winner = .invalid
          ↔ ¬ Full s.board ∧ ∀ q : Player, q.IsSide → ¬ HasLine s.board q) := by
  obtain ⟨-, hv⟩ := verdict_run hrows hcols hcells (by omega) hp
    hrun.winner_follows
  exact ⟨hv.won, hv.drawn, hv.unfinished⟩

/-- The rule applied to a first move on the board of six rows and seven
columns. -/
theorem winner_exact_six_seven :
    let Z : ZobristTables 6 7 := ⟨⟨Vector.replicate _ 0⟩, Vector.replicate 3 0⟩
    let s := moveWinner (new Z .agent) (Move.ofIndex 3)
    (∀ q : Player, q.IsSide → (s.winner = q ↔ HasLine s.board q))
      ∧ (s.winner = .vacant ↔ Full s.board ∧ ∀ q : Player, q.IsSide → ¬ HasLine s.board q)
      ∧ (s.winner = .invalid
          ↔ ¬ Full s.board ∧ ∀ q : Player, q.IsSide → ¬ HasLine s.board q) := by
  intro Z s
  have hm : Move.ofIndex 3 ∈ (game Z).legal (new Z .agent) := by decide +kernel
  exact winner_exact (Z := Z) (by decide) (by decide) (by decide) (by decide) (Or.inl rfl)
    (.move .moveWinner .start (Or.inl rfl) hm)

end MctsConnectFour.ConnectFour
