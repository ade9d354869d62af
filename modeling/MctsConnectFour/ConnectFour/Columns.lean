/-
The board of Connect Four over whole games.

Stones lie on each other: the occupied cells of a column are those from
some row down (`Settled.column`). The counter counts them, and the players
take turns, so that their stones differ by at most one (`Turns`). A listed
move fills the lowest vacant cell of its column, which exists, and no other
(`drops_of_legal`).
-/
import Mathlib.Algebra.Order.Ring.Nat
import MctsConnectFour.ConnectFour.Board
import MctsConnectFour.Laws

namespace MctsConnectFour.ConnectFour

open MaMatrix (InRange)

variable {NumRows NumCols : Nat} {Z : ZobristTables NumRows NumCols} {s : State NumRows NumCols}

-- ============================================================== columns

/-- The stones of a column are a block on the bottom row. -/
theorem Settled.column (h : Settled s) {col : Int} (hcol : 0 ≤ col ∧ col < NumCols) :
    ∃ top : Nat, top ≤ NumRows ∧ ∀ row : Int, 0 ≤ row → row < NumRows →
      ((s.board.at' row col).occupied = true ↔ (top : Int) ≤ row) := by
  -- the first row with a stone, or the one under the board
  have hex : ∃ k : Nat, NumRows ≤ k ∨ (s.board.at' k col).occupied = true := ⟨NumRows, Or.inl le_rfl⟩
  have hle : Nat.find hex ≤ NumRows := Nat.find_min' hex (Or.inl le_rfl)
  refine ⟨Nat.find hex, hle, fun row hlo hhi => ?_⟩
  obtain ⟨i, rfl⟩ := Int.eq_ofNat_of_zero_le hlo
  constructor
  · intro hocc
    exact_mod_cast Nat.find_min' hex (Or.inr hocc)
  · intro htop
    have htopR : InRange NumRows NumCols (Nat.find hex : Nat) col :=
      ⟨by omega, by omega, hcol.1, hcol.2⟩
    have hat : (s.board.at' (Nat.find hex : Nat) col).occupied = true :=
      (Nat.find_spec hex).resolve_left (by omega)
    have hr : InRange NumRows NumCols i col := ⟨hlo, hhi, hcol.1, hcol.2⟩
    rw [h.occupied_iff hr]
    intro hvac
    refine (h.occupied_iff htopR).mp hat ?_
    rcases htop.eq_or_lt with heq | hlt
    · rw [heq]
      exact hvac
    · exact h.vacant_above hr hvac _ (by omega) hlt

-- ================================================================ turns

/-- The stones of a player. -/
def stonesOf (s : State NumRows NumCols) (q : Player) : Nat := s.board.count fun c => c == q

/-- The last mover has as many stones as the other, or one more. -/
def Turns (s : State NumRows NumCols) : Prop :=
  stonesOf s s.playerJustMoved = stonesOf s s.playerJustMoved.opponent
    ∨ stonesOf s s.playerJustMoved = stonesOf s s.playerJustMoved.opponent + 1

theorem turns_new {p : Player} (hp : p.IsSide) : Turns (new Z p) := by
  have hnone : ∀ q : Player, q.IsSide → stonesOf (new Z p) q = 0 := by
    intro q hq
    refine MaMatrix.count_fill ?_
    rcases hq with rfl | rfl <;> rfl
  left
  show stonesOf (new Z p) p = stonesOf (new Z p) p.opponent
  rw [hnone p hp, hnone p.opponent hp.opponent]

section Drop

variable {m : Move} {row col : Int}

/-- A drop adds a stone of the player to move. -/
theorem Drops.stonesOf_mover (hd : Drops s m row col) (h : Settled s) :
    stonesOf (s.makeMove m).1 s.playerJustMoved.opponent
      = stonesOf s s.playerJustMoved.opponent + 1 := by
  unfold stonesOf
  rw [hd.board]
  refine MaMatrix.count_setAt _ hd.inRange ?_ (beq_self_eq_true _)
  rw [hd.vacant]
  exact beq_eq_false_iff_ne.mpr h.side.opponent.ne_vacant.symm

/-- And none of the other. -/
theorem Drops.stonesOf_other (hd : Drops s m row col) (h : Settled s) :
    stonesOf (s.makeMove m).1 s.playerJustMoved = stonesOf s s.playerJustMoved := by
  unfold stonesOf
  rw [hd.board]
  refine MaMatrix.count_setAt_of_not _ hd.inRange ?_ ?_
  · rw [hd.vacant]
    exact beq_eq_false_iff_ne.mpr h.side.ne_vacant.symm
  · exact beq_eq_false_iff_ne.mpr h.side.opponent_ne

theorem Turns.makeMove (ht : Turns s) (h : Settled s) (hd : Drops s m row col) :
    Turns (s.makeMove m).1 := by
  unfold Turns
  show stonesOf _ s.playerJustMoved.opponent = stonesOf _ s.playerJustMoved.opponent.opponent
    ∨ stonesOf _ s.playerJustMoved.opponent = stonesOf _ s.playerJustMoved.opponent.opponent + 1
  rw [Player.opponent_opponent, hd.stonesOf_mover h, hd.stonesOf_other h]
  rcases ht with heq | hmore
  · right
    rw [heq]
  · left
    rw [hmore]

end Drop

-- ================================================================= runs

/-- Invariant and turns over a game, however its moves are made. -/
theorem turns_run (hrows : 1 ≤ NumRows) (hcols : NumCols ≤ 128)
    (hcells : NumRows * NumCols ≤ 255) {p : Player} (hp : p.IsSide)
    (hrun : (game Z).Mixed (new Z p) s) : BoardInv s ∧ Turns s := by
  refine hrun.invariant (I := fun s : State NumRows NumCols => BoardInv s ∧ Turns s)
    ⟨boardInv_new Z hp, turns_new hp⟩ ?_
  intro s op m hI _ hm
  obtain ⟨h, ht⟩ := hI
  refine ⟨h.apply hrows hcols hcells op hm, ?_⟩
  obtain ⟨row, col, hd⟩ := drops_of_legal hrows hcols h.settled hm
  have hmade := ht.makeMove h.settled hd
  obtain ⟨hb, -, hplayer, -⟩ := apply_fields (Z := Z) op s m
  unfold Turns stonesOf at hmade ⊢
  rw [hb, hplayer]
  exact hmade

/-- The board of a game: its columns, its counter, its turns, and what a
listed move does to it, however it is made. -/
structure Orderly (Z : ZobristTables NumRows NumCols) (s : State NumRows NumCols) : Prop where
  columns : ∀ col : Int, 0 ≤ col → col < NumCols → ∃ top : Nat, top ≤ NumRows ∧
    ∀ row : Int, 0 ≤ row → row < NumRows →
      ((s.board.at' row col).occupied = true ↔ (top : Int) ≤ row)
        ∧ (s.board.at' row col = .vacant ↔ row < (top : Int))
  counter : s.noMoves = s.board.count Player.occupied
  turns : stonesOf s s.playerJustMoved = stonesOf s s.playerJustMoved.opponent
    ∨ stonesOf s s.playerJustMoved = stonesOf s s.playerJustMoved.opponent + 1
  moves : ∀ m ∈ (game Z).legal s, ∃ row col : Int, m.loc = col ∧ InRange NumRows NumCols row col
    ∧ (s.makeMove m).2 = ⟨row, col⟩ ∧ s.board.at' row col = .vacant
    ∧ (∀ i : Int, row < i → i < NumRows → (s.board.at' i col).occupied = true)
    ∧ ∀ (op : Game.MoveOp) (i j : Int), InRange NumRows NumCols i j →
        ((game Z).apply op s m).board.at' i j
          = if i = row ∧ j = col then s.playerJustMoved.opponent else s.board.at' i j

theorem orderly_of_run (hrows : 1 ≤ NumRows) (hcells : NumRows * NumCols ≤ 255)
    (hcols : NumCols ≤ 127) {p : Player} (hp : p.IsSide) (hrun : (game Z).Mixed (new Z p) s) :
    Orderly Z s := by
  obtain ⟨h, ht⟩ := turns_run hrows (by omega) hcells hp hrun
  constructor
  case columns =>
    intro col hlo hhi
    obtain ⟨top, hle, htop⟩ := h.settled.column ⟨hlo, hhi⟩
    refine ⟨top, hle, fun row hrow hrow' => ⟨htop row hrow hrow', ?_⟩⟩
    have hocc := h.settled.occupied_iff (i := row) ⟨hrow, hrow', hlo, hhi⟩
    rw [htop row hrow hrow'] at hocc
    rw [← not_le, hocc, not_not]
  case counter => exact h.count
  case turns => exact ht
  case moves =>
    intro m hm
    obtain ⟨row, col, hd⟩ := drops_of_legal hrows (by omega) h.settled hm
    refine ⟨row, col, hd.loc, hd.inRange, hd.coordinates, hd.vacant, hd.below, fun op i j hr => ?_⟩
    rw [(apply_fields op s m).1, hd.at' hr]

/-- The first move on the board of six rows and seven columns. -/
theorem orderly_of_run_six_seven :
    let Z : ZobristTables 6 7 := ⟨⟨Vector.replicate _ 0⟩, Vector.replicate 3 0⟩
    Orderly Z (moveWinner (new Z .agent) (Move.ofIndex 3)) := by
  intro Z
  have hm : Move.ofIndex 3 ∈ (game Z).legal (new Z .agent) := by decide +kernel
  exact orderly_of_run (by decide) (by decide) (by decide) (Or.inl rfl)
    (.move .moveWinner .start trivial hm)

end MctsConnectFour.ConnectFour
