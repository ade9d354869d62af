/-
The incremental hash of Connect Four.

A move toggles the key of the stone it drops, so hash and keys of the
stones on the board cancel to the same word all game long
(`hashBase_run`): on a new state, which is empty, the key of the vacant
player. The hash is thus known from the board, and `zobrist ( )` from the
board and the player who just moved, whatever the order of the moves
(`zobrist_of_run`). The move counter has no part in this; the column of a
move has to fit its eight bits.
-/
import Mathlib.Data.List.ProdSigma
import MctsConnectFour.ConnectFour.Board
import MctsConnectFour.Lib.XorSum

namespace MctsConnectFour.ConnectFour

open MaMatrix (InRange)
open XorSum (xorSum xorSum_map_update)

variable {NumRows NumCols : Nat} {Z : ZobristTables NumRows NumCols}

-- ================================================================ keys

/-- The cells of the board. -/
def cells (NumRows NumCols : Nat) : List (Nat × Nat) :=
  List.product (List.range NumRows) (List.range NumCols)

/-- The key of the stone on a cell, if there is one. -/
def cellKey (Z : ZobristTables NumRows NumCols) (b : Board NumRows NumCols) (cell : Nat × Nat) :
    UInt64 :=
  if (b.at' cell.1 cell.2).occupied then
    Z.keys.at' (b.at' cell.1 cell.2).as01Index cell.1 cell.2
  else 0

/-- The keys of the stones on the board. -/
def stoneKeys (Z : ZobristTables NumRows NumCols) (b : Board NumRows NumCols) : UInt64 :=
  xorSum ((cells NumRows NumCols).map (cellKey Z b))

section Drop

variable {s : State NumRows NumCols} {m : Move} {row col : Int}

/-- A drop toggles the key of its stone. -/
theorem Drops.stoneKeys (hd : Drops s m row col) (h : Settled s) :
    stoneKeys Z (s.makeMove m).1.board
      = Z.keys.at' s.playerJustMoved.opponent.as01Index row col ^^^ stoneKeys Z s.board := by
  obtain ⟨i, rfl⟩ := Int.eq_ofNat_of_zero_le hd.inRange.1
  obtain ⟨j, rfl⟩ := Int.eq_ofNat_of_zero_le hd.inRange.2.2.1
  have hr := hd.inRange
  have hmem : (i, j) ∈ cells NumRows NumCols := by
    have h₁ := hr.2.1
    have h₂ := hr.2.2.2
    exact List.mem_product.mpr ⟨List.mem_range.mpr (by omega), List.mem_range.mpr (by omega)⟩
  have hnodup : (cells NumRows NumCols).Nodup := List.nodup_range.product List.nodup_range
  unfold ConnectFour.stoneKeys
  rw [xorSum_map_update hnodup hmem (f := cellKey Z s.board)]
  · have hnew : cellKey Z (s.makeMove m).1.board (i, j)
        = Z.keys.at' s.playerJustMoved.opponent.as01Index i j := by
      have hat : (s.makeMove m).1.board.at' i j = s.playerJustMoved.opponent := by
        rw [hd.at' hr, if_pos ⟨rfl, rfl⟩]
      unfold cellKey
      rw [hat, if_pos ((Player.occupied_iff _).mpr h.side.opponent)]
    have hold : cellKey Z s.board (i, j) = 0 := by
      unfold cellKey
      rw [hd.vacant]
      rfl
    rw [hnew, hold, UInt64.zero_xor]
  · intro cell hcell hne
    obtain ⟨h₁, h₂⟩ := List.mem_product.mp hcell
    rw [List.mem_range] at h₁ h₂
    have hcellR : InRange NumRows NumCols cell.1 cell.2 := ⟨by omega, by omega, by omega, by omega⟩
    have hother : ¬ ((cell.1 : Int) = i ∧ (cell.2 : Int) = j) := fun heq =>
      hne (Prod.ext (by exact_mod_cast heq.1) (by exact_mod_cast heq.2))
    unfold cellKey
    rw [hd.at' hcellR, if_neg hother]

end Drop

/-- An empty board has no keys. -/
theorem stoneKeys_fill : stoneKeys Z (.fill .vacant) = 0 := by
  have hzero : ∀ cell ∈ cells NumRows NumCols,
      cellKey Z (.fill .vacant) cell = (fun _ => 0 : Nat × Nat → UInt64) cell := by
    intro cell hcell
    obtain ⟨h₁, h₂⟩ := List.mem_product.mp hcell
    rw [List.mem_range] at h₁ h₂
    have hr : InRange NumRows NumCols cell.1 cell.2 := ⟨by omega, by omega, by omega, by omega⟩
    unfold cellKey
    rw [MaMatrix.at'_fill _ hr]
    rfl
  unfold stoneKeys
  rw [List.map_congr_left hzero]
  exact XorSum.xorSum_zero _

-- ================================================================ runs

/-- Hash and stone keys of a game with the hash kept up to date cancel
to what they were at the start. -/
theorem hashBase_run (hrows : 1 ≤ NumRows) (hcols : NumCols ≤ 128) {s₀ s : State NumRows NumCols}
    (h₀ : Settled s₀) (hrun : (game Z).Run (· ≠ .moveWinner) s₀ s) :
    Settled s ∧ s.zobristHash ^^^ stoneKeys Z s.board
      = s₀.zobristHash ^^^ stoneKeys Z s₀.board := by
  refine hrun.invariant (I := fun s : State NumRows NumCols => Settled s
    ∧ s.zobristHash ^^^ stoneKeys Z s.board = s₀.zobristHash ^^^ stoneKeys Z s₀.board) ⟨h₀, rfl⟩ ?_
  intro s op m hI hop hm
  obtain ⟨h, hbase⟩ := hI
  obtain ⟨row, col, hd⟩ := drops_of_legal hrows hcols h hm
  refine ⟨h.apply hrows hcols op hm, ?_⟩
  have hhash : ((game Z).apply op s m).zobristHash
      = s.zobristHash ^^^ Z.keys.at' s.playerJustMoved.opponent.as01Index row col := by
    cases op with
    | moveHash =>
        show ((s.makeMove m).1.hash Z (s.makeMove m).2).zobristHash = _
        rw [hd.coordinates]
        rfl
    | moveHashWinner =>
        show (((s.makeMove m).1.hash Z (s.makeMove m).2).setWinner (s.makeMove m).2).zobristHash = _
        rw [setWinner_zobristHash, hd.coordinates]
        rfl
    | moveWinner => exact absurd rfl hop
  rw [← hbase, hhash, (apply_fields op s m).1, hd.stoneKeys h, UInt64.xor_assoc,
    XorSum.xor_cancel_left]


/-- The hash of a game with the hash kept up to date. -/
theorem hash_of_run (hcols : NumCols ≤ 128) {p : Player} (hp : p.IsSide)
    {s : State NumRows NumCols} (hrun : (game Z).Run (· ≠ .moveWinner) (new Z p) s) :
    s.zobristHash = Z.playerKey .vacant ^^^ stoneKeys Z s.board := by
  have hcancel : s.zobristHash ^^^ stoneKeys Z s.board = Z.playerKey .vacant := by
    rcases Nat.eq_zero_or_pos NumRows with hnone | hrows
    · -- a board without rows is full from the start
      have hfull : s.noMoves = 0 ∧ s.zobristHash ^^^ stoneKeys Z s.board
          = Z.playerKey .vacant ^^^ stoneKeys Z (.fill .vacant) := by
        refine hrun.invariant (I := fun s : State NumRows NumCols => s.noMoves = 0
          ∧ s.zobristHash ^^^ stoneKeys Z s.board
            = Z.playerKey .vacant ^^^ stoneKeys Z (.fill .vacant)) ⟨rfl, rfl⟩ ?_
        intro s op m hI _ hm
        have hcells : NumRows * NumCols = 0 := by rw [hnone, Nat.zero_mul]
        exact absurd (hcells.trans hI.1.symm) ((mem_legal_iff Z s m).mp hm).1
      rw [hfull.2, stoneKeys_fill, UInt64.xor_zero]
    · rw [(hashBase_run hrows hcols (settled_new Z hp) hrun).2]
      show Z.playerKey .vacant ^^^ stoneKeys Z (.fill .vacant) = _
      rw [stoneKeys_fill, UInt64.xor_zero]
  rw [← hcancel, UInt64.xor_assoc, UInt64.xor_self, UInt64.xor_zero]

/-- The hash is the keys of the board, and `zobrist ( )` adds the player
who just moved; games that transpose have the same. -/
theorem zobrist_of_run (hcols : NumCols ≤ 128) {p : Player} (hp : p.IsSide)
    {s : State NumRows NumCols} (hrun : (game Z).Run (· ≠ .moveWinner) (new Z p) s) :
    s.zobristHash = Z.playerKey .vacant ^^^ stoneKeys Z s.board
      ∧ zobrist Z s = Z.playerKey .vacant ^^^ stoneKeys Z s.board ^^^ Z.playerKey s.playerJustMoved
      ∧ ∀ (p' : Player) (t : State NumRows NumCols), p'.IsSide →
          (game Z).Run (· ≠ .moveWinner) (new Z p') t → t.board = s.board →
          t.playerJustMoved = s.playerJustMoved → zobrist Z t = zobrist Z s := by
  have hhash := hash_of_run hcols hp hrun
  refine ⟨hhash, by rw [zobrist, hhash], fun p' t hp' hrun' hboard hplayer => ?_⟩
  rw [zobrist, zobrist, hhash, hash_of_run hcols hp' hrun', hboard, hplayer]

/-- The hash of the first move on the board of six rows and seven
columns. -/
theorem zobrist_of_run_six_seven :
    let Z : ZobristTables 6 7 := ⟨⟨Vector.replicate _ 5⟩, Vector.replicate 3 3⟩
    let s := moveHash Z (new Z .agent) (Move.ofIndex 3)
    s.zobristHash = Z.playerKey .vacant ^^^ stoneKeys Z s.board
      ∧ zobrist Z s = Z.playerKey .vacant ^^^ stoneKeys Z s.board ^^^ Z.playerKey s.playerJustMoved
      ∧ ∀ (p' : Player) (t : State 6 7), p'.IsSide →
          (game Z).Run (· ≠ .moveWinner) (new Z p') t → t.board = s.board →
          t.playerJustMoved = s.playerJustMoved → zobrist Z t = zobrist Z s := by
  intro Z s
  have hm : Move.ofIndex 3 ∈ (game Z).legal (new Z .agent) := by decide
  exact zobrist_of_run (Z := Z) (by decide) (Or.inl rfl)
    (.move .moveHash .start (by decide) hm)

/-- Column 128 is listed as column -128: the key of another cell is
toggled, and no cell of the board changes. -/
theorem zobrist_column_lost :
    let Z : ZobristTables 1 129 := ⟨⟨Vector.replicate _ 1⟩, Vector.replicate 3 0⟩
    ∃ s : State 1 129, (game Z).Run (· ≠ .moveWinner) (new Z .agent) s
      ∧ s.zobristHash ≠ Z.playerKey .vacant ^^^ stoneKeys Z s.board := by
  intro Z
  have htop : (new Z .agent).board.at' 0 128 = .vacant := MaMatrix.at'_fill _ (by decide)
  have hm : Move.ofIndex 128 ∈ (game Z).legal (new Z .agent) :=
    (mem_legal_iff Z _ _).mpr ⟨by decide, rfl, 128, by decide, htop, rfl⟩
  refine ⟨_, .move .moveHash .start (by decide) hm, ?_⟩
  have hboard : ((game Z).apply .moveHash (new Z .agent) (Move.ofIndex 128)).board
      = .fill .vacant := rfl
  rw [hboard, stoneKeys_fill]
  decide

end MctsConnectFour.ConnectFour
