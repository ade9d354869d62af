/-
Connect Four obeys the laws the search relies on.

The hash is one word of the game and the keys of the stones on the
board (`hashBase_run`), so it depends on the position only; so do the
verdict (ConnectFour/Verdict.lean) and with it the listed moves. The
vacant cells are the measure by which games end.
-/
import MctsConnectFour.ConnectFour.Hash
import MctsConnectFour.ConnectFour.Verdict
import MctsConnectFour.Laws

namespace MctsConnectFour.ConnectFour

open MaMatrix (InRange)

variable {NumRows NumCols : Nat} {Z : ZobristTables NumRows NumCols}

-- ======================================================== moves and hash

/-- `winner ( )` sets the verdict and nothing else. -/
theorem setWinner_eq (s : State NumRows NumCols) (c : Coordinates) :
    s.setWinner c = { s with winner := (s.setWinner c).winner } := by
  unfold State.setWinner
  simp only
  split_ifs <;> rfl

/-- A move made without the hash and one made with it differ in the hash
only, which no later move looks at. -/
theorem moveHashWinner_withHash (s : State NumRows NumCols) (h : UInt64) (m : Move) :
    ∃ h', moveHashWinner Z { s with zobristHash := h } m
      = { moveWinner s m with zobristHash := h' } := by
  refine ⟨(moveHashWinner Z { s with zobristHash := h } m).zobristHash, ?_⟩
  unfold moveHashWinner moveWinner State.setWinner State.hash State.makeMove
  simp only
  split_ifs <;> rfl

/-- The same for a whole line. -/
theorem play_withHash (s : State NumRows NumCols) (ms : List Move) :
    ∃ h, (game Z).play s ms = { ms.foldl moveWinner s with zobristHash := h } := by
  induction ms using List.reverseRecOn with
  | nil => exact ⟨s.zobristHash, rfl⟩
  | append_singleton ms m ih =>
      obtain ⟨h, ih⟩ := ih
      rw [Game.play_concat, ih, List.foldl_append]
      exact moveHashWinner_withHash _ h m

-- ================================================================ laws

theorem ended_eq_none_iff {s : State NumRows NumCols} : s.ended = none ↔ s.winner = .invalid := by
  unfold State.ended
  split
  · next h => simp [h]
  · next h => simp [h]

/-- A game that has ended has no moves. -/
theorem legal_of_ended {s : State NumRows NumCols} (hended : s.ended ≠ none) :
    (game Z).legal s = [] := by
  apply List.eq_nil_iff_forall_not_mem.mpr
  intro m hm
  exact hended (ended_eq_none_iff.mpr ((mem_legal_iff Z s m).mp hm).2.1)

section Laws

variable (hrows : 1 ≤ NumRows) (hcols : 1 ≤ NumCols) (hcells : NumRows * NumCols ≤ 255)
  (hnarrow : NumCols ≤ 127) {p : Player} (hp : p.IsSide)

/-- There are moves while the board is not full and nobody has won. -/
theorem BoardInv.legal_ne_nil_iff {s : State NumRows NumCols} (h : BoardInv s) :
    (game Z).legal s ≠ [] ↔ NumRows * NumCols ≠ s.noMoves ∧ s.winner = .invalid := by
  constructor
  · intro hne
    obtain ⟨m, hm⟩ := List.exists_mem_of_ne_nil _ hne
    have hlegal := (mem_legal_iff Z s m).mp hm
    exact ⟨hlegal.1, hlegal.2.1⟩
  · intro h'
    obtain ⟨hroom, hopen⟩ := h'
    have hfull := mt h.full_iff.mp hroom
    unfold Full at hfull
    push Not at hfull
    obtain ⟨i, j, hr, hocc⟩ := hfull
    have hvac : s.board.at' i j = .vacant := by
      by_contra hne
      exact hocc ((h.settled.occupied_iff hr).mpr hne)
    have htop : s.board.at' 0 j = .vacant := by
      rcases hr.1.eq_or_lt with rfl | hlt
      · exact hvac
      · exact h.settled.vacant_above hr hvac 0 le_rfl hlt
    obtain ⟨col, rfl⟩ := Int.eq_ofNat_of_zero_le hr.2.2.1
    have hcol := hr.2.2.2
    exact List.ne_nil_of_mem ((mem_legal_iff Z s _).mpr
      ⟨hroom, hopen, col, by omega, htop, rfl⟩)

/-- The listed moves are distinct. -/
theorem legal_nodup (hnarrow : NumCols ≤ 128) (s : State NumRows NumCols) :
    ((game Z).legal s).Nodup := by
  obtain ⟨-, hlist, -⟩ := moves_spec s .new
  unfold Game.legal
  split
  · next hb =>
      rw [hlist hb]
      refine List.Nodup.map_on ?_ (List.nodup_range.filter _)
      intro x hx y hy heq
      rw [List.mem_filter, List.mem_range] at hx hy
      have hloc := congrArg Move.loc heq
      rw [ofIndex_loc hnarrow hx.1, ofIndex_loc hnarrow hy.1] at hloc
      exact_mod_cast hloc
  · exact List.nodup_nil

/-- A listed move is none of the marks, which are negative. -/
theorem legal_valid (hnarrow : NumCols ≤ 128) {s : State NumRows NumCols} {m : Move}
    (hm : m ∈ (game Z).legal s) : m ≠ Move.none ∧ m ≠ Move.invalid := by
  obtain ⟨-, -, col, hcol, -, rfl⟩ := (mem_legal_iff Z s m).mp hm
  have hloc := ofIndex_loc hnarrow hcol
  have hnone : Move.none.loc = -1 := rfl
  have hinvalid : Move.invalid.loc = -3 := rfl
  refine ⟨fun heq => ?_, fun heq => ?_⟩
  · rw [heq] at hloc
    omega
  · rw [heq] at hloc
    omega

/-- The state of a played game is known from its position up to hash and
last move. -/
private theorem verdict_congr {s t : State NumRows NumCols} (hs : BoardInv s ∧ Verdict s)
    (ht : BoardInv t ∧ Verdict t) (hboard : s.board = t.board) :
    s.noMoves = t.noMoves ∧ (s.winner = .invalid ↔ t.winner = .invalid) := by
  refine ⟨by rw [hs.1.count, ht.1.count, hboard], ?_⟩
  rw [hs.2.unfinished, ht.2.unfinished, hboard]

/-- Positions say what the boards are and who made the last move. -/
private theorem of_position_eq {s t : State NumRows NumCols}
    (hpos : (game Z).position s = (game Z).position t) :
    s.board = t.board ∧ s.playerJustMoved = t.playerJustMoved := by
  have hplayer : s.playerJustMoved.opponent = t.playerJustMoved.opponent :=
    congrArg Prod.snd hpos
  refine ⟨congrArg Prod.fst hpos, ?_⟩
  rw [← Player.opponent_opponent s.playerJustMoved, hplayer, Player.opponent_opponent]

include hrows hcols hcells hnarrow hp

theorem lawful : (game Z).Lawful (new Z p) := by
  have hinv : ∀ {s : State NumRows NumCols}, (game Z).Mixed (new Z p) s → BoardInv s :=
    boardInv_run hrows (by omega) hcells (boardInv_new Z hp)
  have hverdict : ∀ {s : State NumRows NumCols}, (game Z).Played (new Z p) s →
      BoardInv s ∧ Verdict s := fun hs =>
    verdict_run hrows hcols hcells (by omega) hp hs.judged
  have hopen : ∀ {s : State NumRows NumCols} {m : Move}, m ∈ (game Z).legal s →
      s.winner = .invalid := fun {s m} hm => ((mem_legal_iff Z s m).mp hm).2.1
  constructor
  case moves_iff =>
    intro s hs c
    rw [(hinv hs).legal_ne_nil_iff]
    exact (moves_spec s c).1
  case moves_toList =>
    intro s hs c hmore
    obtain ⟨hret, hlist, hsize⟩ := moves_spec s c
    obtain ⟨hret', hlist', -⟩ := moves_spec s .new
    have hmore' := hret'.mpr (hret.mp hmore)
    refine ⟨?_, hsize⟩
    show _ = if (s.moves .new).1 then (s.moves .new).2.toList else []
    rw [if_pos hmore', hlist' hmore', hlist hmore]
  case legal_nodup =>
    intro s _
    exact legal_nodup (by omega) s
  case ended_iff =>
    intro s hs
    obtain ⟨h, hv⟩ := hverdict hs
    rw [h.legal_ne_nil_iff]
    show (if s.winner = .invalid then none else some s.winner) = none ↔ _
    by_cases hw : s.winner = .invalid
    · rw [if_pos hw]
      exact iff_of_true rfl ⟨mt h.full_iff.mpr (hv.unfinished.mp hw).1, hw⟩
    · rw [if_neg hw]
      exact iff_of_false (by simp) fun h => hw h.2
  case moveHash_ended =>
    intro s m _ hm
    exact if_pos (hopen hm)
  case moveHash_eq =>
    intro s m _ hm hended
    show (s.makeMove m).1.hash Z (s.makeMove m).2
      = ((s.makeMove m).1.hash Z (s.makeMove m).2).setWinner (s.makeMove m).2
    have hw : (((s.makeMove m).1.hash Z (s.makeMove m).2).setWinner (s.makeMove m).2).winner
        = .invalid := by
      by_contra hne
      exact Option.some_ne_none _ ((if_neg hne).symm.trans hended)
    rw [setWinner_eq, hw, ← hopen hm]
    rfl
  case lastMove =>
    intro s m
    exact (apply_fields .moveHashWinner s m).2.2.2
  case moveWinner_line =>
    intro s ms
    obtain ⟨h, hplay⟩ := play_withHash (Z := Z) s ms
    rw [hplay]
    exact ⟨rfl, rfl, rfl⟩
  case measure =>
    refine ⟨fun s => NumRows * NumCols - s.board.count Player.occupied, ?_, ?_⟩
    · intro s m hs op hm
      have h := hinv hs
      obtain ⟨row, col, hd⟩ := drops_of_legal hrows (by omega) h.settled hm
      have hcount := hd.count h.settled
      have hle := MaMatrix.count_le Player.occupied (s.makeMove m).1.board
      show NumRows * NumCols - ((game Z).apply op s m).board.count _
        < NumRows * NumCols - s.board.count _
      rw [(apply_fields op s m).1]
      omega
    · intro s t _ _ hpos
      show _ - s.board.count _ = _ - t.board.count _
      rw [(of_position_eq hpos).1]
  case legal_perm =>
    intro s t hs ht hpos
    have hboard := (of_position_eq hpos).1
    obtain ⟨hcount, hw⟩ := verdict_congr (hverdict hs) (hverdict ht) hboard
    refine (List.perm_ext_iff_of_nodup (legal_nodup (by omega) s) (legal_nodup (by omega) t)).mpr
      fun m => ?_
    rw [mem_legal_iff, mem_legal_iff, hcount, hw, hboard]
  case zobrist_eq =>
    intro s t hs ht hpos
    have hbase : ∀ {u : State NumRows NumCols}, (game Z).Played (new Z p) u →
        u.zobristHash ^^^ stoneKeys Z u.board
          = (new Z p).zobristHash ^^^ stoneKeys Z (new Z p).board := fun hu =>
      (hashBase_run hrows (by omega) (settled_new Z hp) hu.hashed).2
    have hhash : ∀ {u : State NumRows NumCols}, (game Z).Played (new Z p) u → u.zobristHash
        = ((new Z p).zobristHash ^^^ stoneKeys Z (new Z p).board) ^^^ stoneKeys Z u.board :=
      fun {u} hu => by
        rw [← hbase hu, UInt64.xor_assoc, UInt64.xor_self, UInt64.xor_zero]
    obtain ⟨hboard, hplayer⟩ := of_position_eq hpos
    show s.zobristHash ^^^ Z.playerKey s.playerJustMoved
      = t.zobristHash ^^^ Z.playerKey t.playerJustMoved
    rw [hhash hs, hhash ht, hboard, hplayer]
  case playerJustMoved_eq =>
    intro s t hpos
    exact (of_position_eq hpos).2
  case position_move =>
    intro s t hpos m
    obtain ⟨hboard, hplayer⟩ := of_position_eq hpos
    have hmade : ∀ u : State NumRows NumCols, (game Z).position ((game Z).moveHashWinner u m)
        = (u.board.setAt (landingRow u.board m.loc NumRows) m.loc u.playerJustMoved.opponent,
            u.playerJustMoved.opponent.opponent) := fun u => by
      obtain ⟨hb, -, hj, -⟩ := apply_fields (Z := Z) .moveHashWinner u m
      exact Prod.ext hb (congrArg Player.opponent hj)
    rw [hmade s, hmade t, hboard, hplayer]

end Laws

end MctsConnectFour.ConnectFour
